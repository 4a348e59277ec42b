/-
  PassionProjects.MiniPaged.Kv.Contiguous

  The reservation ledger (`ContiguousMemoryModel` of `kv/contiguous.py`): what is
  reserved never exceeds the capacity.
-/

import Mathlib.Algebra.BigOperators.Group.List.Basic
import PassionProjects.Lib.Dict
import PassionProjects.MiniPaged.Basic

namespace PassionProjects.MiniPaged

open Raising Raising.Prog

/-- `_Reservation` -/
structure Reservation where
  requestId : RequestId
  reserved : Int
  used : Int

/-- `ContiguousMemoryModel` -/
structure ContiguousMemoryModel where
  capacityTokens : Int
  reservations : Dict RequestId Reservation := ∅

namespace ContiguousMemoryModel

/-- `ContiguousMemoryModel.__init__` -/
def new (capacityTokens : Int) : Except PyError ContiguousMemoryModel :=
  if capacityTokens < 1 then
    .error (.valueError s!"capacity_tokens must be >= 1, got {capacityTokens}")
  else .ok { capacityTokens }

/-- `reserved_tokens` -/
def reservedTokens (m : ContiguousMemoryModel) : Int :=
  (m.reservations.values.map Reservation.reserved).sum

/-- `free_tokens` -/
def freeTokens (m : ContiguousMemoryModel) : Int := m.capacityTokens - m.reservedTokens

/-- `try_reserve` -/
def tryReserve (requestId : RequestId) (size used : Int) : Py ContiguousMemoryModel Bool := do
  let m ← read
  check (requestId ∉ m.reservations.keys)
    (.valueError s!"{requestId} already holds a reservation")
  check (size ≤ m.capacityTokens) (.capacityError
    (s!"{requestId} requests {size} slots but total capacity is only " ++
      s!"{m.capacityTokens} -- can never be admitted"))
  check (used ≤ size)
    (.valueError s!"{requestId}: used ({used}) exceeds requested size ({size})")
  if size > m.freeTokens then pure false
  else
    modify fun m =>
      { m with reservations := m.reservations.set requestId ⟨requestId, size, used⟩ }
    pure true

/-- `update_used` -/
def updateUsed (requestId : RequestId) (used : Int) : Py ContiguousMemoryModel Unit := do
  let m ← read
  let reservation ← unwrap (.keyError requestId) (m.reservations.get? requestId)
  check (used ≤ reservation.reserved) (.valueError
    s!"{requestId}: used ({used}) exceeds its own reservation ({reservation.reserved})")
  modify fun m =>
    { m with reservations := m.reservations.set requestId { reservation with used } }

/-- `release` -/
def release (requestId : RequestId) : Py ContiguousMemoryModel Int := do
  let m ← read
  let reservation ← unwrap (.keyError requestId) (m.reservations.get? requestId)
  modify fun m => { m with reservations := m.reservations.erase requestId }
  pure reservation.reserved

variable {m : ContiguousMemoryModel} {id : RequestId} {size used : Int}

/-- The ledger with one more reservation. -/
def reserve (m : ContiguousMemoryModel) (id : RequestId) (size used : Int) :
    ContiguousMemoryModel :=
  { m with reservations := m.reservations.set id ⟨id, size, used⟩ }

/-- A reservation is refused only for lack of free slots. -/
theorem tryReserve_spec (hid : m.reservations.get? id = none) (hsize : size ≤ m.capacityTokens)
    (hused : used ≤ size) :
    (tryReserve id size used).Returns (fun ok m' =>
      ok = true ∧ size ≤ m.freeTokens ∧ m' = m.reserve id size used ∨
        ok = false ∧ m.freeTokens < size ∧ m' = m) m := by
  refine wp_bind (wp_read.mpr (wp_bind (wp_check (Dict.get?_eq_none.mp hid) ?_)))
  refine wp_bind (wp_check hsize (wp_bind (wp_check hused ?_)))
  split
  · next hgt => exact wp_pure.mpr (Or.inr ⟨rfl, hgt, rfl⟩)
  · next hle => exact wp_bind (wp_modify.mpr (wp_pure.mpr (Or.inl ⟨rfl, not_lt.mp hle, rfl⟩)))

/-- What can never be reserved raises, and changes nothing. -/
theorem tryReserve_raises (hid : m.reservations.get? id = none) (hsize : m.capacityTokens < size) :
    wp (tryReserve id size used) (fun _ _ => False)
      (fun err m' => (∃ message, err = .capacityError message) ∧ m' = m) m := by
  refine wp_bind (wp_read.mpr (wp_bind (wp_check (Dict.get?_eq_none.mp hid) (wp_bind ?_))))
  rw [check, if_neg (not_le.mpr hsize)]
  exact wp_raise.mpr ⟨⟨_, rfl⟩, rfl⟩

theorem updateUsed_spec {r : Reservation} (hid : m.reservations.get? id = some r)
    (hused : used ≤ r.reserved) :
    (updateUsed id used).Returns
      (fun _ m' => m' = { m with reservations := m.reservations.set id { r with used } }) m :=
  wp_bind (wp_read.mpr (wp_bind (wp_unwrap hid (wp_bind (wp_check hused (wp_modify.mpr rfl))))))

theorem release_spec {r : Reservation} (hid : m.reservations.get? id = some r) :
    (release id).Returns (fun _ m' => m' = { m with reservations := m.reservations.erase id }) m :=
  wp_bind (wp_read.mpr (wp_bind (wp_unwrap hid (wp_bind (wp_modify.mpr (wp_pure.mpr rfl))))))

end ContiguousMemoryModel

end PassionProjects.MiniPaged
