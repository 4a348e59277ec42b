/-
  PassionProjects.Arcserve.Buffers.ByteBuffer

  The contiguous, grow-capped byte buffer (`byte_buffer.cpp`).

  Consumed bytes stay in front of `readOffset` until a compaction drops them;
  `view` is what is left, and no operation but `append` and `consume` changes it.
-/

import Mathlib.Data.List.Induction
import PassionProjects.Arcserve.Protocol.HttpMessage

namespace PassionProjects.Arcserve.Buffers

theorem nil_offset_le : 0 ≤ ([] : Bytes).length := Nat.le_refl 0

/-- `ByteBuffer`; the offset never passes the end of the storage. -/
structure ByteBuffer where
  maxCapacity : Nat
  storage : Bytes := []
  readOffset : Nat := 0
  offset_le : readOffset ≤ storage.length := by first | exact nil_offset_le | exact Nat.zero_le _
  deriving DecidableEq, Repr

namespace ByteBuffer

def size (b : ByteBuffer) : Nat := b.storage.length - b.readOffset

def view (b : ByteBuffer) : Bytes := b.storage.drop b.readOffset

/-- `compact_if_worthwhile`. -/
def compactIfWorthwhile (b : ByteBuffer) : ByteBuffer :=
  if b.readOffset = b.storage.length then { maxCapacity := b.maxCapacity }
  else if b.readOffset > 0 ∧ b.readOffset ≥ b.storage.length / 2 then
    { maxCapacity := b.maxCapacity, storage := b.storage.drop b.readOffset }
  else b

/-- `append`: all or nothing. -/
def append (b : ByteBuffer) (data : Bytes) : Bool × ByteBuffer :=
  if data = [] then (true, b)
  else if data.length > b.maxCapacity - b.size then (false, b)
  else (true, { b with
    storage := b.storage ++ data
    offset_le := by rw [List.length_append]; exact Nat.le_add_right_of_le b.offset_le })

/-- `consume`. -/
def consume (b : ByteBuffer) (n : Nat) : ByteBuffer :=
  compactIfWorthwhile { b with
    readOffset := b.readOffset + min n b.size
    offset_le := by
      have hmin := Nat.min_le_right n b.size
      have hoffset := b.offset_le
      unfold size at hmin ⊢
      omega }

@[simp] theorem view_length (b : ByteBuffer) : b.view.length = b.size := List.length_drop

theorem view_compact (b : ByteBuffer) : b.compactIfWorthwhile.view = b.view := by
  unfold compactIfWorthwhile view
  split
  · rw [‹b.readOffset = _›, List.drop_length]
    rfl
  · split
    · rfl
    · rfl

/-- Consuming drops bytes from the front, and never more than there are. -/
@[simp] theorem view_consume (b : ByteBuffer) (n : Nat) : (b.consume n).view = b.view.drop n := by
  rw [consume, view_compact]
  show b.storage.drop (b.readOffset + min n b.size) = (b.storage.drop b.readOffset).drop n
  rw [List.drop_drop]
  by_cases hn : n ≤ b.size
  · rw [Nat.min_eq_left hn]
  · have hsize : b.size = b.storage.length - b.readOffset := rfl
    rw [Nat.min_eq_right (by omega), List.drop_eq_nil_of_le (by omega),
      List.drop_eq_nil_of_le (by omega)]

/-- A buffer as large as its data takes it. -/
theorem append_fresh (data : Bytes) :
    (append { maxCapacity := data.length } data).2.view = data := by
  have hroom : ¬ data.length > data.length - (size { maxCapacity := data.length }) := by
    show ¬ data.length > data.length - (0 - 0)
    omega
  unfold append
  split
  · rw [‹data = []›]
    rfl
  · rfl

-- ============================================================================
-- What a buffer holds
-- ============================================================================

/-- The unread bytes are within the cap, and so is the part that was consumed and not
    yet dropped. -/
structure Within (b : ByteBuffer) : Prop where
  size : b.size ≤ b.maxCapacity
  offset : b.readOffset ≤ b.maxCapacity

variable {b : ByteBuffer}

theorem within_new (maxCapacity : Nat) : Within { maxCapacity } := ⟨Nat.zero_le _, Nat.zero_le _⟩

/-- The storage is what is unread and what was consumed. -/
theorem Within.storage (h : b.Within) : b.storage.length ≤ 2 * b.maxCapacity := by
  have hsize := h.size
  have hoffset := h.offset
  unfold ByteBuffer.size at hsize
  omega

theorem Within.append (h : b.Within) (data : Bytes) : (b.append data).2.Within := by
  unfold ByteBuffer.append
  split
  · exact h
  · split
    · exact h
    · rename_i hroom
      refine ⟨?_, h.offset⟩
      have hsize := h.size
      show (b.storage ++ data).length - b.readOffset ≤ b.maxCapacity
      unfold ByteBuffer.size at hroom hsize
      rw [List.length_append]
      omega

/-- What a compaction leaves in front of the unread bytes is shorter than these: half of
    the storage, rounded down, is at most the unread bytes. -/
theorem within_compact (h : b.size ≤ b.maxCapacity) : b.compactIfWorthwhile.Within := by
  unfold compactIfWorthwhile
  split
  · exact ⟨Nat.zero_le _, Nat.zero_le _⟩
  · split
    · refine ⟨?_, Nat.zero_le _⟩
      show (b.storage.drop b.readOffset).length - 0 ≤ b.maxCapacity
      rw [List.length_drop]
      exact h
    · rename_i hkept
      refine ⟨h, ?_⟩
      have hhalf : b.readOffset = 0 ∨ b.readOffset < b.storage.length / 2 := by omega
      unfold size at h
      omega

theorem maxCapacity_consume (b : ByteBuffer) (n : Nat) :
    (b.consume n).maxCapacity = b.maxCapacity := by
  unfold consume compactIfWorthwhile
  split
  · rfl
  · split
    · rfl
    · rfl

theorem Within.consume (h : b.Within) (n : Nat) : (b.consume n).Within := by
  refine within_compact (Nat.le_trans ?_ h.size)
  show b.storage.length - (b.readOffset + min n b.size) ≤ b.storage.length - b.readOffset
  omega

theorem maxCapacity_append (b : ByteBuffer) (data : Bytes) :
    (b.append data).2.maxCapacity = b.maxCapacity := by
  unfold append
  split
  · rfl
  · split
    · rfl
    · rfl

/-- A call on a buffer. -/
inductive Call where
  | append (data : Bytes)
  | consume (n : Nat)

def step (b : ByteBuffer) : Call → ByteBuffer
  | .append data => (b.append data).2
  | .consume n => b.consume n

/-- Whatever is appended and consumed, a buffer keeps within its cap. -/
theorem within_run (maxCapacity : Nat) (calls : List Call) :
    (calls.foldl step { maxCapacity }).Within ∧
      (calls.foldl step { maxCapacity }).maxCapacity = maxCapacity := by
  induction calls using List.reverseRecOn with
  | nil => exact ⟨within_new maxCapacity, rfl⟩
  | append_singleton calls call ih =>
      obtain ⟨hwithin, hcap⟩ := ih
      rw [List.foldl_append, List.foldl_cons, List.foldl_nil]
      cases call with
      | append data => exact ⟨hwithin.append data, (maxCapacity_append _ _).trans hcap⟩
      | consume n => exact ⟨hwithin.consume n, (maxCapacity_consume _ _).trans hcap⟩

end ByteBuffer

end PassionProjects.Arcserve.Buffers
