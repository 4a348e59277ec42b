/-
  PassionProjects.PebbleDB.Bloom.BloomFilter

  The Bloom filter of a table (`bloom/bloom_filter.cpp`), and that it rejects no
  key it was built over.

  Sizes are `size_t` and wrap at 64 bits; the number of bits is narrowed to 32
  bits before a remainder is taken by it.  A remainder by zero ends the process:
  such a run has no result (`none`).
-/

import PassionProjects.PebbleDB.Util.Crc32c

namespace PassionProjects.PebbleDB.Bloom

open PassionProjects.PebbleDB.Util

/-- `Hash1`. -/
def hash1 (key : Key) : UInt32 := crc32c key

/-- `Hash2`. -/
def hash2 (h1 : UInt32) : UInt32 := (h1 >>> 15) ||| (h1 <<< 17)

/-- `ChooseNumProbes`: `bits_per_key * ln 2` to the nearest integer, clamped to
    [1, 30].  No product that the clamp leaves alone is near a half. -/
def chooseNumProbes (bitsPerKey : UInt64) : UInt8 :=
  let probes := (bitsPerKey.toNat * 69314718055994530942 + 50000000000000000000) /
    100000000000000000000
  if probes < 1 then 1 else if probes > 30 then 30 else UInt8.ofNat probes

/-- The bit of a byte that a bit position selects. -/
def bitMask (bitPos : UInt32) : UInt8 := 1 <<< (bitPos % 8).toUInt8

/-- Whether the bit at a position is set. -/
def bitAt (bits : Bytes) (bitPos : UInt32) : Bool :=
  bits.getD (bitPos / 8).toNat 0 &&& bitMask bitPos != 0

/-- Set the bit at a position. -/
def setBit (bits : Bytes) (bitPos : UInt32) : Bytes :=
  bits.modify (bitPos / 8).toNat fun byte => byte ||| bitMask bitPos

/-- The probe loop of `BuildFilter` for one key. -/
def setProbes (numBits h2 : UInt32) : Nat → UInt32 → Bytes → Option Bytes
  | 0, _, bits => some bits
  | n + 1, g, bits =>
    if numBits = 0 then none else setProbes numBits h2 n (g + h2) (setBit bits (g % numBits))

/-- The key loop of `BuildFilter`. -/
def setKeys (numBits : UInt32) (numProbes : Nat) : List Key → Bytes → Option Bytes
  | [], bits => some bits
  | key :: keys, bits =>
    let h1 := hash1 key
    match setProbes numBits (hash2 h1) numProbes h1 bits with
    | none => none
    | some bits => setKeys numBits numProbes keys bits

/-- `num_bytes` of `BuildFilter`. -/
def numBytes (numKeys bitsPerKey : UInt64) : UInt64 :=
  let numBits := numKeys * bitsPerKey
  let numBits := if numBits < 64 then 64 else numBits
  (numBits + 7) / 8

/-- `BuildFilter`. -/
def buildFilter (keys : List Key) (bitsPerKey : UInt64) : Option Bytes :=
  if keys.isEmpty ∨ bitsPerKey = 0 then some []
  else
    let numProbes := chooseNumProbes bitsPerKey
    let numBytes := numBytes (UInt64.ofNat keys.length) bitsPerKey
    let numBits := numBytes * 8
    match setKeys numBits.toUInt32 numProbes.toNat keys (List.replicate numBytes.toNat 0) with
    | none => none
    | some bits => some (numProbes :: bits)

/-- The probe loop of `KeyMayMatch`. -/
def checkProbes (numBits h2 : UInt32) (bits : Bytes) : Nat → UInt32 → Option Bool
  | 0, _ => some true
  | n + 1, g =>
    if numBits = 0 then none
    else if bitAt bits (g % numBits) then checkProbes numBits h2 bits n (g + h2) else some false

/-- `KeyMayMatch`. -/
def keyMayMatch (key : Key) (filter : Bytes) : Option Bool :=
  match filter with
  | numProbes :: b :: rest =>
    let bits := b :: rest
    let h1 := hash1 key
    checkProbes (UInt64.ofNat bits.length * 8).toUInt32 (hash2 h1) bits numProbes.toNat h1
  | _ => some true

-- ============================================================================
-- Bits
-- ============================================================================

theorem bitMask_ne_zero (bitPos : UInt32) : bitMask bitPos ≠ 0 := by
  have hlt : (bitPos % 8).toNat < 8 := by
    rw [UInt32.toNat_mod]
    exact Nat.mod_lt _ (by decide)
  have hmask : bitMask bitPos = 1 <<< UInt8.ofNat (bitPos % 8).toNat := by
    rw [bitMask]
    congr 1
  rw [hmask]
  generalize (bitPos % 8).toNat = k at hlt
  interval_cases k <;> decide

/-- A byte with more bits set passes every mask it passed before. -/
theorem or_and_ne_zero {a m : UInt8} (b : UInt8) (h : a &&& m ≠ 0) : (a ||| b) &&& m ≠ 0 := by
  intro hzero
  apply h
  have hbits : (a.toBitVec &&& m.toBitVec) ||| (b.toBitVec &&& m.toBitVec) = 0 := by
    rw [← BitVec.and_or_distrib_right, ← UInt8.toBitVec_or, ← UInt8.toBitVec_and, hzero]
    rfl
  rw [← UInt8.toBitVec_inj, UInt8.toBitVec_and]
  exact (BitVec.or_eq_zero_iff.mp hbits).1

@[simp] theorem setBit_length (bits : Bytes) (p : UInt32) :
    (setBit bits p).length = bits.length := by simp [setBit]

/-- A bit that is set stays set. -/
theorem bitAt_setBit_of_bitAt {bits : Bytes} {q : UInt32} (p : UInt32) (h : bitAt bits q = true) :
    bitAt (setBit bits p) q = true := by
  rw [bitAt, bne_iff_ne, List.getD_eq_getElem?_getD] at h ⊢
  rw [setBit]
  by_cases heq : (p / 8).toNat = (q / 8).toNat
  · rw [heq, List.getElem?_modify_eq]
    cases hget : bits[(q / 8).toNat]? with
    | none => rwa [hget] at h
    | some byte =>
        rw [hget] at h
        exact or_and_ne_zero (bitMask p) h
  · rwa [List.getElem?_modify_ne _ _ heq]

/-- The bit that was set is set. -/
theorem bitAt_setBit_self {bits : Bytes} {p : UInt32} (h : (p / 8).toNat < bits.length) :
    bitAt (setBit bits p) p = true := by
  have hself : bitMask p &&& bitMask p ≠ 0 := by
    rw [UInt8.and_self]
    exact bitMask_ne_zero p
  rw [bitAt, bne_iff_ne, List.getD_eq_getElem?_getD, setBit, List.getElem?_modify_eq,
    List.getElem?_eq_getElem h]
  show (bits[(p / 8).toNat] ||| bitMask p) &&& bitMask p ≠ 0
  rw [UInt8.or_comm]
  exact or_and_ne_zero _ hself

-- ============================================================================
-- No false negatives
-- ============================================================================

variable {numBits h2 : UInt32}

/-- The probes set bits and clear none. -/
theorem setProbes_grows {n : Nat} {g : UInt32} {bits bits' : Bytes}
    (h : setProbes numBits h2 n g bits = some bits') :
    bits'.length = bits.length ∧ ∀ q, bitAt bits q = true → bitAt bits' q = true := by
  induction n generalizing g bits with
  | zero =>
      obtain rfl := Option.some.inj h
      exact ⟨rfl, fun _ => id⟩
  | succ n ih =>
      rw [setProbes] at h
      split at h
      · exact absurd h (by simp)
      · obtain ⟨hlen, hbits⟩ := ih h
        exact ⟨by rw [hlen, setBit_length], fun q hq => hbits q (bitAt_setBit_of_bitAt _ hq)⟩

/-- With a positive number of bits the probes always succeed. -/
theorem setProbes_isSome (hpos : numBits ≠ 0) (h2 : UInt32) (n : Nat) (g : UInt32)
    (bits : Bytes) :
    ∃ bits', setProbes numBits h2 n g bits = some bits' := by
  induction n generalizing g bits with
  | zero => exact ⟨bits, rfl⟩
  | succ n ih =>
      rw [setProbes, if_neg hpos]
      exact ih _ _

/-- Bits that cover those the probes set answer the same probes with yes. -/
theorem checkProbes_of_setProbes (hpos : numBits ≠ 0) {n : Nat} {g : UInt32}
    {bits bits' final : Bytes} (h : setProbes numBits h2 n g bits = some bits')
    (hfits : numBits.toNat ≤ 8 * bits.length)
    (hfinal : ∀ q, bitAt bits' q = true → bitAt final q = true) :
    checkProbes numBits h2 final n g = some true := by
  induction n generalizing g bits with
  | zero => rfl
  | succ n ih =>
      rw [setProbes, if_neg hpos] at h
      have hlt : (g % numBits).toNat < numBits.toNat := by
        rw [UInt32.toNat_mod]
        refine Nat.mod_lt _ (Nat.pos_of_ne_zero fun hzero => hpos ?_)
        exact UInt32.toNat_inj.mp hzero
      have hbyte : (g % numBits / 8).toNat < bits.length := by
        rw [UInt32.toNat_div]
        show (g % numBits).toNat / 8 < bits.length
        omega
      have hset : bitAt final (g % numBits) = true :=
        hfinal _ ((setProbes_grows h).2 _ (bitAt_setBit_self hbyte))
      rw [checkProbes, if_neg hpos, if_pos hset]
      exact ih h (by rwa [setBit_length])

/-- With a positive number of bits every probe has an answer. -/
theorem checkProbes_isSome (hpos : numBits ≠ 0) (bits : Bytes) (n : Nat) (g : UInt32) :
    ∃ b, checkProbes numBits h2 bits n g = some b := by
  induction n generalizing g with
  | zero => exact ⟨true, rfl⟩
  | succ n ih =>
      rw [checkProbes, if_neg hpos]
      split
      · exact ih _
      · exact ⟨false, rfl⟩

/-- Building over keys never fails, keeps the number of bytes, clears no bit, and
    leaves bits that every one of the keys passes. -/
theorem setKeys_spec (hpos : numBits ≠ 0) (numProbes : Nat) (keys : List Key) (bits : Bytes)
    (hfits : numBits.toNat ≤ 8 * bits.length) :
    ∃ final, setKeys numBits numProbes keys bits = some final ∧ final.length = bits.length ∧
      (∀ q, bitAt bits q = true → bitAt final q = true) ∧
      ∀ key ∈ keys, checkProbes numBits (hash2 (hash1 key)) final numProbes (hash1 key) =
        some true := by
  induction keys generalizing bits with
  | nil => exact ⟨bits, rfl, rfl, fun _ => id, fun key hkey => absurd hkey (by simp)⟩
  | cons key keys ih =>
      obtain ⟨bits₁, h₁⟩ :=
        setProbes_isSome hpos (hash2 (hash1 key)) numProbes (hash1 key) bits
      obtain ⟨hlen₁, hgrows₁⟩ := setProbes_grows h₁
      obtain ⟨final, hrun, hlen, hgrows, hkeys⟩ := ih bits₁ (by rwa [hlen₁])
      refine ⟨final, ?_, by rw [hlen, hlen₁], fun q hq => hgrows q (hgrows₁ q hq), ?_⟩
      · rw [setKeys]
        simp only [h₁, hrun]
      · intro k hk
        rcases List.mem_cons.mp hk with rfl | hk
        · exact checkProbes_of_setProbes hpos h₁ hfits hgrows
        · exact hkeys k hk

/-- The bits of a filter over so many keys: at least 64, whole bytes. -/
def totalBits (numKeys bitsPerKey : Nat) : Nat := (max 64 (numKeys * bitsPerKey) + 7) / 8 * 8

/-- While the bits of the filter are fewer than 2^32 nothing wraps. -/
theorem numBytes_toNat {numKeys : Nat} {bitsPerKey : UInt64}
    (h : totalBits numKeys bitsPerKey.toNat < 2 ^ 32) :
    (numBytes (UInt64.ofNat numKeys) bitsPerKey).toNat * 8 =
      totalBits numKeys bitsPerKey.toNat := by
  unfold totalBits at h ⊢
  have hprod : numKeys * bitsPerKey.toNat < 2 ^ 32 := by omega
  have hmul : (UInt64.ofNat numKeys * bitsPerKey).toNat = numKeys * bitsPerKey.toNat := by
    rw [UInt64.toNat_mul, UInt64.toNat_ofNat', Nat.mod_mul_mod]
    exact Nat.mod_eq_of_lt (by omega)
  have hfloor : (if UInt64.ofNat numKeys * bitsPerKey < 64 then (64 : UInt64)
      else UInt64.ofNat numKeys * bitsPerKey).toNat = max 64 (numKeys * bitsPerKey.toNat) := by
    split
    · next hlt =>
      rw [UInt64.lt_iff_toNat_lt, hmul] at hlt
      have hlt : numKeys * bitsPerKey.toNat < 64 := hlt
      show 64 = _
      omega
    · next hge =>
      rw [UInt64.lt_iff_toNat_lt, hmul] at hge
      have hge : ¬ numKeys * bitsPerKey.toNat < 64 := hge
      rw [hmul]
      omega
  unfold numBytes
  simp only
  rw [UInt64.toNat_div, UInt64.toNat_add, hfloor]
  have h7 : (7 : UInt64).toNat = 7 := rfl
  have h8 : (8 : UInt64).toNat = 8 := rfl
  rw [h7, h8]
  omega

/-- The number of bits that builder and reader take remainders by. -/
def probeBits (numKeys : Nat) (bitsPerKey : UInt64) : UInt32 :=
  (numBytes (UInt64.ofNat numKeys) bitsPerKey * 8).toUInt32

/-- The number of bytes is an eighth of a 64-bit number. -/
theorem numBytes_lt (numKeys bitsPerKey : UInt64) :
    (numBytes numKeys bitsPerKey).toNat < 2 ^ 61 := by
  have h8 : (8 : UInt64).toNat = 8 := rfl
  have hdiv : (numBytes numKeys bitsPerKey).toNat =
      ((if numKeys * bitsPerKey < 64 then 64 else numKeys * bitsPerKey) + 7).toNat / 8 := by
    simp only [numBytes, UInt64.toNat_div, h8]
  have hsum :=
    UInt64.toNat_lt ((if numKeys * bitsPerKey < 64 then 64 else numKeys * bitsPerKey) + 7)
  omega

theorem probeBits_toNat (numKeys : Nat) (bitsPerKey : UInt64) :
    (probeBits numKeys bitsPerKey).toNat =
      (numBytes (UInt64.ofNat numKeys) bitsPerKey).toNat * 8 % 2 ^ 32 := by
  have h8 : (8 : UInt64).toNat = 8 := rfl
  have hlt := numBytes_lt (UInt64.ofNat numKeys) bitsPerKey
  rw [probeBits, UInt64.toNat_toUInt32, UInt64.toNat_mul, h8,
    Nat.mod_eq_of_lt (a := _ * 8) (by omega)]

/-- The remainder is by zero exactly when the product of the two counts is not
    zero in 64 bits, and less than a byte above a multiple of 2^32 when it is
    rounded up. -/
theorem probeBits_eq_zero_iff (numKeys : Nat) (bitsPerKey : UInt64) :
    probeBits numKeys bitsPerKey = 0 ↔
      numKeys * bitsPerKey.toNat % 2 ^ 64 ≠ 0 ∧ (numKeys * bitsPerKey.toNat + 7) % 2 ^ 32 < 8 := by
  have hzero : probeBits numKeys bitsPerKey = 0 ↔ (probeBits numKeys bitsPerKey).toNat = 0 :=
    UInt32.toNat_inj.symm
  have hmul : (UInt64.ofNat numKeys * bitsPerKey).toNat = numKeys * bitsPerKey.toNat % 2 ^ 64 := by
    rw [UInt64.toNat_mul, UInt64.toNat_ofNat', Nat.mod_mul_mod]
  have h7 : (7 : UInt64).toNat = 7 := rfl
  have h8 : (8 : UInt64).toNat = 8 := rfl
  have hsmall : UInt64.ofNat numKeys * bitsPerKey < 64 ↔
      numKeys * bitsPerKey.toNat % 2 ^ 64 < 64 := by
    rw [UInt64.lt_iff_toNat_lt, hmul]
    exact Iff.rfl
  rw [hzero, probeBits_toNat, numBytes]
  by_cases hfloor : UInt64.ofNat numKeys * bitsPerKey < 64
  · have hproduct := hsmall.mp hfloor
    have height : ((64 + 7) / 8 : UInt64).toNat = 8 := rfl
    simp only [if_pos hfloor, height]
    omega
  · have hproduct := mt hsmall.mpr hfloor
    simp only [if_neg hfloor, UInt64.toNat_div, UInt64.toNat_add, hmul, h7, h8]
    omega

/-- At least one probe is made for each key. -/
theorem chooseNumProbes_pos (bitsPerKey : UInt64) : 0 < (chooseNumProbes bitsPerKey).toNat := by
  rw [chooseNumProbes]
  generalize (bitsPerKey.toNat * 69314718055994530942 + 50000000000000000000) /
    100000000000000000000 = probes
  by_cases hlow : probes < 1
  · rw [if_pos hlow]
    decide
  by_cases hhigh : probes > 30
  · rw [if_neg hlow, if_pos hhigh]
    decide
  · rw [if_neg hlow, if_neg hhigh, UInt8.toNat_ofNat']
    omega

/-- A first key with a probe to make takes the remainder by zero. -/
theorem setKeys_zero {keys : List Key} (hkeys : keys ≠ []) {numProbes : Nat} (h : 0 < numProbes)
    (bits : Bytes) : setKeys 0 numProbes keys bits = none := by
  cases keys with
  | nil => exact absurd rfl hkeys
  | cons key keys =>
      cases numProbes with
      | zero => exact absurd h (Nat.lt_irrefl 0)
      | succ n => simp [setKeys, setProbes]

section Built

variable {keys : List Key} {bitsPerKey : UInt64} (hkeys : keys ≠ []) (hbits : bitsPerKey ≠ 0)
include hkeys hbits

theorem buildFilter_eq_match : buildFilter keys bitsPerKey =
    match setKeys (probeBits keys.length bitsPerKey) (chooseNumProbes bitsPerKey).toNat keys
      (List.replicate (numBytes (UInt64.ofNat keys.length) bitsPerKey).toNat 0) with
    | none => none
    | some bits => some (chooseNumProbes bitsPerKey :: bits) := by
  have hnot : ¬ (keys.isEmpty = true ∨ bitsPerKey = 0) := by simp [hkeys, hbits]
  rw [buildFilter, if_neg hnot]
  rfl

/-- A filter that would have no bits after the narrowing is not built. -/
theorem buildFilter_eq_none (hzero : probeBits keys.length bitsPerKey = 0) :
    buildFilter keys bitsPerKey = none := by
  rw [buildFilter_eq_match hkeys hbits, hzero, setKeys_zero hkeys (chooseNumProbes_pos bitsPerKey)]

/-- A filter with bits after the narrowing is built, answers for every key, and
    lets each of its own keys through. -/
theorem buildFilter_of_probeBits (hpos : probeBits keys.length bitsPerKey ≠ 0) :
    ∃ filter, buildFilter keys bitsPerKey = some filter ∧ filter ≠ [] ∧
      (∀ key, ∃ b, keyMayMatch key filter = some b) ∧
      ∀ key ∈ keys, keyMayMatch key filter = some true := by
  have hnarrow := probeBits_toNat keys.length bitsPerKey
  have hposNat : (probeBits keys.length bitsPerKey).toNat ≠ 0 := fun h =>
    hpos (UInt32.toNat_inj.mp h)
  obtain ⟨final, hrun, hlen, -, hall⟩ :=
    setKeys_spec hpos (chooseNumProbes bitsPerKey).toNat keys
      (List.replicate (numBytes (UInt64.ofNat keys.length) bitsPerKey).toNat 0)
      (by rw [List.length_replicate]; omega)
  rw [List.length_replicate] at hlen
  have hmatch (key : Key) : keyMayMatch key (chooseNumProbes bitsPerKey :: final) =
      checkProbes (probeBits keys.length bitsPerKey) (hash2 (hash1 key)) final
        (chooseNumProbes bitsPerKey).toNat (hash1 key) := by
    have hsize : (UInt64.ofNat final.length * 8).toUInt32 = probeBits keys.length bitsPerKey := by
      rw [hlen, UInt64.ofNat_toNat, probeBits]
    cases hfinal : final with
    | nil =>
        rw [hfinal, List.length_nil] at hlen
        omega
    | cons b rest =>
        rw [hfinal] at hsize
        simp only [keyMayMatch, hsize]
  refine ⟨chooseNumProbes bitsPerKey :: final, ?_, by simp, fun key => ?_, fun key hkey => ?_⟩
  · rw [buildFilter_eq_match hkeys hbits, hrun]
  · rw [hmatch]
    exact checkProbes_isSome hpos _ _ _
  · rw [hmatch]
    exact hall key hkey

/-- The filter over a list of keys whose bits are fewer than 2^32. -/
theorem buildFilter_spec (h : totalBits keys.length bitsPerKey.toNat < 2 ^ 32) :
    ∃ filter, buildFilter keys bitsPerKey = some filter ∧ filter ≠ [] ∧
      (∀ key, ∃ b, keyMayMatch key filter = some b) ∧
      ∀ key ∈ keys, keyMayMatch key filter = some true := by
  apply buildFilter_of_probeBits hkeys hbits
  intro hzero
  have hnarrow := probeBits_toNat keys.length bitsPerKey
  have hzeroNat : (probeBits keys.length bitsPerKey).toNat = 0 := by
    rw [hzero]
    rfl
  have hnum := numBytes_toNat h
  unfold totalBits at h hnum
  omega

end Built

/-- A filter is built without a remainder by zero, and passes each of its keys,
    exactly when the narrowed count of its bits is not zero. -/
theorem buildFilter_passes_iff {keys : List Key} {bitsPerKey : UInt64} (hkeys : keys ≠ [])
    (hbits : bitsPerKey ≠ 0) :
    (∃ filter, buildFilter keys bitsPerKey = some filter ∧
        ∀ key ∈ keys, keyMayMatch key filter = some true) ↔
      keys.length * bitsPerKey.toNat % 2 ^ 64 = 0 ∨
        8 ≤ (keys.length * bitsPerKey.toNat + 7) % 2 ^ 32 := by
  have hzero := probeBits_eq_zero_iff keys.length bitsPerKey
  constructor
  · rintro ⟨filter, hbuilt, -⟩
    by_contra hcond
    have hnone := buildFilter_eq_none hkeys hbits (hzero.mpr (by omega))
    rw [hnone] at hbuilt
    cases hbuilt
  · intro hcond
    have hpos : probeBits keys.length bitsPerKey ≠ 0 := fun h => by
      have := hzero.mp h
      omega
    obtain ⟨filter, hbuilt, -, -, hall⟩ := buildFilter_of_probeBits hkeys hbits hpos
    exact ⟨filter, hbuilt, hall⟩

/-- Two keys at ten bits each. -/
theorem buildFilter_passes_two :
    ∃ filter, buildFilter [[97], [98]] 10 = some filter ∧
      ∀ key ∈ [[97], [98]], keyMayMatch key filter = some true :=
  (@buildFilter_passes_iff [[97], [98]] 10 (by simp) (by decide)).mpr (Or.inr (by decide))

/-- One key at 2^32 bits: the narrowed count is zero. -/
theorem buildFilter_not_total :
    ¬ ∀ (keys : List Key) (bitsPerKey : UInt64), keys ≠ [] → bitsPerKey ≠ 0 →
      ∃ filter, buildFilter keys bitsPerKey = some filter ∧
        ∀ key ∈ keys, keyMayMatch key filter = some true := by
  intro h
  obtain ⟨filter, hbuilt, -⟩ := h [[97]] 4294967296 (by simp) (by decide)
  have hnone : buildFilter [[97]] 4294967296 = none :=
    buildFilter_eq_none (by simp) (by decide) ((probeBits_eq_zero_iff _ _).mpr (by decide))
  rw [hnone] at hbuilt
  cases hbuilt

end PassionProjects.PebbleDB.Bloom
