/-
  PassionProjects.PebbleDB.Wal.Damage

  Byte strings that differ in one byte, and a complete log with one byte changed.

  A change to a checksum leaves what it covers alone, and the other way round.  The reader
  trusts the two length fields before it has verified the checksum, so a change there moves
  the end of the record: past the end of the file the reader takes the damage for a torn
  tail.  Everywhere else the checksum, the magic number or the version gives the change
  away.
-/

import PassionProjects.PebbleDB.Util.Coding
import PassionProjects.PebbleDB.Util.Crc32c
import PassionProjects.PebbleDB.Wal.Reader

namespace PassionProjects.PebbleDB.Util

/-- `t` is `s` with the byte at `pos` replaced by a different one. -/
def ChangedAt (pos : Nat) (s t : Bytes) : Prop :=
  ∃ pre b c post, b ≠ c ∧ pre.length = pos ∧ s = pre ++ b :: post ∧ t = pre ++ c :: post

/-- The two strings differ in exactly one byte. -/
def OneByteOff (s t : Bytes) : Prop := ∃ pos, ChangedAt pos s t

theorem changedAt_set {s : Bytes} {pos : Nat} {c : UInt8} (hpos : pos < s.length)
    (hc : c ≠ s[pos]) : ChangedAt pos s (s.set pos c) := by
  refine ⟨s.take pos, s[pos], c, s.drop (pos + 1), hc.symm, ?_, ?_, ?_⟩
  · rw [List.length_take]
    omega
  · rw [List.getElem_cons_drop, List.take_append_drop]
  · rw [List.set_eq_take_append_cons_drop, if_pos hpos]

namespace ChangedAt

variable {pos : Nat} {s t : Bytes}

theorem length_eq (h : ChangedAt pos s t) : t.length = s.length := by
  obtain ⟨pre, b, c, post, -, -, rfl, rfl⟩ := h
  simp

/-- Before the change the strings agree. -/
theorem take_eq (h : ChangedAt pos s t) {n : Nat} (hn : n ≤ pos) : t.take n = s.take n := by
  obtain ⟨pre, b, c, post, -, rfl, rfl, rfl⟩ := h
  rw [List.take_append_of_le_length hn, List.take_append_of_le_length hn]

/-- After the change the strings agree. -/
theorem drop_eq (h : ChangedAt pos s t) {n : Nat} (hn : pos < n) : t.drop n = s.drop n := by
  obtain ⟨pre, b, c, post, -, rfl, rfl, rfl⟩ := h
  obtain ⟨k, rfl⟩ : ∃ k, n = pre.length + (k + 1) := ⟨n - pre.length - 1, by omega⟩
  rw [List.drop_length_add_append, List.drop_length_add_append, List.drop_succ_cons,
    List.drop_succ_cons]

/-- A prefix that holds the changed byte is changed at the same place. -/
theorem take (h : ChangedAt pos s t) {n : Nat} (hn : pos < n) :
    ChangedAt pos (s.take n) (t.take n) := by
  obtain ⟨pre, b, c, post, hne, rfl, rfl, rfl⟩ := h
  obtain ⟨k, rfl⟩ : ∃ k, n = pre.length + (k + 1) := ⟨n - pre.length - 1, by omega⟩
  refine ⟨pre, b, c, post.take k, hne, rfl, ?_, ?_⟩
  · rw [List.take_length_add_append, List.take_succ_cons]
  · rw [List.take_length_add_append, List.take_succ_cons]

/-- A suffix that holds the changed byte is changed that much earlier. -/
theorem drop (h : ChangedAt pos s t) {n : Nat} (hn : n ≤ pos) :
    ChangedAt (pos - n) (s.drop n) (t.drop n) := by
  obtain ⟨pre, b, c, post, hne, rfl, rfl, rfl⟩ := h
  refine ⟨pre.drop n, b, c, post, hne, List.length_drop, ?_, ?_⟩
  · rw [List.drop_append_of_le_length hn]
  · rw [List.drop_append_of_le_length hn]

/-- The checksum tells the strings apart, whatever it starts from. -/
theorem extendCrc32c_ne (h : ChangedAt pos s t) (crc : UInt32) :
    extendCrc32c crc s ≠ extendCrc32c crc t := by
  obtain ⟨pre, b, c, post, hne, -, rfl, rfl⟩ := h
  exact extendCrc32c_byte_ne crc pre post hne

/-- A changed field of four bytes holds another number. -/
theorem decodeFixed32_ne (h : ChangedAt pos s t) (hlen : s.length = 4) :
    decodeFixed32 s ≠ decodeFixed32 t := by
  intro heq
  have hsame := decodeFixed32_inj hlen (h.length_eq.trans hlen) heq
  exact h.extendCrc32c_ne 0 (by rw [hsame])

/-- A checksum in front of what it covers gives the change away. -/
theorem front_ne (h : ChangedAt pos s t) (hlen : 4 ≤ s.length)
    (hsum : crc32c (s.drop 4) = decodeFixed32 s) : crc32c (t.drop 4) ≠ decodeFixed32 t := by
  rw [← decodeFixed32_take] at hsum ⊢
  rcases Nat.lt_or_ge pos 4 with hpos | hpos
  · -- the stored checksum changed, what it covers did not
    have hfour : (s.take 4).length = 4 := by
      rw [List.length_take]
      omega
    rw [h.drop_eq hpos, hsum]
    exact (h.take hpos).decodeFixed32_ne hfour
  · -- the covered bytes changed, the stored checksum did not
    rw [h.take_eq hpos, ← hsum]
    exact ((h.drop hpos).extendCrc32c_ne 0).symm

/-- A checksum behind what it covers gives the change away. -/
theorem back_ne (h : ChangedAt pos s t) {n : Nat} (hlen : s.length = n + 4)
    (hsum : crc32c (s.take n) = decodeFixed32 (s.drop n)) :
    crc32c (t.take n) ≠ decodeFixed32 (t.drop n) := by
  rcases Nat.lt_or_ge pos n with hpos | hpos
  · rw [h.drop_eq hpos, ← hsum]
    exact ((h.take hpos).extendCrc32c_ne 0).symm
  · have hfour : (s.drop n).length = 4 := by
      rw [List.length_drop]
      omega
    rw [h.take_eq hpos, hsum]
    exact (h.drop hpos).decodeFixed32_ne hfour

end ChangedAt

end PassionProjects.PebbleDB.Util

namespace PassionProjects.PebbleDB.Wal

open PassionProjects.PebbleDB.Util

/-- Some record of `bytes`, read record by record from the front, is refused: its
    header does not decode, or its whole payload is there and its body does not. -/
inductive Refused : Bytes → Prop where
  | header {bytes : Bytes} {status : DecodeStatus} (hlen : kHeaderSize ≤ bytes.length)
      (hd : decodeHeader (bytes.take kHeaderSize) = .error status) : Refused bytes
  | body {bytes : Bytes} {decoded : DecodedHeader} {status : DecodeStatus}
      (hd : decodeHeader (bytes.take kHeaderSize) = .ok decoded)
      (hlen : kHeaderSize + decoded.payloadLength ≤ bytes.length)
      (hb : decodeBody decoded (bytes.take kHeaderSize)
        ((bytes.drop kHeaderSize).take decoded.payloadLength) = .error status) : Refused bytes
  | later {bytes : Bytes} {decoded : DecodedHeader} {record : Record}
      (hd : decodeHeader (bytes.take kHeaderSize) = .ok decoded)
      (hlen : kHeaderSize + decoded.payloadLength ≤ bytes.length)
      (hb : decodeBody decoded (bytes.take kHeaderSize)
        ((bytes.drop kHeaderSize).take decoded.payloadLength) = .ok record)
      (hrest : Refused (bytes.drop (kHeaderSize + decoded.payloadLength))) : Refused bytes

/-- The two terminal results that `DB::Recover` treats as damage. -/
def ReadResult.IsDamage (result : ReadResult) : Prop :=
  result = .kCorruption ∨ result = .kUnsupportedVersion

instance (result : ReadResult) : Decidable result.IsDamage := by
  unfold ReadResult.IsDamage; infer_instance

-- ============================================================================
-- Refused bytes are what Replay ends at as damage
-- ============================================================================

theorem refused_header_ok {bytes : Bytes} {decoded : DecodedHeader}
    (hd : decodeHeader (bytes.take kHeaderSize) = .ok decoded) (h : Refused bytes) :
    kHeaderSize + decoded.payloadLength ≤ bytes.length ∧
    ∀ record, decodeBody decoded (bytes.take kHeaderSize)
        ((bytes.drop kHeaderSize).take decoded.payloadLength) = .ok record →
      Refused (bytes.drop (kHeaderSize + decoded.payloadLength)) := by
  cases h with
  | header hlen hd' => simp [hd] at hd'
  | body hd' hlen hb =>
      obtain rfl : decoded = _ := by simpa [hd] using hd'
      exact ⟨hlen, fun record hr => by simp [hb] at hr⟩
  | later hd' hlen hb hrest =>
      obtain rfl : decoded = _ := by simpa [hd] using hd'
      exact ⟨hlen, fun _ _ => hrest⟩

theorem refused_length {bytes : Bytes} (h : Refused bytes) : kHeaderSize ≤ bytes.length := by
  cases h with
  | header hlen _ => exact hlen
  | body _ hlen _ => omega
  | later _ hlen _ _ => omega

/-- `Replay` ends as damaged exactly when some record of the log is refused. -/
theorem replay_isDamage_iff {r : Reader} (he : r.exhausted = false) :
    (Reader.replay r).terminal.IsDamage ↔ Refused r.unread := by
  induction hn : r.unread.length using Nat.strong_induction_on generalizing r with
  | _ n ih =>
      subst hn
      by_cases hlen : r.unread.length < kHeaderSize
      · have hnot : ¬ Refused r.unread := fun h => absurd (refused_length h) (Nat.not_le.mpr hlen)
        by_cases hnil : r.unread = []
        · rw [Reader.replay_stop (Reader.readNext_nil he hnil) (by simp)]
          simp [ReadResult.IsDamage, hnot]
        · have hread := (Reader.readNext_shortHeader he hnil hlen).1
          rw [Reader.replay_truncated hread]
          simp [ReadResult.IsDamage, hnot]
      · have hlen : kHeaderSize ≤ r.unread.length := Nat.not_lt.mp hlen
        cases hd : decodeHeader (r.unread.take kHeaderSize) with
        | error status =>
            have hread := Reader.readNext_badHeader he hlen hd
            have hstop : ∀ record, (r.readNext).1 ≠ .kOk record := by
              rcases hread with h | h <;> simp [h]
            rw [Reader.replay_stop rfl hstop]
            exact ⟨fun _ => .header hlen hd, fun _ => hread⟩
        | ok decoded =>
            by_cases hshort : r.unread.length < kHeaderSize + decoded.payloadLength
            · have hread := (Reader.readNext_shortPayload he hlen hd hshort).1
              have hnot : ¬ Refused r.unread := fun h =>
                absurd (refused_header_ok hd h).1 (Nat.not_le.mpr hshort)
              rw [Reader.replay_truncated hread]
              simp [ReadResult.IsDamage, hnot]
            · have hlen' := Nat.not_lt.mp hshort
              have hread := Reader.readNext_body he hd hlen'
              cases hb : decodeBody decoded (r.unread.take kHeaderSize)
                  ((r.unread.drop kHeaderSize).take decoded.payloadLength) with
              | error status =>
                  rw [hb] at hread
                  rw [Reader.replay_stop hread (by simp)]
                  exact ⟨fun _ => .body hd hlen' hb, fun _ => Or.inl rfl⟩
              | ok record =>
                  rw [hb] at hread
                  rw [Reader.replay_kOk he hread]
                  have hpos : 0 < kHeaderSize := by decide
                  have hrec := ih (r.unread.drop (kHeaderSize + decoded.payloadLength)).length
                    (by rw [List.length_drop]; omega) (r := { r with
                      unread := r.unread.drop (kHeaderSize + decoded.payloadLength)
                      bytesConsumed := r.bytesConsumed + (kHeaderSize + decoded.payloadLength) })
                    he rfl
                  exact hrec.trans ⟨fun h => .later hd hlen' hb h,
                    fun h => (refused_header_ok hd h).2 record hb⟩

/-- An intact record hides nothing that follows it. -/
theorem refused_encodeRecord {record : Record} (hfits : record.Fits) (rest : Bytes) :
    Refused (encodeRecord record ++ rest) ↔ Refused rest := by
  have htake : (encodeRecord record ++ rest).take kHeaderSize = encodeHeader record := by
    rw [encodeRecord_eq, List.append_assoc, take_encodeHeader]
  have hd : decodeHeader ((encodeRecord record ++ rest).take kHeaderSize) =
      .ok (headerOf record) := by rw [htake, decodeHeader_encodeHeader hfits]
  have hbody : ((encodeRecord record ++ rest).drop kHeaderSize).take
      (headerOf record).payloadLength = encodePayload record := by
    rw [encodeRecord_eq, List.append_assoc, drop_encodeHeader, hfits.payloadLength, List.take_left]
  have hlength : kHeaderSize + (headerOf record).payloadLength = (encodeRecord record).length := by
    rw [hfits.payloadLength, encodeRecord_length]
  have hb : decodeBody (headerOf record) ((encodeRecord record ++ rest).take kHeaderSize)
      (((encodeRecord record ++ rest).drop kHeaderSize).take (headerOf record).payloadLength) =
        .ok record.stored := by rw [htake, hbody, decodeBody_encode hfits]
  have hlen : kHeaderSize + (headerOf record).payloadLength ≤
      (encodeRecord record ++ rest).length := by
    rw [hlength, List.length_append]
    exact Nat.le_add_right _ _
  have hdrop : (encodeRecord record ++ rest).drop
      (kHeaderSize + (headerOf record).payloadLength) = rest := by rw [hlength, List.drop_left]
  constructor
  · intro h
    have hrest := (refused_header_ok hd h).2 record.stored hb
    rwa [hdrop] at hrest
  · intro h
    exact .later hd hlen hb (by rwa [hdrop])

theorem refused_encodeRecords (records : List Record) (hfits : ∀ x ∈ records, x.Fits)
    (rest : Bytes) : Refused (encodeRecords records ++ rest) ↔ Refused rest := by
  induction records with
  | nil => rfl
  | cons x xs ih =>
      rw [encodeRecords_cons, List.append_assoc,
        refused_encodeRecord (hfits x (List.mem_cons_self ..))]
      exact ih fun y hy => hfits y (List.mem_cons_of_mem _ hy)

-- ============================================================================
-- One changed byte
-- ============================================================================

/-- Offsets of the key_length and value_length fields within a record. -/
def IsLengthField (offset : Nat) : Prop := kKeyLengthOffset ≤ offset ∧ offset < kHeaderSize

instance (offset : Nat) : Decidable (IsLengthField offset) := by
  unfold IsLengthField; infer_instance

theorem decodeHeader_fields {header : Bytes} {decoded : DecodedHeader}
    (h : decodeHeader header = .ok decoded) :
    decoded.storedChecksum = decodeFixed32 header ∧
    decoded.keyLength = decodeFixed32 (header.drop kKeyLengthOffset) ∧
    decoded.valueLength = decodeFixed32 (header.drop kValueLengthOffset) := by
  unfold decodeHeader at h
  split at h
  · cases h
  · split at h
    · cases h
    · dsimp only at h
      split at h
      · cases h
      · split at h
        · cases h
        · cases h
          exact ⟨rfl, rfl, rfl⟩

theorem bodyChecksum_eq {header payload : Bytes} (hlen : header.length = kHeaderSize) :
    bodyChecksum header payload = crc32c ((header ++ payload).drop kMagicOffset) := by
  have hoff : kMagicOffset ≤ header.length := by rw [hlen]; decide
  have htake : (header.drop kMagicOffset).take (kHeaderSize - kMagicOffset) =
      header.drop kMagicOffset := by
    rw [List.take_of_length_le]
    rw [List.length_drop, hlen]
  rw [bodyChecksum, htake, List.drop_append_of_le_length hoff, crc32c, crc32c,
    extendCrc32c_append]

section Changed

variable {record : Record} {pos : Nat} {t : Bytes} {decoded : DecodedHeader}

/-- The checksum of a record with one byte changed is not the one it stores. -/
theorem bodyChecksum_changed (h : ChangedAt pos (encodeRecord record) t)
    (hd : decodeHeader (t.take kHeaderSize) = .ok decoded) :
    bodyChecksum (t.take kHeaderSize) (t.drop kHeaderSize) ≠ decoded.storedChecksum := by
  have hlen : kHeaderSize ≤ t.length := by
    rw [h.length_eq, encodeRecord_length]
    exact Nat.le_add_right _ _
  have hhead : (t.take kHeaderSize).length = kHeaderSize := by
    rw [List.length_take]
    omega
  have hsum : crc32c ((encodeRecord record).drop 4) = decodeFixed32 (encodeRecord record) :=
    (decodeFixed32_putFixed32 _ _).symm
  have hfour : 4 ≤ (encodeRecord record).length := by
    rw [← h.length_eq]
    exact Nat.le_trans (by decide) hlen
  have hstored : decodeFixed32 (t.take kHeaderSize) = decodeFixed32 t := by
    rw [← decodeFixed32_append (t.take kHeaderSize) (t.drop kHeaderSize) (by rw [hhead]; decide),
      List.take_append_drop]
  rw [bodyChecksum_eq hhead, List.take_append_drop, (decodeHeader_fields hd).1, hstored]
  exact h.front_ne hfour hsum

/-- A change outside the length fields leaves the declared payload as long as it was. -/
theorem payloadLength_changed (hfits : record.Fits) (h : ChangedAt pos (encodeRecord record) t)
    (hfield : ¬ IsLengthField pos) (hd : decodeHeader (t.take kHeaderSize) = .ok decoded) :
    decoded.payloadLength = (encodePayload record).length := by
  have hhead : (encodeRecord record).take kHeaderSize = encodeHeader record := by
    rw [encodeRecord_eq, take_encodeHeader]
  have hkeyField : (t.take kHeaderSize).drop kKeyLengthOffset =
      (encodeHeader record).drop kKeyLengthOffset := by
    rw [← hhead]
    rcases Nat.lt_or_ge pos kKeyLengthOffset with hlt | hge
    · rw [List.drop_take, List.drop_take, h.drop_eq hlt]
    · have hafter : kHeaderSize ≤ pos := by
        by_contra hin
        exact hfield ⟨hge, Nat.not_le.mp hin⟩
      rw [h.take_eq hafter]
  have hvalueField : (t.take kHeaderSize).drop kValueLengthOffset =
      (encodeHeader record).drop kValueLengthOffset := by
    have hdrop := congrArg (List.drop 4) hkeyField
    rwa [List.drop_drop, List.drop_drop] at hdrop
  obtain ⟨-, hkey, hvalue⟩ := decodeHeader_fields hd
  obtain ⟨-, hkey', hvalue'⟩ := decodeHeader_fields (decodeHeader_encodeHeader hfits)
  rw [← hfits.payloadLength, DecodedHeader.payloadLength, DecodedHeader.payloadLength, hkey,
    hvalue, hkey', hvalue', hkeyField, hvalueField]

/-- Where the checksums differ the body does not decode. -/
theorem decodeBody_ne_ok {header payload : Bytes}
    (h : bodyChecksum header payload ≠ decoded.storedChecksum) (record : Record) :
    decodeBody decoded header payload ≠ .ok record := by
  rw [decodeBody, if_pos h]
  split <;> simp

end Changed

/-- A changed byte outside the length fields is always found. -/
theorem refused_set {record : Record} (hfits : record.Fits) {offset : Nat} {c : UInt8}
    (hoff : offset < (encodeRecord record).length) (hc : c ≠ (encodeRecord record)[offset])
    (hfield : ¬ IsLengthField offset) (rest : Bytes) :
    Refused ((encodeRecord record).set offset c ++ rest) := by
  have hchanged := changedAt_set hoff hc
  generalize (encodeRecord record).set offset c = t at hchanged
  have hlen : t.length = kHeaderSize + (encodePayload record).length := by
    rw [hchanged.length_eq, encodeRecord_length]
  have htake : (t ++ rest).take kHeaderSize = t.take kHeaderSize := by
    rw [List.take_append_of_le_length]
    omega
  cases hd : decodeHeader ((t ++ rest).take kHeaderSize) with
  | error status => exact .header (by rw [List.length_append]; omega) hd
  | ok decoded =>
      rw [htake] at hd
      have hplen := payloadLength_changed hfits hchanged hfield hd
      have hpayload : ((t ++ rest).drop kHeaderSize).take decoded.payloadLength =
          t.drop kHeaderSize := by
        have hdl : (t.drop kHeaderSize).length = (encodePayload record).length := by
          rw [List.length_drop]
          omega
        rw [List.drop_append_of_le_length (by omega), hplen, ← hdl, List.take_left]
      have hrefused := decodeBody_ne_ok (bodyChecksum_changed hchanged hd)
      cases hb : decodeBody decoded (t.take kHeaderSize) (t.drop kHeaderSize) with
      | ok r => exact absurd hb (hrefused r)
      | error status =>
          have hroom : kHeaderSize + decoded.payloadLength ≤ (t ++ rest).length := by
            rw [hplen, List.length_append]
            omega
          exact .body (by rw [htake]; exact hd) hroom (by rw [htake, hpayload]; exact hb)

-- ============================================================================
-- The whole log
-- ============================================================================

/-- Where the record that holds byte `pos` of the log starts. -/
def recordStart : List Record → Nat → Nat
  | [], _ => 0
  | x :: xs, pos =>
    if pos < (encodeRecord x).length then 0
    else (encodeRecord x).length + recordStart xs (pos - (encodeRecord x).length)

/-- The log with byte `pos` replaced by `c`. -/
def damage (records : List Record) (pos : Nat) (c : UInt8) : Bytes :=
  (encodeRecords records).set pos c

/-- The change is in a length field, the header still decodes, and the payload it
    now declares either runs past the end of the file or carries the stored
    checksum, with no refused record after it. -/
def LengthHidden (records : List Record) (pos : Nat) (c : UInt8) : Prop :=
  let rest := (damage records pos c).drop (recordStart records pos)
  IsLengthField (pos - recordStart records pos) ∧
  ∃ decoded, decodeHeader (rest.take kHeaderSize) = .ok decoded ∧
    (rest.length < kHeaderSize + decoded.payloadLength ∨
      ∃ record, decodeBody decoded (rest.take kHeaderSize)
          ((rest.drop kHeaderSize).take decoded.payloadLength) = .ok record ∧
        ¬ Refused (rest.drop (kHeaderSize + decoded.payloadLength)))

/-- The records before the damaged one, the damaged one, and those after it. -/
theorem damage_split (records : List Record) {pos : Nat}
    (hpos : pos < (encodeRecords records).length) (c : UInt8) :
    ∃ before x after, records = before ++ x :: after ∧
      recordStart records pos = (encodeRecords before).length ∧
      ∃ hoff : pos - recordStart records pos < (encodeRecord x).length,
        (encodeRecord x)[pos - recordStart records pos] = (encodeRecords records)[pos] ∧
        damage records pos c = encodeRecords before ++
          ((encodeRecord x).set (pos - recordStart records pos) c ++ encodeRecords after) := by
  induction records generalizing pos with
  | nil => exact absurd hpos (Nat.not_lt_zero _)
  | cons x xs ih =>
      by_cases hlt : pos < (encodeRecord x).length
      · have hstart : recordStart (x :: xs) pos = 0 := by simp only [recordStart, if_pos hlt]
        refine ⟨[], x, xs, rfl, hstart, by rwa [hstart], ?_, ?_⟩
        · simp only [hstart, Nat.sub_zero, encodeRecords_cons]
          rw [List.getElem_append_left hlt]
        · simp only [hstart, Nat.sub_zero, damage, encodeRecords_cons, encodeRecords_nil,
            List.nil_append]
          rw [List.set_append_left _ _ hlt]
      · have hge := Nat.not_lt.mp hlt
        have hpos' : pos - (encodeRecord x).length < (encodeRecords xs).length := by
          rw [encodeRecords_cons, List.length_append] at hpos
          omega
        obtain ⟨before, y, after, hsplit, hstart, hoff, hget, hdamage⟩ := ih hpos'
        have hstart' : recordStart (x :: xs) pos =
            (encodeRecord x).length + recordStart xs (pos - (encodeRecord x).length) := by
          simp only [recordStart, if_neg hlt]
        have hsub : pos - recordStart (x :: xs) pos =
            pos - (encodeRecord x).length - recordStart xs (pos - (encodeRecord x).length) := by
          rw [hstart', Nat.sub_add_eq]
        refine ⟨x :: before, y, after, by rw [hsplit]; rfl, ?_, by rwa [hsub], ?_, ?_⟩
        · rw [hstart', hstart, encodeRecords_cons, List.length_append]
        · simp only [hsub, hget, encodeRecords_cons]
          rw [List.getElem_append_right hge]
        · simp only [hsub, damage, encodeRecords_cons, List.append_assoc] at hdamage ⊢
          rw [List.set_append_right _ _ hge, hdamage]

/-- A complete log with one byte changed replays as damaged exactly when the
    change is not hidden by a length field. -/
theorem replay_damage_iff (records : List Record) (hfits : ∀ x ∈ records, x.Fits) {pos : Nat}
    (hpos : pos < (encodeRecords records).length) {c : UInt8}
    (hc : c ≠ (encodeRecords records)[pos]) :
    (Reader.replay (Reader.start (damage records pos c))).terminal.IsDamage ↔
      ¬ LengthHidden records pos c := by
  obtain ⟨before, x, after, hsplit, hstart, hoff, hget, hdamage⟩ := damage_split records hpos c
  have hx : x.Fits := hfits x (by rw [hsplit]; simp)
  have hbefore : ∀ y ∈ before, y.Fits := fun y hy => hfits y (by rw [hsplit]; simp [hy])
  have hrest : (damage records pos c).drop (recordStart records pos) =
      (encodeRecord x).set (pos - recordStart records pos) c ++ encodeRecords after := by
    rw [hdamage, hstart, List.drop_left]
  have hrefused : Refused (damage records pos c) ↔
      Refused ((damage records pos c).drop (recordStart records pos)) := by
    rw [hrest, hdamage, refused_encodeRecords before hbefore]
  rw [replay_isDamage_iff rfl]
  show Refused (damage records pos c) ↔ _
  rw [hrefused]
  unfold LengthHidden
  by_cases hfield : IsLengthField (pos - recordStart records pos)
  · constructor
    · rintro h ⟨-, decoded, hd, hshort | ⟨record, hb, hnot⟩⟩
      · exact absurd (refused_header_ok hd h).1 (Nat.not_le.mpr hshort)
      · exact hnot ((refused_header_ok hd h).2 record hb)
    · intro hnot
      cases hd : decodeHeader (((damage records pos c).drop (recordStart records pos)).take
          kHeaderSize) with
      | error status =>
          refine .header ?_ hd
          rw [hrest, List.length_append, List.length_set, encodeRecord_length]
          omega
      | ok decoded =>
          have hlen : kHeaderSize + decoded.payloadLength ≤
              ((damage records pos c).drop (recordStart records pos)).length := by
            by_contra hlt
            exact hnot ⟨hfield, decoded, hd, Or.inl (Nat.not_le.mp hlt)⟩
          cases hb : decodeBody decoded
              (((damage records pos c).drop (recordStart records pos)).take kHeaderSize)
              ((((damage records pos c).drop (recordStart records pos)).drop kHeaderSize).take
                decoded.payloadLength) with
          | error status => exact .body hd hlen hb
          | ok record =>
              refine .later hd hlen hb ?_
              by_contra hnr
              exact hnot ⟨hfield, decoded, hd, Or.inr ⟨record, hb, hnr⟩⟩
  · refine ⟨fun _ h => hfield h.1, fun _ => ?_⟩
    rw [hrest]
    exact refused_set hx hoff (by rw [hget]; exact hc) hfield _

/-- A Put of one key byte and one value byte whose key_length byte changes from 1
    to 200: the payload would run past the end of the file, and the damage is
    taken for a torn tail. -/
theorem damage_length_truncated :
    ¬ ∀ records : List Record, records ≠ [] → (∀ x ∈ records, x.Fits) →
      ∀ (pos : Nat) (hpos : pos < (encodeRecords records).length) (c : UInt8),
        c ≠ (encodeRecords records)[pos] →
          (Reader.replay (Reader.start (damage records pos c))).terminal.IsDamage := by
  intro h
  have hdamage := h [⟨1, .kPut, [107], [118]⟩] (by decide) (by decide) 18 (by decide) 200
    (by decide +kernel)
  exact absurd hdamage (by decide +kernel)

/-- A change of the value byte of the same record is found. -/
theorem replay_damage_value :
    (Reader.replay (Reader.start (damage [⟨1, .kPut, [107], [118]⟩] 27 119))).terminal.IsDamage :=
  (replay_damage_iff [⟨1, .kPut, [107], [118]⟩] (by decide) (by decide)
    (by decide +kernel)).mpr fun h => absurd h.1 (by decide)

end PassionProjects.PebbleDB.Wal
