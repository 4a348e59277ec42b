/-
  PassionProjects.PebbleDB.Wal.Reader

  The sequential WAL reader (`wal/reader.cpp`) and what it makes of a log that
  was cut off anywhere.

  `readNext_*` say what one call does for each shape of the unread bytes;
  `replay_encodeRecords` carries that over a whole log with any tail, and the
  truncation theorem at the end is the case of a tail that was cut out of the
  next record.
-/

import PassionProjects.PebbleDB.Wal.Record

namespace PassionProjects.PebbleDB.Wal

/-- `ReadResult`; `kOk` carries the record it decoded. -/
inductive ReadResult where
  | kOk (record : Record)
  | kEndOfLog
  | kTruncated
  | kCorruption
  | kUnsupportedVersion
  deriving DecidableEq, Repr

/-- `wal::Reader`: the bytes of the file it has not read yet, and its members. -/
structure Reader where
  unread : Bytes
  exhausted : Bool
  terminalResult : ReadResult
  bytesConsumed : Nat
  deriving DecidableEq, Repr

namespace Reader

/-- A reader at the start of a file. -/
def start (file : Bytes) : Reader := ⟨file, false, .kEndOfLog, 0⟩

/-- `valid_prefix_length()`. -/
def validPrefixLength (r : Reader) : Nat := r.bytesConsumed

/-- Every way `ReadNext` ends the log. -/
def stop (r : Reader) (result : ReadResult) : ReadResult × Reader :=
  (result, { r with exhausted := true, terminalResult := result })

/-- `ReadNext`. -/
def readNext (r : Reader) : ReadResult × Reader :=
  if r.exhausted then (r.terminalResult, r)
  else
    let headerBuf := r.unread.take kHeaderSize
    let r := { r with unread := r.unread.drop kHeaderSize }
    if headerBuf.isEmpty then r.stop .kEndOfLog
    else if headerBuf.length < kHeaderSize then r.stop .kTruncated
    else
      match decodeHeader headerBuf with
      | .error .kUnsupportedVersion => r.stop .kUnsupportedVersion
      | .error _ => r.stop .kCorruption
      | .ok decoded =>
        let payloadBuf := r.unread.take decoded.payloadLength
        let r := { r with unread := r.unread.drop decoded.payloadLength }
        if payloadBuf.length < decoded.payloadLength then r.stop .kTruncated
        else
          match decodeBody decoded headerBuf payloadBuf with
          | .error _ => r.stop .kCorruption
          | .ok record =>
            (.kOk record,
              { r with bytesConsumed := r.bytesConsumed + (kHeaderSize + decoded.payloadLength) })

/-- What `Replay` hands out and ends with. -/
structure ReplayResult where
  records : List Record
  terminal : ReadResult
  reader : Reader
  deriving DecidableEq, Repr

/-- The loop of `Replay`.  Every turn that goes on reads a header, so the length
    of the file bounds the turns (`replayLoop_succ`). -/
def replayLoop : Nat → Reader → ReplayResult
  | 0, r => ⟨[], .kEndOfLog, r⟩
  | fuel + 1, r =>
    match readNext r with
    | (.kOk record, r') =>
      let rest := replayLoop fuel r'
      { rest with records := record :: rest.records }
    | (terminal, r') => ⟨[], terminal, r'⟩

/-- `Replay`: the records it passes to `on_record`, its terminal result, and the
    reader it leaves. -/
def replay (r : Reader) : ReplayResult := replayLoop (r.unread.length + 1) r

-- ============================================================================
-- One call of ReadNext
-- ============================================================================

variable {r : Reader}

/-- A record that is fully there is returned, and the next call starts after it. -/
theorem readNext_record (he : r.exhausted = false) {record : Record} (hfits : record.Fits)
    (rest : Bytes) (hr : r.unread = encodeRecord record ++ rest) :
    readNext r = (.kOk record.stored, { r with
      unread := rest
      bytesConsumed := r.bytesConsumed + (encodeRecord record).length }) := by
  have htake : r.unread.take kHeaderSize = encodeHeader record := by
    rw [hr, encodeRecord_eq, List.append_assoc, take_encodeHeader]
  have hdrop : r.unread.drop kHeaderSize = encodePayload record ++ rest := by
    rw [hr, encodeRecord_eq, List.append_assoc, drop_encodeHeader]
  have hempty : (encodeHeader record).isEmpty = false := rfl
  have hlen : ¬ (encodeHeader record).length < kHeaderSize := by simp
  have hpayload : (encodePayload record ++ rest).take (headerOf record).payloadLength =
      encodePayload record := by rw [hfits.payloadLength, List.take_left]
  have hrest : (encodePayload record ++ rest).drop (headerOf record).payloadLength = rest := by
    rw [hfits.payloadLength, List.drop_left]
  have hshort : ¬ (encodePayload record).length < (headerOf record).payloadLength := by
    rw [hfits.payloadLength]
    exact Nat.lt_irrefl _
  simp only [readNext, he, Bool.false_eq_true, if_false, htake, hdrop, hempty, if_neg hlen,
    decodeHeader_encodeHeader hfits, hpayload, hrest, if_neg hshort, decodeBody_encode hfits]
  rw [hfits.payloadLength, encodeRecord_length]

/-- At the end of the file the log ends cleanly. -/
theorem readNext_nil (he : r.exhausted = false) (hr : r.unread = []) :
    readNext r = r.stop .kEndOfLog := by
  obtain ⟨unread, exhausted, terminal, consumed⟩ := r
  subst hr he
  rfl

/-- Part of a header is a torn record. -/
theorem readNext_shortHeader (he : r.exhausted = false) (hpos : r.unread ≠ [])
    (hshort : r.unread.length < kHeaderSize) :
    (readNext r).1 = .kTruncated ∧ (readNext r).2.bytesConsumed = r.bytesConsumed := by
  have htake : r.unread.take kHeaderSize = r.unread := List.take_of_length_le (Nat.le_of_lt hshort)
  have hempty : r.unread.isEmpty = false := by simpa using hpos
  simp [readNext, he, htake, hempty, hshort, stop]

/-- A header that does not decode ends the log as damaged. -/
theorem readNext_badHeader (he : r.exhausted = false) (hlen : kHeaderSize ≤ r.unread.length)
    {status : DecodeStatus} (hd : decodeHeader (r.unread.take kHeaderSize) = .error status) :
    (readNext r).1 = .kCorruption ∨ (readNext r).1 = .kUnsupportedVersion := by
  have htake : (r.unread.take kHeaderSize).length = kHeaderSize := by simpa using hlen
  have hempty : (r.unread.take kHeaderSize).isEmpty = false := by
    rw [List.isEmpty_eq_false_iff_exists_mem]
    exact List.exists_mem_of_length_pos (by rw [htake]; decide)
  have hshort : ¬ (r.unread.take kHeaderSize).length < kHeaderSize := by omega
  simp only [readNext, he, Bool.false_eq_true, if_false, hempty, if_neg hshort, hd]
  cases status <;> simp [stop]

/-- A header that decodes, with too few bytes after it, is a torn record. -/
theorem readNext_shortPayload (he : r.exhausted = false) (hlen : kHeaderSize ≤ r.unread.length)
    {decoded : DecodedHeader} (hd : decodeHeader (r.unread.take kHeaderSize) = .ok decoded)
    (hshort : r.unread.length < kHeaderSize + decoded.payloadLength) :
    (readNext r).1 = .kTruncated ∧ (readNext r).2.bytesConsumed = r.bytesConsumed := by
  have htake : (r.unread.take kHeaderSize).length = kHeaderSize := by simpa using hlen
  have hempty : (r.unread.take kHeaderSize).isEmpty = false := by
    rw [List.isEmpty_eq_false_iff_exists_mem]
    exact List.exists_mem_of_length_pos (by rw [htake]; decide)
  have hnshort : ¬ (r.unread.take kHeaderSize).length < kHeaderSize := by omega
  have hp : ((r.unread.drop kHeaderSize).take decoded.payloadLength).length <
      decoded.payloadLength := by simp; omega
  simp only [readNext, he, Bool.false_eq_true, if_false, hempty, if_neg hnshort, hd, if_pos hp,
    stop, and_self]

/-- A header that decodes, with its payload after it: what `DecodeBody` says
    decides. -/
theorem readNext_body (he : r.exhausted = false)
    {decoded : DecodedHeader} (hd : decodeHeader (r.unread.take kHeaderSize) = .ok decoded)
    (hlen : kHeaderSize + decoded.payloadLength ≤ r.unread.length) :
    readNext r =
      match decodeBody decoded (r.unread.take kHeaderSize)
          ((r.unread.drop kHeaderSize).take decoded.payloadLength) with
      | .error _ => Reader.stop { r with
          unread := r.unread.drop (kHeaderSize + decoded.payloadLength) } .kCorruption
      | .ok record => (.kOk record, { r with
          unread := r.unread.drop (kHeaderSize + decoded.payloadLength)
          bytesConsumed := r.bytesConsumed + (kHeaderSize + decoded.payloadLength) }) := by
  have htake : (r.unread.take kHeaderSize).length = kHeaderSize := by simp; omega
  have hempty : (r.unread.take kHeaderSize).isEmpty = false := by
    rw [List.isEmpty_eq_false_iff_exists_mem]
    exact List.exists_mem_of_length_pos (by rw [htake]; decide)
  have hnshort : ¬ (r.unread.take kHeaderSize).length < kHeaderSize := by omega
  have hp : ¬ ((r.unread.drop kHeaderSize).take decoded.payloadLength).length <
      decoded.payloadLength := by simp; omega
  simp only [readNext, he, Bool.false_eq_true, if_false, hempty, if_neg hnshort, hd, if_neg hp,
    List.drop_drop]

/-- A call that returns a record has read a header from an open log. -/
theorem readNext_kOk {record : Record} {r' : Reader} (h : readNext r = (.kOk record, r'))
    (he : r.exhausted = false) :
    r'.unread.length + kHeaderSize ≤ r.unread.length ∧ r'.exhausted = false := by
  by_cases hlen : r.unread.length < kHeaderSize
  · by_cases hnil : r.unread = []
    · rw [readNext_nil he hnil] at h
      simp [stop] at h
    · have := (readNext_shortHeader he hnil hlen).1
      simp [h] at this
  · have hlen : kHeaderSize ≤ r.unread.length := Nat.not_lt.mp hlen
    cases hd : decodeHeader (r.unread.take kHeaderSize) with
    | error status =>
        have := readNext_badHeader he hlen hd
        simp [h] at this
    | ok decoded =>
        by_cases hshort : r.unread.length < kHeaderSize + decoded.payloadLength
        · have := (readNext_shortPayload he hlen hd hshort).1
          simp [h] at this
        · have hlen' := Nat.not_lt.mp hshort
          rw [readNext_body he hd hlen'] at h
          cases hb : decodeBody decoded (r.unread.take kHeaderSize)
              ((r.unread.drop kHeaderSize).take decoded.payloadLength) with
          | error status => simp [hb, stop] at h
          | ok record' =>
              simp only [hb, Prod.mk.injEq] at h
              obtain ⟨-, rfl⟩ := h
              refine ⟨?_, he⟩
              simp only [List.length_drop]
              omega

-- ============================================================================
-- The loop of Replay
-- ============================================================================

/-- More turns than the file can hold change nothing. -/
theorem replayLoop_fuel (r : Reader) (he : r.exhausted = false) {m n : Nat}
    (hm : r.unread.length < m) (hn : r.unread.length < n) : replayLoop m r = replayLoop n r := by
  induction m generalizing r n with
  | zero => exact absurd hm (Nat.not_lt_zero _)
  | succ m ih =>
      cases n with
      | zero => exact absurd hn (Nat.not_lt_zero _)
      | succ n =>
          cases hread : readNext r with
          | mk result r' =>
              cases result with
              | kOk record =>
                  obtain ⟨hlen, he'⟩ := readNext_kOk hread he
                  have hpos : 0 < kHeaderSize := by decide
                  simp only [replayLoop, hread, ih r' he' (n := n) (by omega) (by omega)]
              | _ => simp only [replayLoop, hread]

/-- `Replay` turn by turn. -/
theorem replay_kOk (he : r.exhausted = false) {record : Record} {r' : Reader}
    (h : readNext r = (.kOk record, r')) :
    replay r = { replay r' with records := record :: (replay r').records } := by
  obtain ⟨hlen, he'⟩ := readNext_kOk h he
  have hpos : 0 < kHeaderSize := by decide
  have hfuel : replayLoop r.unread.length r' = replay r' :=
    replayLoop_fuel r' he' (by omega) (Nat.lt_succ_self _)
  simp only [replay, replayLoop, h] at hfuel ⊢
  rw [hfuel]

theorem replay_stop {r' : Reader} {result : ReadResult} (h : readNext r = (result, r'))
    (hr : ∀ record, result ≠ .kOk record) : replay r = ⟨[], result, r'⟩ := by
  cases result with
  | kOk record => exact absurd rfl (hr record)
  | _ => simp only [replay, replayLoop, h]

theorem replay_truncated (h : (readNext r).1 = .kTruncated) :
    replay r = ⟨[], .kTruncated, (readNext r).2⟩ :=
  replay_stop (Prod.ext h rfl) (by simp)

/-- `Replay` of whole records followed by anything: the records come out first. -/
theorem replay_encodeRecords (records : List Record) (hfits : ∀ x ∈ records, x.Fits)
    (he : r.exhausted = false) {tail : Bytes} (hr : r.unread = encodeRecords records ++ tail) :
    ∃ r', r'.exhausted = false ∧ r'.unread = tail ∧
      r'.bytesConsumed = r.bytesConsumed + (encodeRecords records).length ∧
      replay r = { replay r' with
        records := records.map Record.stored ++ (replay r').records } := by
  induction records generalizing r with
  | nil => exact ⟨r, he, by simpa using hr, by simp, by simp⟩
  | cons x xs ih =>
      have hx := hfits x (List.mem_cons_self ..)
      have hread := readNext_record he hx (encodeRecords xs ++ tail)
        (by rw [hr, encodeRecords_cons, List.append_assoc])
      obtain ⟨r', he', hr', hc', hreplay⟩ := ih (r := { r with
          unread := encodeRecords xs ++ tail
          bytesConsumed := r.bytesConsumed + (encodeRecord x).length })
        (fun y hy => hfits y (List.mem_cons_of_mem _ hy)) he rfl
      refine ⟨r', he', hr', ?_, ?_⟩
      · rw [hc', encodeRecords_cons, List.length_append, Nat.add_assoc]
      · rw [replay_kOk he hread, hreplay]
        simp

-- ============================================================================
-- Torn tails
-- ============================================================================

/-- Bytes a crash can leave of an append: a proper part of one record. -/
def Torn (tail : Bytes) : Prop :=
  ∃ record : Record, record.Fits ∧ tail <+: encodeRecord record ∧
    tail.length < (encodeRecord record).length

/-- A torn record, or nothing at all, ends the log without a record. -/
theorem replay_tail {tail : Bytes} (he : r.exhausted = false) (hr : r.unread = tail)
    (ht : tail = [] ∨ Torn tail) :
    (replay r).records = [] ∧
    (replay r).terminal = (if tail = [] then .kEndOfLog else .kTruncated) ∧
    (replay r).reader.validPrefixLength = r.bytesConsumed := by
  subst hr
  by_cases hnil : r.unread = []
  · have hread := readNext_nil he hnil
    rw [replay_stop hread (by simp)]
    simp [hnil, validPrefixLength]
  · obtain ⟨record, hfits, hprefix, hlt⟩ := ht.resolve_left hnil
    have hread : (readNext r).1 = .kTruncated ∧
        (readNext r).2.bytesConsumed = r.bytesConsumed := by
      by_cases hlen : r.unread.length < kHeaderSize
      · exact readNext_shortHeader he hnil hlen
      · have hlen : kHeaderSize ≤ r.unread.length := Nat.not_lt.mp hlen
        have htake : r.unread.take kHeaderSize = encodeHeader record := by
          obtain ⟨rest, hrest⟩ := hprefix
          have hwhole := congrArg (List.take kHeaderSize) hrest
          rw [List.take_append_of_le_length hlen, encodeRecord_eq] at hwhole
          rw [hwhole, take_encodeHeader]
        refine readNext_shortPayload he hlen (htake ▸ decodeHeader_encodeHeader hfits) ?_
        rw [hfits.payloadLength, ← encodeRecord_length]
        exact hlt
    rw [replay_truncated hread.1]
    exact ⟨rfl, by simp [hnil], hread.2⟩

/-- `Replay` of a file of whole records and a torn tail. -/
theorem replay_start (records : List Record) (hfits : ∀ x ∈ records, x.Fits) {tail : Bytes}
    (ht : tail = [] ∨ Torn tail) :
    (replay (start (encodeRecords records ++ tail))).records = records.map Record.stored ∧
    (replay (start (encodeRecords records ++ tail))).terminal =
      (if tail = [] then .kEndOfLog else .kTruncated) ∧
    (replay (start (encodeRecords records ++ tail))).reader.validPrefixLength =
      (encodeRecords records).length := by
  obtain ⟨r', he', hr', hc', hreplay⟩ :=
    replay_encodeRecords (r := start (encodeRecords records ++ tail)) records hfits rfl rfl
  obtain ⟨hrecords, hterminal, hvalid⟩ := replay_tail he' hr' ht
  rw [hreplay]
  refine ⟨by simp [hrecords], hterminal, ?_⟩
  show (replay r').reader.validPrefixLength = _
  rw [hvalid, hc']
  simp [start]

/-- A file of records cut at any offset is some whole records, the ones that end
    at or before the cut, and a torn tail. -/
theorem take_encodeRecords (records : List Record) (hfits : ∀ x ∈ records, x.Fits) (cut : Nat)
    (hcut : cut ≤ (encodeRecords records).length) :
    ∃ n tail, n ≤ records.length ∧
      (encodeRecords records).take cut = encodeRecords (records.take n) ++ tail ∧
      (tail = [] ∨ Torn tail) ∧
      (n < records.length → cut < (encodeRecords (records.take (n + 1))).length) := by
  induction records generalizing cut with
  | nil => exact ⟨0, [], Nat.le_refl _, by simp, Or.inl rfl, by simp⟩
  | cons x xs ih =>
      rw [encodeRecords_cons] at hcut ⊢
      by_cases hx : (encodeRecord x).length ≤ cut
      · rw [List.length_append] at hcut
        obtain ⟨n, tail, hn, htake, htail, hmax⟩ :=
          ih (fun y hy => hfits y (List.mem_cons_of_mem _ hy)) (cut - (encodeRecord x).length)
            (by omega)
        refine ⟨n + 1, tail, Nat.succ_le_succ hn, ?_, htail, fun hlt => ?_⟩
        · rw [List.take_append, htake, List.take_of_length_le hx, List.take_succ_cons,
            encodeRecords_cons, List.append_assoc]
        · have := hmax (Nat.lt_of_succ_lt_succ hlt)
          rw [List.take_succ_cons, encodeRecords_cons, List.length_append]
          omega
      · have hlt : cut < (encodeRecord x).length := Nat.not_le.mp hx
        refine ⟨0, (encodeRecord x).take cut, Nat.zero_le _, ?_, Or.inr ⟨x, ?_, ?_, ?_⟩, ?_⟩
        · rw [List.take_append_of_le_length (Nat.le_of_lt hlt)]
          rfl
        · exact hfits x (List.mem_cons_self ..)
        · exact List.take_prefix _ _
        · rw [List.length_take]
          omega
        · simp only [List.take_succ_cons, List.take_zero, encodeRecords_cons, encodeRecords_nil,
            List.append_nil]
          exact fun _ => hlt

/-- Replay of any truncation of a log.  With `n` the number of records that lie
    wholly before the cut: those records come out in order (a Delete with an
    empty value), the log ends cleanly exactly when the cut is where record `n`
    ends, `valid_prefix_length()` is that offset, and a log truncated there and
    appended to replays as the surviving records followed by the new ones. -/
theorem replay_truncation (records : List Record) (hfits : ∀ x ∈ records, x.Fits) (cut : Nat)
    (hcut : cut ≤ (encodeRecords records).length) :
    ∃ n ≤ records.length,
      (encodeRecords (records.take n)).length ≤ cut ∧
      (n < records.length → cut < (encodeRecords (records.take (n + 1))).length) ∧
      let result := replay (start ((encodeRecords records).take cut))
      result.records = (records.take n).map Record.stored ∧
      result.terminal =
        (if cut = (encodeRecords (records.take n)).length then .kEndOfLog else .kTruncated) ∧
      result.reader.validPrefixLength = (encodeRecords (records.take n)).length ∧
      ∀ more : List Record, (∀ x ∈ more, x.Fits) →
        let reopened := replay (start
          (((encodeRecords records).take cut).take result.reader.validPrefixLength ++
            encodeRecords more))
        reopened.records = (records.take n ++ more).map Record.stored ∧
        reopened.terminal = .kEndOfLog := by
  obtain ⟨n, tail, hn, htake, htail, hmax⟩ := take_encodeRecords records hfits cut hcut
  have hfits_n : ∀ x ∈ records.take n, x.Fits := fun x hx => hfits x (List.mem_of_mem_take hx)
  have hlen : cut = (encodeRecords (records.take n)).length + tail.length := by
    have := congrArg List.length htake
    rw [List.length_take, List.length_append, Nat.min_eq_left hcut] at this
    exact this
  obtain ⟨hrecords, hterminal, hvalid⟩ := replay_start (records.take n) hfits_n htail
  rw [← htake] at hrecords hterminal hvalid
  refine ⟨n, hn, by omega, hmax, hrecords, ?_, hvalid, fun more hmore => ?_⟩
  · have hiff : cut = (encodeRecords (records.take n)).length ↔ tail = [] := by
      rw [← List.length_eq_zero_iff]
      omega
    simp only [hterminal, hiff]
  · have hkept : ((encodeRecords records).take cut).take
        (replay (start ((encodeRecords records).take cut))).reader.validPrefixLength =
        encodeRecords (records.take n) := by
      rw [hvalid, htake, List.take_left]
    have hall : ∀ x ∈ records.take n ++ more, x.Fits := fun x hx =>
      (List.mem_append.mp hx).elim (hfits_n x) (hmore x)
    have hfile : ((encodeRecords records).take cut).take
        (replay (start ((encodeRecords records).take cut))).reader.validPrefixLength ++
          encodeRecords more = encodeRecords (records.take n ++ more) ++ [] := by
      rw [hkept, encodeRecords_append, List.append_nil]
    obtain ⟨hrecords', hterminal', -⟩ :=
      replay_start (records.take n ++ more) hall (Or.inl (rfl : ([] : Bytes) = []))
    rw [← hfile] at hrecords' hterminal'
    exact ⟨hrecords', hterminal'⟩

/-- A Put and a Delete, cut inside the second record's header. -/
theorem replay_truncation_header :
    ∃ n ≤ 2, (replay (start ((encodeRecords
        [⟨1, .kPut, [107], [118]⟩, ⟨2, .kDelete, [107], [118]⟩]).take 40))).records =
      ([⟨1, .kPut, [107], [118]⟩, ⟨2, .kDelete, [107], [118]⟩].take n).map Record.stored :=
  have ⟨n, hn, _, _, hrecords, _⟩ := replay_truncation
    [⟨1, .kPut, [107], [118]⟩, ⟨2, .kDelete, [107], [118]⟩] (by decide) 40 (by decide)
  ⟨n, hn, hrecords⟩

end Reader

end PassionProjects.PebbleDB.Wal
