/-
  PassionProjects.ReleaseGuard.Audit.Jsonl

  The audit log (`audit/jsonl.go`): one JSON object per line, appended to a file that
  outlives the controller, and read back as a whole.

  `encoding/json` is a parameter, and so is the `Event` that only it looks into.
-/

import Mathlib.Data.List.Basic
import PassionProjects.Lib.Lines
import PassionProjects.Lib.Transition
import PassionProjects.ReleaseGuard.Rollout.Machine

namespace PassionProjects.ReleaseGuard.Audit

open Lines Transition

variable {E : Type}

def newline : UInt8 := 0x0a

def carriageReturn : UInt8 := 0x0d

/-- The last argument of `scanner.Buffer`. -/
def maxTokenSize : Nat := 1024 * 1024

/-- `json.Marshal` and `json.Unmarshal` for the type `Event`. -/
structure Json (E : Type) where
  marshal : E → Option (List UInt8)
  unmarshal : List UInt8 → Option E

/-- What the log relies on: an encoding reads back, no part of one does, and it is one
    line of text, for `Marshal` writes no white space and escapes control characters. -/
structure Json.Lawful (json : Json E) : Prop where
  undoes : ∀ e b, json.marshal e = some b → json.unmarshal b = some e
  rejects : ∀ e b n, json.marshal e = some b → n < b.length → json.unmarshal (b.take n) = none
  nonempty : ∀ e b, json.marshal e = some b → b ≠ []
  compact : ∀ e b, json.marshal e = some b → newline ∉ b ∧ carriageReturn ∉ b

-- ============================================================================
-- Record
-- ============================================================================

inductive RecordError where
  | marshal
  | write
  | fsync
  deriving DecidableEq

/-- What the file system does to a `Record`: all of it succeeds, `Write` fails after some
    of its bytes, or `Sync` fails. -/
inductive Disk where
  | sound
  | writeFails (n : Nat)
  | syncFails
  deriving DecidableEq

/-- `Record`, with the bytes that it appends to the file. -/
def Json.record (json : Json E) (e : E) (disk : Disk) :
    Except RecordError Unit × List UInt8 :=
  match json.marshal e with
  | none => (.error .marshal, [])
  | some b =>
      let b := b ++ [newline]
      match disk with
      | .writeFails n => (.error .write, b.take n)
      | .syncFails => (.error .fsync, b)
      | .sound => (.ok (), b)

/-- What a crash in `Record` leaves when `n` bytes had reached the file. -/
def Json.torn (json : Json E) (e : E) (n : Nat) : List UInt8 :=
  match json.marshal e with
  | none => []
  | some b => (b ++ [newline]).take n

-- ============================================================================
-- ReadJSONL
-- ============================================================================

inductive ReadError where
  | open
  | tooLong
  deriving DecidableEq

/-- `bufio.ScanLines` drops one carriage return at the end of a line. -/
def dropCR (line : List UInt8) : List UInt8 :=
  if line.getLast? = some carriageReturn then line.dropLast else line

/-- The loop of `ReadJSONL` over the lines of the file. The scanner's buffer has to hold a
    line with its newline, or with the end of the file behind it. -/
def Json.scan (json : Json E) : List (List UInt8) → List E → Except ReadError (List E)
  | [], events => .ok events
  | line :: rest, events =>
      if maxTokenSize ≤ line.length then .error .tooLong
      else
        let line := dropCR line
        if line.length = 0 then json.scan rest events
        else match json.unmarshal line with
          | none => json.scan rest events
          | some e => json.scan rest (events ++ [e])

/-- `ReadJSONL` -/
def Json.readJSONL (json : Json E) (file : Option (List UInt8)) : Except ReadError (List E) :=
  match file with
  | none => .error .open
  | some contents => json.scan (lines newline contents) []

/-- `NewJSONLLogger`: what is in the file that it opens. -/
def newJSONLLogger (file : Option (List UInt8)) : List UInt8 := file.getD []

-- ============================================================================
-- The history of a file
-- ============================================================================

/-- What happens to an audit file. -/
inductive Happening (E : Type) where
  | opens
  | records (e : E) (disk : Disk)
  | crashes (e : E) (n : Nat)

/-- One controller: its `Record` calls, and the one it crashed in, if it did, with how
    many bytes of that one are left. -/
structure Lifetime (E : Type) where
  records : List (E × Disk)
  crash : Option (E × Nat)

def Lifetime.happenings (l : Lifetime E) : List (Happening E) :=
  .opens :: l.records.map (fun r => .records r.1 r.2) ++
    l.crash.toList.map fun c => .crashes c.1 c.2

/-- An audit file, the events that were passed to `Record`, and those of them for which
    it returned nil. -/
structure History (E : Type) where
  file : Option (List UInt8) := none
  passed : List E := []
  recorded : List E := []

/-- What is in the file. -/
def History.contents (h : History E) : List UInt8 := newJSONLLogger h.file

/-- What is appended to the file. -/
def Happening.appended (json : Json E) : Happening E → List UInt8
  | .opens => []
  | .records e disk => (json.record e disk).2
  | .crashes e n => json.torn e n

def Happening.passed : Happening E → List E
  | .opens => []
  | .records e _ => [e]
  | .crashes e _ => [e]

def Happening.recorded (json : Json E) : Happening E → List E
  | .opens => []
  | .records e disk =>
      match (json.record e disk).1 with
      | .ok () => [e]
      | .error _ => []
  | .crashes _ _ => []

def History.after (json : Json E) (h : History E) (happening : Happening E) : History E where
  file := some (h.contents ++ happening.appended json)
  passed := h.passed ++ happening.passed
  recorded := h.recorded ++ happening.recorded json

def History.of (json : Json E) (lifetimes : List (Lifetime E)) : History E :=
  (lifetimes.flatMap Lifetime.happenings).foldl (History.after json) {}

-- ============================================================================
-- What is read back
-- ============================================================================

/-- The event on a line, if it has one. -/
def Json.parse (json : Json E) (line : List UInt8) : Option E :=
  if (dropCR line).length = 0 then none else json.unmarshal (dropCR line)

/-- The events in the contents of a file. -/
def Json.events (json : Json E) (contents : List UInt8) : List E :=
  (lines newline contents).filterMap json.parse

variable {json : Json E}

theorem scan_of_short {ls : List (List UInt8)} (h : ∀ line ∈ ls, line.length < maxTokenSize)
    (events : List E) : json.scan ls events = .ok (events ++ ls.filterMap json.parse) := by
  induction ls generalizing events with
  | nil => simp [Json.scan]
  | cons line rest ih =>
      have hline : ¬ maxTokenSize ≤ line.length := Nat.not_le.mpr (h line (by simp))
      have hrest := ih fun l hl => h l (List.mem_cons_of_mem _ hl)
      rw [Json.scan, if_neg hline]
      by_cases hempty : (dropCR line).length = 0
      · simp only [hempty, ↓reduceIte, Json.parse, List.filterMap_cons, hrest]
      · cases hparse : json.unmarshal (dropCR line) with
        | none => simp only [hempty, ↓reduceIte, Json.parse, List.filterMap_cons, hparse, hrest]
        | some e =>
            simp only [hempty, ↓reduceIte, Json.parse, List.filterMap_cons, hparse, hrest,
              List.append_assoc, List.singleton_append]

theorem scan_of_long {ls : List (List UInt8)} (h : ∃ line ∈ ls, maxTokenSize ≤ line.length)
    (events : List E) : json.scan ls events = .error .tooLong := by
  induction ls generalizing events with
  | nil => simp at h
  | cons line rest ih =>
      rw [Json.scan]
      by_cases hline : maxTokenSize ≤ line.length
      · rw [if_pos hline]
      · have hrest : ∃ l ∈ rest, maxTokenSize ≤ l.length := by
          obtain ⟨l, hl, hlong⟩ := h
          rcases List.mem_cons.mp hl with rfl | hl
          · exact absurd hlong hline
          · exact ⟨l, hl, hlong⟩
        simp only [if_neg hline]
        split
        · exact ih hrest _
        · split
          · exact ih hrest _
          · exact ih hrest _

/-- A file is read if and only if the scanner's buffer holds each of its lines. -/
theorem readJSONL_eq_ok_iff {contents : List UInt8} {events : List E} :
    json.readJSONL (some contents) = .ok events ↔
      (∀ line ∈ lines newline contents, line.length < maxTokenSize) ∧
        json.events contents = events := by
  unfold Json.readJSONL Json.events
  by_cases hshort : ∀ line ∈ lines newline contents, line.length < maxTokenSize
  · simp only [scan_of_short hshort, List.nil_append, Except.ok.injEq]
    exact ⟨fun h => ⟨hshort, h⟩, And.right⟩
  · have hlong : ∃ line ∈ lines newline contents, maxTokenSize ≤ line.length := by
      simpa using hshort
    simp only [scan_of_long hlong, hshort, false_and, iff_false]
    exact nofun

theorem dropCR_of_not_mem {line : List UInt8} (h : carriageReturn ∉ line) :
    dropCR line = line :=
  if_neg fun hlast => h (List.mem_of_getLast? hlast)

theorem parse_of_not_mem {line : List UInt8} (h : carriageReturn ∉ line) (hne : line ≠ []) :
    json.parse line = json.unmarshal line := by
  rw [Json.parse, dropCR_of_not_mem h, if_neg (by simpa using hne)]

/-- A part of a line has the event if only its newline is missing. -/
theorem Json.Lawful.events_take (hjson : json.Lawful) {e : E} {b : List UInt8}
    (h : json.marshal e = some b) (n : Nat) :
    json.events ((b ++ [newline]).take n) = if b.length ≤ n then [e] else [] := by
  obtain ⟨hnewline, hreturn⟩ := hjson.compact e b h
  have hne := hjson.nonempty e b h
  have hparse : json.parse b = some e := by
    rw [parse_of_not_mem hreturn hne, hjson.undoes e b h]
  rcases Nat.lt_trichotomy n b.length with hn | rfl | hn
  · rw [if_neg (Nat.not_le.mpr hn), List.take_append_of_le_length (Nat.le_of_lt hn)]
    by_cases hempty : b.take n = []
    · rw [hempty]
      rfl
    · have hnewline' : newline ∉ b.take n := fun hmem => hnewline (List.mem_of_mem_take hmem)
      have hreturn' : carriageReturn ∉ b.take n := fun hmem =>
        hreturn (List.mem_of_mem_take hmem)
      rw [Json.events, lines_of_not_mem hnewline' hempty]
      simp only [List.filterMap_cons, parse_of_not_mem hreturn' hempty,
        hjson.rejects e b n h hn, List.filterMap_nil]
  · rw [if_pos (Nat.le_refl _), List.take_left, Json.events, lines_of_not_mem hnewline hne]
    simp only [List.filterMap_cons, hparse, List.filterMap_nil]
  · have hall : (b ++ [newline]).take n = b ++ [newline] :=
      List.take_of_length_le (by simpa using Nat.succ_le_of_lt hn)
    rw [if_pos (Nat.le_of_lt hn), hall, Json.events, lines_append_newline hnewline]
    simp only [lines_nil, List.filterMap_cons, hparse, List.filterMap_nil]

-- ============================================================================
-- What a history keeps
-- ============================================================================

/-- The bytes of one happening hold the event that it recorded, and no event that was not
    passed. -/
theorem Json.Lawful.appended (hjson : json.Lawful) (happening : Happening E) :
    (happening.recorded json).Sublist (json.events (happening.appended json)) ∧
      (json.events (happening.appended json)).Sublist happening.passed := by
  have hnil : json.events [] = [] := rfl
  cases happening with
  | opens => exact ⟨.slnil, .slnil⟩
  | records e disk =>
      cases hmarshal : json.marshal e with
      | none =>
          simp only [Happening.recorded, Happening.appended, Json.record, hmarshal, hnil]
          exact ⟨.slnil, List.nil_sublist _⟩
      | some b =>
          have hevents := hjson.events_take hmarshal
          have hwhole : json.events (b ++ [newline]) = [e] := by
            have hall := hevents (b ++ [newline]).length
            rwa [List.take_length, if_pos (by simp)] at hall
          simp only [Happening.recorded, Happening.appended, Happening.passed, Json.record,
            hmarshal]
          cases disk with
          | sound => exact ⟨by simp [hwhole], by simp [hwhole]⟩
          | syncFails => exact ⟨List.nil_sublist _, by simp [hwhole]⟩
          | writeFails n =>
              refine ⟨List.nil_sublist _, ?_⟩
              simp only [hevents]
              split <;> simp
  | crashes e n =>
      refine ⟨List.nil_sublist _, ?_⟩
      simp only [Happening.appended, Happening.passed, Json.torn]
      cases hmarshal : json.marshal e with
      | none => exact List.nil_sublist _
      | some b =>
          simp only [hjson.events_take hmarshal]
          split <;> simp

/-- What is appended does not go on with an unfinished line, and fits the scanner's
    buffer. -/
def History.Sound (json : Json E) (h : History E) (happening : Happening E) : Prop :=
  happening.appended json ≠ [] →
    Ended newline h.contents ∧
      ∀ line ∈ lines newline (happening.appended json), line.length < maxTokenSize

instance (h : History E) (happening : Happening E) : Decidable (h.Sound json happening) :=
  inferInstanceAs (Decidable (_ → _))

/-- All that was recorded can be read, and nothing else but what was passed. -/
structure History.Kept (json : Json E) (h : History E) : Prop where
  short : ∀ line ∈ lines newline h.contents, line.length < maxTokenSize
  recorded : h.recorded.Sublist (json.events h.contents)
  passed : (json.events h.contents).Sublist h.passed

theorem History.Kept.after (hjson : json.Lawful) {h : History E} {happening : Happening E}
    (hkept : h.Kept json) (hsound : h.Sound json happening) :
    (h.after json happening).Kept json := by
  obtain ⟨hrecorded, hpassed⟩ := hjson.appended happening
  have hcontents : (h.after json happening).contents =
      h.contents ++ happening.appended json := rfl
  have hlines : lines newline (h.contents ++ happening.appended json) =
      lines newline h.contents ++ lines newline (happening.appended json) := by
    by_cases hnil : happening.appended json = []
    · simp [hnil]
    · exact lines_append (hsound hnil).1 _
  have hevents : json.events (h.contents ++ happening.appended json) =
      json.events h.contents ++ json.events (happening.appended json) := by
    rw [Json.events, hlines, List.filterMap_append]
    rfl
  constructor
  · intro line hline
    rw [hcontents, hlines] at hline
    rcases List.mem_append.mp hline with hold | hnew
    · exact hkept.short line hold
    · refine (hsound fun hnil => ?_).2 line hnew
      rw [hnil] at hnew
      cases hnew
  · rw [hcontents, hevents]
    exact hkept.recorded.append hrecorded
  · rw [hcontents, hevents]
    exact hkept.passed.append hpassed

theorem History.kept_of_throughout (hjson : json.Lawful) {happenings : List (Happening E)}
    (h : Throughout (History.after json) (History.Sound json) {} happenings) :
    (happenings.foldl (History.after json) {}).Kept json :=
  h.invariant (I := fun _ h => h.Kept json) (fun _ _ _ hkept hsound => hkept.after hjson hsound)
    ⟨nofun, .slnil, .slnil⟩

/-- `ReadJSONL` returns every event that was recorded, in order, and none that was not
    passed to `Record`. -/
def History.ReadsBack (json : Json E) (h : History E) : Prop :=
  ∃ events, json.readJSONL h.file = .ok events ∧ h.recorded.Sublist events ∧
    events.Sublist h.passed

theorem History.Kept.readsBack {h : History E} (hkept : h.Kept json) (hfile : h.file.isSome) :
    h.ReadsBack json := by
  obtain ⟨contents, hcontents⟩ := Option.isSome_iff_exists.mp hfile
  have heq : h.contents = contents := by rw [History.contents, hcontents]; rfl
  refine ⟨json.events contents, ?_, heq ▸ hkept.recorded, heq ▸ hkept.passed⟩
  rw [hcontents]
  exact readJSONL_eq_ok_iff.mpr ⟨heq ▸ hkept.short, rfl⟩

theorem History.file_isSome (happenings : List (Happening E)) (happening : Happening E)
    (h : History E) : ((happening :: happenings).foldl (History.after json) h).file.isSome := by
  induction happenings generalizing h happening with
  | nil => rfl
  | cons next happenings ih => exact ih next _

/-- In every history in which nothing is appended to an unfinished line and no line
    reaches the length of the scanner's buffer, the log keeps what was recorded. -/
theorem recorded_kept (json : Json E) (hjson : json.Lawful) (first : Lifetime E)
    (later : List (Lifetime E))
    (hsound : Throughout (History.after json) (History.Sound json) {}
      ((first :: later).flatMap Lifetime.happenings)) :
    (History.of json (first :: later)).ReadsBack json :=
  (History.kept_of_throughout hjson hsound).readsBack (History.file_isSome _ _ _)

-- ============================================================================
-- A crash, a restart, and a record that is lost
-- ============================================================================

/-- Two events of one rollout. -/
inductive DemoEvent where
  | pending
  | deploying
  deriving DecidableEq

def DemoEvent.toState : DemoEvent → State
  | .pending => .pending
  | .deploying => .deploying

def DemoEvent.text (e : DemoEvent) : String :=
  "\x7b\"rollout_id\":\"r1\",\"timestamp\":\"\",\"event_type\":\"\"," ++
    "\"from_state\":\"\",\"to_state\":\"" ++ e.toState.text ++ "\"\x7d"

def DemoEvent.bytes (e : DemoEvent) : List UInt8 := e.text.toUTF8.data.toList

def demoJson : Json DemoEvent where
  marshal e := some e.bytes
  unmarshal b := [.pending, .deploying].find? fun e => e.bytes = b

theorem DemoEvent.eq_of_prefix (e e' : DemoEvent) (h : e.bytes <+: e'.bytes) : e = e' := by
  revert h
  cases e <;> cases e' <;> decide +kernel

theorem demoJson_lawful : demoJson.Lawful where
  undoes e b h := by
    obtain rfl := Option.some.inj h
    cases e <;> decide +kernel
  rejects e b n h hn := by
    obtain rfl := Option.some.inj h
    refine List.find?_eq_none.mpr fun e' _ heq => ?_
    have htake : e'.bytes = e.bytes.take n := of_decide_eq_true heq
    obtain rfl := DemoEvent.eq_of_prefix e' e (htake ▸ List.take_prefix n e.bytes)
    have hlength := congrArg List.length htake
    rw [List.length_take] at hlength
    omega
  nonempty e b h := by
    obtain rfl := Option.some.inj h
    cases e <;> decide +kernel
  compact e b h := by
    obtain rfl := Option.some.inj h
    cases e <;> decide +kernel

/-- A crash that leaves twenty bytes, and a controller that only opens the file. -/
theorem recorded_kept_demo :
    (History.of demoJson [⟨[(.pending, .sound)], some (.deploying, 20)⟩, ⟨[], none⟩]).ReadsBack
      demoJson :=
  recorded_kept demoJson demoJson_lawful _ _ (by decide +kernel)

/-- A crash that leaves twenty bytes, and a controller that records the event again. -/
def recordedAgain : History DemoEvent :=
  .of demoJson
    [⟨[(.pending, .sound)], some (.deploying, 20)⟩, ⟨[(.deploying, .sound)], none⟩]

/-- The second record goes on with the line that the crash has left, and `ReadJSONL` skips
    both. -/
theorem recorded_lost :
    demoJson.Lawful ∧ recordedAgain.recorded = [.pending, .deploying] ∧
      (demoJson.readJSONL recordedAgain.file).toOption = some [.pending] ∧
      ¬ recordedAgain.ReadsBack demoJson := by
  have hrecorded : recordedAgain.recorded = [.pending, .deploying] := by decide +kernel
  have hread : (demoJson.readJSONL recordedAgain.file).toOption = some [.pending] := by
    decide +kernel
  refine ⟨demoJson_lawful, hrecorded, hread, ?_⟩
  rintro ⟨events, hevents, hkept, -⟩
  rw [hevents] at hread
  obtain rfl : events = [.pending] := Option.some.inj hread
  rw [hrecorded] at hkept
  exact absurd hkept.length_le (by decide)

end PassionProjects.ReleaseGuard.Audit
