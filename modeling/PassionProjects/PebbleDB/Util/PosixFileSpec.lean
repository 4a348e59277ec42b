/-
  PassionProjects.PebbleDB.Util.PosixFileSpec

  One specification for each call of `Util.PosixFile`, under any policy and for
  both kinds of crash: what it leaves when it returns OK, when it fails, and
  when the process stops inside it.

  `Touches n` says that a section of a program has worked on the name `n` only.
  It is closed under sequencing, so a program that handles one file is verified
  by chaining the specifications of its calls.
-/

import PassionProjects.PebbleDB.Util.PosixFile

namespace PassionProjects.PebbleDB

open PassionProjects.Faults
open PassionProjects.Faults.Prog
open PassionProjects.FileSystem
open PassionProjects.FileSystem.Fs
open PassionProjects.PebbleDB.Util

/-- The environment may make the call `o` fail. -/
def MayFail (pol : Policy FsOp World) (o : FsOp) : Prop := ∃ w k, pol w o (.error k) = true

/-- Only the file `n` was worked on, and nothing was acknowledged or published. -/
structure Touches (mode : CrashMode) (n : FileName) (w w' : World) : Prop where
  fs : OnlyAt mode n w.fs w'.fs
  logged : w'.logged = w.logged
  published : w'.published = w.published

/-- At most an empty file has appeared under `n`. -/
def OnlyCreates (mode : CrashMode) (n : FileName) (fs fs' : DbFs) : Prop :=
  ∀ v', Possible mode fs' v' →
    ∃ v, Possible mode fs v ∧ (v' = v ∨ v' = Function.update v n (some (.bytes [])))

variable {mode : CrashMode} {pol : Policy FsOp World} {w w' w'' : World} {n : FileName}
  {fs fs' fs'' : DbFs}

theorem Touches.refl (h : w.fs.WF) : Touches mode n w w := ⟨OnlyAt.refl h, rfl, rfl⟩

theorem Touches.trans (h₁ : Touches mode n w w') (h₂ : Touches mode n w' w'') :
    Touches mode n w w'' :=
  ⟨h₁.fs.trans h₂.fs, h₂.logged.trans h₁.logged, h₂.published.trans h₁.published⟩

theorem Touches.onFs {f : DbFs → DbFs} (h : OnlyAt mode n w.fs (f w.fs)) :
    Touches mode n w (onFs f w) := ⟨h, rfl, rfl⟩

theorem OnlyCreates.refl : OnlyCreates mode n fs fs := fun v hv => ⟨v, hv, Or.inl rfl⟩

theorem OnlyCreates.trans (h₁ : OnlyCreates mode n fs fs') (h₂ : OnlyCreates mode n fs' fs'') :
    OnlyCreates mode n fs fs'' := by
  intro v'' hv''
  obtain ⟨v', hv', heq'⟩ := h₂ v'' hv''
  obtain ⟨v, hv, heq⟩ := h₁ v' hv'
  refine ⟨v, hv, ?_⟩
  rcases heq' with rfl | rfl
  · exact heq
  · rcases heq with rfl | rfl
    · exact Or.inr rfl
    · exact Or.inr (by rw [Function.update_idem])

theorem OnlyCreates.syncDir (h : fs.WF) : OnlyCreates mode n fs fs.syncDir :=
  fun v hv => ⟨v, (possible_syncDir h hv).1, Or.inl rfl⟩

-- ============================================================================
-- Calls that happen or do not
-- ============================================================================

theorem wp_atomically {o : FsOp} {effect : World → World} {Q : Bool → World → Prop}
    {C : World → Prop} (hok : Q true (effect w))
    (herr : ∀ k, pol w o (.error k) = true → Q false w) (hbefore : C w) (hafter : C (effect w)) :
    wp pol (atomically o effect) Q C w := by
  refine wp_step hok herr fun k _ => ?_
  cases k with
  | zero => exact hbefore
  | succ k => exact hafter

theorem wp_stat {Q : Option FileData → World → Prop} {C : World → Prop}
    (h : Q (w.fs.view n) w) : wp pol (stat n) Q C w := wp_read.mpr h

/-- `SyncDirectory`. -/
theorem wp_syncDirectory {why : DirSync} {Q : Status → World → Prop} {C : World → Prop}
    (hok : Q Status.OK (onFs Fs.syncDir w))
    (herr : ∀ k, pol w (.fsyncDir why) (.error k) = true →
      Q (Status.IOError "fsync (directory) failed") w)
    (hbefore : C w) (hafter : C (onFs Fs.syncDir w)) : wp pol (syncDirectory why) Q C w := by
  refine wp_bind (wp_atomically ?_ (fun k hk => ?_) hbefore hafter)
  · exact wp_pure.mpr hok
  · exact wp_pure.mpr (herr k hk)

-- ============================================================================
-- Opening
-- ============================================================================

/-- What `open(path, O_CREAT [| O_TRUNC])` makes of the files. -/
structure OpenCreated (mode : CrashMode) (n : FileName) (trunc : Bool) (fs fs' : DbFs) : Prop where
  only : OnlyAt mode n fs fs'
  creates : trunc = false → OnlyCreates mode n fs fs'
  exists_dir : ∃ i, fs'.dir n = some i
  view : fs'.view n = some (if trunc then .bytes [] else (fs.view n).getD (.bytes []))
  link : fs.view n ≠ none → LinkSettled mode fs n → LinkSettled mode fs' n
  settled : trunc = false → fs.view n ≠ none → Settled mode fs n → Settled mode fs' n
  fresh : fs.view n = none →
    ∀ i, fs'.dir n = some i → (fs'.inodes i).durable = (fs'.inodes i).data

theorem view_eq_none (fs : DbFs) (n : FileName) : fs.view n = none ↔ fs.dir n = none := by
  simp [Fs.view]

theorem openCreate_spec (mode : CrashMode) (hwf : fs.WF) (hh : Homed fs n) (trunc : Bool) :
    OpenCreated mode n trunc fs (openCreate n trunc fs) := by
  cases hdir : fs.dir n with
  | none =>
      have hview : fs.view n = none := (view_eq_none fs n).mpr hdir
      have heq : openCreate n trunc fs = fs.create n := by simp [openCreate, hdir]
      have hnew : (fs.create n).dir n = some ⟨n, fs.next⟩ := by
        simp [Fs.create, Fs.change, DirChange.apply]
      rw [heq]
      exact {
        only := .create hwf
        creates := fun _ v hv => possible_create hwf hv
        exists_dir := ⟨_, hnew⟩
        view := by
          rw [view_create hwf, Function.update_self, hview]
          cases trunc <;> rfl
        link := fun h => absurd hview h
        settled := fun _ h => absurd hview h
        fresh := fun _ i hi => by
          obtain rfl := Option.some.inj (hnew.symm.trans hi)
          simp [Fs.create] }
  | some i =>
      have hne : fs.view n ≠ none := by simp [Fs.view, hdir]
      have hview : fs.view n = some (fs.inodes i).data := by simp [Fs.view, hdir]
      have hborn : i.born = n := hh _ (Or.inl rfl) i hdir
      cases trunc with
      | false =>
          have heq : openCreate n false fs = fs := by simp [openCreate, hdir]
          rw [heq]
          exact {
            only := .refl hwf
            creates := fun _ => .refl
            exists_dir := ⟨i, hdir⟩
            view := by simp [hview]
            link := fun _ h => h
            settled := fun _ _ h => h
            fresh := fun h => absurd h hne }
      | true =>
          have heq : openCreate n true fs = fs.write i (.bytes []) := by simp [openCreate, hdir]
          rw [heq]
          exact {
            only := .write hwf hdir hborn _
            creates := fun h => absurd h (by simp)
            exists_dir := ⟨i, hdir⟩
            view := by rw [view_write hwf hdir hborn, Function.update_self]; rfl
            link := fun _ h => h.write i _
            settled := fun h => absurd h (by simp)
            fresh := fun h => absurd h hne }

/-- A file that was handed out by one of the `Open*` factories. -/
structure Opened (mode : CrashMode) (n : FileName) (trunc : Bool) (w w' : World) (f : PosixFile) :
    Prop where
  path : f.path = n
  dir : w'.fs.dir n = some f.fd
  view : w'.fs.view n = some (if trunc then .bytes [] else (w.fs.view n).getD (.bytes []))
  link : w.fs.view n = none ∨ LinkSettled mode w.fs n → LinkSettled mode w'.fs n
  settled : trunc = false → w.fs.view n = none ∨ Settled mode w.fs n → Settled mode w'.fs n

/-- The part of the `Open*` factories after their checks. -/
theorem finishOpen_spec (mode : CrashMode) (hwf : w.fs.WF) (hh : Homed w.fs n) (trunc : Bool)
    (what : String) :
    wp pol (do let fd ← sysOpen n trunc; finishOpen n what (w.fs.view n).isSome fd)
      (fun r w' => Touches mode n w w' ∧ (trunc = false → OnlyCreates mode n w.fs w'.fs) ∧
        match r with
        | .error s => s.ok = false ∧ s.isNotFound = false ∧
            (MayFail pol (.openFile n) ∨ MayFail pol (.fsyncDir .created))
        | .ok f => Opened mode n trunc w w' f)
      (fun w' => Touches mode n w w' ∧ (trunc = false → OnlyCreates mode n w.fs w'.fs)) w := by
  have hspec := openCreate_spec mode hwf hh trunc
  have hopened : Touches mode n w (onFs (openCreate n trunc) w) := .onFs hspec.only
  have hsame : Touches mode n w w := .refl hwf
  obtain ⟨i, hi⟩ := hspec.exists_dir
  refine wp_bind (wp_bind (wp_atomically ?_ (fun k hk => ?_) ⟨hsame, fun _ => .refl⟩
    ⟨hopened, hspec.creates⟩))
  · refine wp_read.mpr ?_
    show wp pol (finishOpen n what (w.fs.view n).isSome ((openCreate n trunc w.fs).dir n)) _ _ _
    rw [hi]
    unfold finishOpen
    cases hview : w.fs.view n with
    | some data =>
        have hne : w.fs.view n ≠ none := by simp [hview]
        refine wp_pure.mpr ⟨hopened, hspec.creates, rfl, hi, hspec.view, fun h => ?_,
          fun ht h => ?_⟩
        · exact hspec.link hne (h.resolve_left hne)
        · exact hspec.settled ht hne (h.resolve_left hne)
    | none =>
        have hwf' := hspec.only.wf
        have hsynced : Touches mode n w (onFs Fs.syncDir (onFs (openCreate n trunc) w)) :=
          hopened.trans (.onFs (.syncDir hwf'))
        have hcreates : trunc = false →
            OnlyCreates mode n w.fs (onFs Fs.syncDir (onFs (openCreate n trunc) w)).fs :=
          fun ht => (hspec.creates ht).trans (.syncDir hwf')
        refine wp_bind (wp_syncDirectory ?_ (fun k hk => ?_) ⟨hopened, hspec.creates⟩
          ⟨hsynced, hcreates⟩)
        · refine wp_pure.mpr ⟨hsynced, hcreates, rfl, hi, hspec.view, fun _ => ?_, fun _ _ => ?_⟩
          · exact linkSettled_syncDir n
          · exact ⟨linkSettled_syncDir n, fun j hj => Or.inr (hspec.fresh hview j hj)⟩
        · exact wp_pure.mpr ⟨hopened, hspec.creates, rfl, rfl, Or.inr ⟨_, k, hk⟩⟩
  · exact wp_pure.mpr (wp_pure.mpr ⟨hsame, fun _ => .refl, rfl, rfl, Or.inl ⟨_, k, hk⟩⟩)

/-- `OpenAppend`. -/
theorem openAppend_spec (mode : CrashMode) (hwf : w.fs.WF) (hh : Homed w.fs n) :
    wp pol (openAppend n)
      (fun r w' => Touches mode n w w' ∧ OnlyCreates mode n w.fs w'.fs ∧
        match r with
        | .error s => s.ok = false ∧ s.isNotFound = false ∧
            (MayFail pol (.openFile n) ∨ MayFail pol (.fsyncDir .created))
        | .ok f => Opened mode n false w w' f)
      (fun w' => Touches mode n w w' ∧ OnlyCreates mode n w.fs w'.fs) w := by
  refine wp_bind (wp_stat (wp_mono (finishOpen_spec mode hwf hh false _) ?_ ?_))
  · rintro r w' ⟨ht, hc, hr⟩
    exact ⟨ht, hc rfl, hr⟩
  · rintro w' ⟨ht, hc⟩
    exact ⟨ht, hc rfl⟩

/-- `OpenTruncate`. -/
theorem openTruncate_spec (mode : CrashMode) (hwf : w.fs.WF) (hh : Homed w.fs n) :
    wp pol (openTruncate n)
      (fun r w' => Touches mode n w w' ∧
        match r with
        | .error s => s.ok = false ∧ s.isNotFound = false ∧
            (MayFail pol (.openFile n) ∨ MayFail pol (.fsyncDir .created))
        | .ok f => Opened mode n true w w' f)
      (fun w' => Touches mode n w w') w := by
  refine wp_bind (wp_stat (wp_mono (finishOpen_spec mode hwf hh true _) ?_ fun _ h => h.1))
  rintro r w' ⟨ht, -, hr⟩
  exact ⟨ht, hr⟩

/-- `OpenNew`: it refuses exactly the paths that have contents. -/
theorem openNew_spec (mode : CrashMode) (hwf : w.fs.WF) (hh : Homed w.fs n) :
    wp pol (openNew n)
      (fun r w' => Touches mode n w w' ∧
        match r with
        | .error s => s.ok = false ∧ ((w.fs.view n).any (fun data => !data.isEmpty) = true ∨
            MayFail pol (.openFile n) ∨ MayFail pol (.fsyncDir .created))
        | .ok f => (w.fs.view n).any (fun data => !data.isEmpty) = false ∧
            Opened mode n true w w' f)
      (fun w' => Touches mode n w w') w := by
  refine wp_bind (wp_stat ?_)
  cases hany : (w.fs.view n).any (fun data => !data.isEmpty) with
  | true => exact wp_pure.mpr ⟨.refl hwf, rfl, Or.inl rfl⟩
  | false =>
      refine wp_mono (finishOpen_spec mode hwf hh true _) ?_ fun _ h => h.1
      rintro r w' ⟨ht, -, hr⟩
      refine ⟨ht, ?_⟩
      cases r with
      | error s => exact ⟨hr.1, Or.inr hr.2.2⟩
      | ok f => exact ⟨rfl, hr⟩

/-- `OpenRead` and reading the file change nothing. -/
theorem readFile_spec {C : World → Prop} (hC : C w) :
    wp pol (readFile n)
      (fun r w' => w' = w ∧
        match r with
        | .error s => s.ok = false ∧ s.isNotFound = false ∧
            (w.fs.view n = none ∨ MayFail pol (.openRead n))
        | .ok data => w.fs.view n = some data) C w := by
  refine wp_bind (wp_atomically ?_ (fun k hk => ?_) hC hC)
  · refine wp_bind (wp_stat ?_)
    show wp pol _ _ C w
    simp only [id]
    cases hview : w.fs.view n with
    | none => exact wp_pure.mpr ⟨rfl, rfl, rfl, Or.inl rfl⟩
    | some data => exact wp_pure.mpr ⟨rfl, rfl⟩
  · refine wp_bind (wp_stat ?_)
    cases w.fs.view n with
    | none => exact wp_pure.mpr ⟨rfl, rfl, rfl, Or.inl rfl⟩
    | some data => exact wp_pure.mpr ⟨rfl, rfl, rfl, Or.inr ⟨w, k, hk⟩⟩

-- ============================================================================
-- Writing
-- ============================================================================

/-- The file `n` has grown from the settled bytes `b` by `part`, and a crash
    leaves some of that. -/
structure Appended (mode : CrashMode) (n : FileName) (b part : Bytes) (w w' : World) : Prop where
  touches : Touches mode n w w'
  view : w'.fs.view n = some (.bytes (b ++ part))
  dir : w'.fs.dir n = w.fs.dir n
  link : LinkSettled mode w'.fs n
  possible : ∀ v', Possible mode w'.fs v' → ∃ v left, Possible mode w.fs v ∧ left <+: part ∧
    v' = Function.update v n (some (.bytes (b ++ left)))
  process : mode = .process → Settled mode w'.fs n
  nothing : part = [] → Settled mode w'.fs n

theorem tornTo_append {b part : Bytes} {y : FileData}
    (h : FileData.TornTo (.bytes b) (.bytes (b ++ part)) y) :
    ∃ left, left <+: part ∧ y = .bytes (b ++ left) := by
  obtain ⟨c, rfl, ⟨⟨left, rfl⟩, hle⟩ | ⟨⟨t, rfl⟩, hle⟩⟩ := h
  · exact ⟨left, (List.prefix_append_right_inj b).mp hle, rfl⟩
  · rw [List.append_assoc] at hle
    have hnil : part ++ t = [] := by
      have hlen := hle.length_le
      rw [List.length_append] at hlen
      exact List.eq_nil_of_length_eq_zero (by omega)
    obtain ⟨rfl, rfl⟩ := List.append_eq_nil_iff.mp hnil
    exact ⟨[], List.nil_prefix, by simp⟩

/-- Appending to a file whose contents are settled. -/
theorem write_appended {i : FileId FileName} {b : Bytes} (hwf : w.fs.WF) (hh : Homed w.fs n)
    (hi : w.fs.dir n = some i) (hs : Settled mode w.fs n) (hb : w.fs.view n = some (.bytes b))
    (part : Bytes) :
    Appended mode n b part w
      (onFs (fun fs => fs.write i ((fs.inodes i).data.append part)) w) := by
  have hborn : i.born = n := hh _ (Or.inl rfl) i hi
  have hdata : (w.fs.inodes i).data = .bytes b := by
    simpa [Fs.view, hi] using hb
  have hnew : (w.fs.inodes i).data.append part = .bytes (b ++ part) := by rw [hdata]; rfl
  have heq : onFs (fun fs => fs.write i ((fs.inodes i).data.append part)) w =
      { w with fs := w.fs.write i (.bytes (b ++ part)) } := by rw [onFs, hnew]
  rw [heq]
  refine ⟨⟨.write hwf hi hborn _, rfl, rfl⟩, ?_, rfl, hs.link.write i _, ?_, ?_, ?_⟩
  · show (w.fs.write i _).view n = _
    rw [view_write hwf hi hborn, Function.update_self]
  · intro v' hv'
    obtain ⟨u, hu, rfl | ⟨y, -, hy, rfl⟩⟩ := possible_write hwf hi hborn hv'
    · refine ⟨v', [], hu, List.nil_prefix, ?_⟩
      rw [List.append_nil, ← hb, ← hs.view hu, Function.update_eq_self]
    · have hleft : ∃ left, left <+: part ∧ y = .bytes (b ++ left) := by
        cases mode with
        | process => exact ⟨part, List.prefix_rfl, hy⟩
        | power =>
            have hdur : (w.fs.inodes i).durable = .bytes b := by
              rcases hs.data i hi with h | h
              · exact absurd h (by simp)
              · exact h.trans hdata
            have hy' : y = .bytes (b ++ part) ∨ y = .bytes b ∨ (_ ∧
                FileData.TornTo (.bytes b) (.bytes (b ++ part)) y) := hdur ▸ hy
            rcases hy' with rfl | rfl | ⟨-, ht⟩
            · exact ⟨part, List.prefix_rfl, rfl⟩
            · exact ⟨[], List.nil_prefix, by simp⟩
            · exact tornTo_append ht
      obtain ⟨left, hl, rfl⟩ := hleft
      exact ⟨u, left, hu, hl, rfl⟩
  · rintro rfl
    exact settled_process n
  · rintro rfl
    refine ⟨hs.link.write i _, fun j hj => ?_⟩
    have hij : i = j := Option.some.inj (hi.symm.trans hj)
    subst hij
    have hd := hs.data i hi
    rw [hdata] at hd
    simpa [Fs.write] using hd

/-- `Append` to any file that holds bytes. -/
theorem append_touches (mode : CrashMode) {f : PosixFile} {b data : Bytes} (hwf : w.fs.WF)
    (hh : Homed w.fs n) (hpath : f.path = n) (hi : w.fs.dir n = some f.fd)
    (hb : w.fs.view n = some (.bytes b)) :
    wp pol (append f data)
      (fun s w' => Touches mode n w w' ∧ w'.fs.dir = w.fs.dir ∧
        ((s.ok = true ∧ w'.fs.view n = some (.bytes (b ++ data))) ∨
          (s.ok = false ∧ MayFail pol (.append n))))
      (fun w' => Touches mode n w w') w := by
  subst hpath
  have hborn : f.fd.born = f.path := hh _ (Or.inl rfl) f.fd hi
  have hdata : (w.fs.inodes f.fd).data = .bytes b := by simpa [Fs.view, hi] using hb
  have hput (part : Bytes) : Touches mode f.path w
      (onFs (fun fs => fs.write f.fd ((fs.inodes f.fd).data.append part)) w) :=
    .onFs (.write hwf hi hborn _)
  refine wp_bind (wp_step ?_ (fun k hk => ?_) fun k _ => hput _)
  · refine wp_pure.mpr ⟨hput _, rfl, Or.inl ⟨rfl, ?_⟩⟩
    show (w.fs.write f.fd ((w.fs.inodes f.fd).data.append data)).view f.path = _
    rw [view_write hwf hi hborn, Function.update_self, hdata]
    rfl
  · exact wp_pure.mpr ⟨hput _, rfl, Or.inr ⟨rfl, ⟨w, k, hk⟩⟩⟩

/-- The appends of a table file. -/
theorem sysWriteTable_spec (mode : CrashMode) {f : PosixFile} {entries : List Entry}
    (hwf : w.fs.WF) (hh : Homed w.fs n) (hpath : f.path = n) (hi : w.fs.dir n = some f.fd) :
    wp pol (sysWriteTable f entries)
      (fun ok w' => Touches mode n w w' ∧ w'.fs.dir = w.fs.dir ∧
        (LinkSettled mode w.fs n → LinkSettled mode w'.fs n) ∧
        ((ok = true ∧ w'.fs.view n = some (.table entries)) ∨
          (ok = false ∧ MayFail pol (.append n))))
      (fun w' => Touches mode n w w') w := by
  subst hpath
  have hborn : f.fd.born = f.path := hh _ (Or.inl rfl) f.fd hi
  have hput (data : FileData) : Touches mode f.path w (onFs (fun fs => fs.write f.fd data) w) :=
    .onFs (.write hwf hi hborn _)
  refine wp_step ?_ (fun k hk => ?_) fun k _ => ?_
  · refine ⟨hput _, rfl, fun h => h.write f.fd _, Or.inl ⟨rfl, ?_⟩⟩
    show (w.fs.write f.fd _).view f.path = _
    rw [view_write hwf hi hborn, Function.update_self]
  · cases k with
    | zero => exact ⟨.refl hwf, rfl, id, Or.inr ⟨rfl, ⟨w, 0, hk⟩⟩⟩
    | succ k => exact ⟨hput _, rfl, fun h => h.write f.fd _, Or.inr ⟨rfl, ⟨w, k + 1, hk⟩⟩⟩
  · match k with
    | 0 => exact .refl hwf
    | 1 => exact hput _
    | _ + 2 => exact hput _

/-- `Append` to a settled file. -/
theorem append_spec (mode : CrashMode) {f : PosixFile} {b data : Bytes} (hwf : w.fs.WF)
    (hh : Homed w.fs n)
    (hpath : f.path = n) (hi : w.fs.dir n = some f.fd) (hs : Settled mode w.fs n)
    (hb : w.fs.view n = some (.bytes b)) (hdata : data ≠ []) :
    wp pol (append f data)
      (fun s w' => (s.ok = true ∧ Appended mode n b data w w') ∨
        (s.ok = false ∧ MayFail pol (.append n) ∧
          ∃ part, part <+: data ∧ part.length < data.length ∧ Appended mode n b part w w'))
      (fun w' => ∃ part, part <+: data ∧ Appended mode n b part w w') w := by
  subst hpath
  refine wp_bind (wp_step ?_ (fun k hk => ?_) fun k _ => ?_)
  · exact wp_pure.mpr (Or.inl ⟨rfl, write_appended hwf hh hi hs hb data⟩)
  · refine wp_pure.mpr (Or.inr ⟨rfl, ⟨w, k, hk⟩, data.take (min k (data.length - 1)),
      List.take_prefix _ _, ?_, write_appended hwf hh hi hs hb _⟩)
    have hpos : 0 < data.length := List.length_pos_of_ne_nil hdata
    rw [List.length_take]
    omega
  · exact ⟨data.take k, List.take_prefix _ _, write_appended hwf hh hi hs hb _⟩

/-- `Sync`. -/
theorem sync_spec (mode : CrashMode) {f : PosixFile} (hwf : w.fs.WF) (hpath : f.path = n)
    (hi : w.fs.dir n = some f.fd) :
    wp pol (sync f)
      (fun s w' => Touches mode n w w' ∧ w'.fs.view = w.fs.view ∧ w'.fs.dir = w.fs.dir ∧
        (∀ v, Possible mode w'.fs v → Possible mode w.fs v) ∧
        (LinkSettled mode w.fs n → LinkSettled mode w'.fs n) ∧
        ((s.ok = true ∧ (LinkSettled mode w.fs n → Settled mode w'.fs n) ∧
            (w'.fs.inodes f.fd).durable = (w'.fs.inodes f.fd).data) ∨
          (s.ok = false ∧ MayFail pol (.fsync n))))
      (fun w' => Touches mode n w w' ∧ w'.fs.view = w.fs.view ∧
        (∀ v, Possible mode w'.fs v → Possible mode w.fs v) ∧
        (LinkSettled mode w.fs n → LinkSettled mode w'.fs n)) w := by
  subst hpath
  have hsynced : Touches mode f.path w (onFs (fun fs => fs.sync f.fd) w) := .onFs (.sync hwf f.fd)
  have hview : (onFs (fun fs => fs.sync f.fd) w).fs.view = w.fs.view := view_sync f.fd
  refine wp_bind (wp_atomically ?_ (fun k hk => ?_) ?_ ?_)
  · exact wp_pure.mpr ⟨hsynced, hview, rfl, fun v => possible_sync, fun h => h.sync f.fd,
      Or.inl ⟨rfl, fun h => h.synced hi, by simp [onFs, Fs.sync]⟩⟩
  · exact wp_pure.mpr ⟨.refl hwf, rfl, rfl, fun _ => id, id, Or.inr ⟨rfl, ⟨w, k, hk⟩⟩⟩
  · exact ⟨.refl hwf, rfl, fun _ => id, id⟩
  · exact ⟨hsynced, hview, fun v => possible_sync, fun h => h.sync f.fd⟩

/-- `TruncateFile` of a settled file. -/
theorem truncateFile_spec (mode : CrashMode) {b : Bytes} {length : Nat} (hwf : w.fs.WF)
    (hh : Homed w.fs n)
    (hs : Settled mode w.fs n) (hb : w.fs.view n = some (.bytes b)) :
    wp pol (truncateFile n length)
      (fun s w' => Touches mode n w w' ∧
        (∀ v', Possible mode w'.fs v' → ∃ v c, Possible mode w.fs v ∧
          b.take length <+: c ∧ c <+: b ∧
          v' = Function.update v n (some (.bytes c))) ∧
        ((s.ok = true ∧ Settled mode w'.fs n ∧ w'.fs.view n = some (.bytes (b.take length))) ∨
          (s.ok = false ∧ s.isNotFound = false ∧
            (MayFail pol (.truncate n) ∨ MayFail pol (.fsync n)))))
      (fun w' => Touches mode n w w' ∧
        ∀ v', Possible mode w'.fs v' → ∃ v c, Possible mode w.fs v ∧ b.take length <+: c ∧ c <+: b ∧
          v' = Function.update v n (some (.bytes c))) w := by
  obtain ⟨i, hi⟩ : ∃ i, w.fs.dir n = some i := by
    cases hdir : w.fs.dir n with
    | none => simp [Fs.view, hdir] at hb
    | some i => exact ⟨i, rfl⟩
  have hborn : i.born = n := hh _ (Or.inl rfl) i hi
  have hdata : (w.fs.inodes i).data = .bytes b := by simpa [Fs.view, hi] using hb
  -- the state after `ftruncate`
  let w₁ : World := { w with fs := w.fs.write i (.bytes (b.take length)) }
  have hcut : onFs (cutFile i length) w = w₁ := by simp only [onFs, cutFile, hdata, w₁]
  have ht₁ : Touches mode n w w₁ := ⟨.write hwf hi hborn _, rfl, rfl⟩
  have hview₁ : w₁.fs.view n = some (.bytes (b.take length)) := by
    show (w.fs.write i _).view n = _
    rw [view_write hwf hi hborn, Function.update_self]
  have hself : ∀ v', Possible mode w.fs v' → ∃ v c, Possible mode w.fs v ∧
      b.take length <+: c ∧ c <+: b ∧ v' = Function.update v n (some (.bytes c)) := fun v' hv' =>
    ⟨v', b, hv', List.take_prefix _ _, List.prefix_rfl, by
      rw [← hb, ← hs.view hv', Function.update_eq_self]⟩
  have hposs₁ : ∀ v', Possible mode w₁.fs v' → ∃ v c, Possible mode w.fs v ∧
      b.take length <+: c ∧ c <+: b ∧ v' = Function.update v n (some (.bytes c)) := by
    intro v' hv'
    obtain ⟨u, hu, rfl | ⟨y, -, hy, rfl⟩⟩ := possible_write hwf hi hborn hv'
    · exact hself v' hu
    · have hc : ∃ c, b.take length <+: c ∧ c <+: b ∧ y = .bytes c := by
        cases mode with
        | process => exact ⟨_, List.prefix_rfl, List.take_prefix _ _, hy⟩
        | power =>
            have hdur : (w.fs.inodes i).durable = .bytes b := by
              rcases hs.data i hi with h | h
              · exact absurd h (by simp)
              · exact h.trans hdata
            have hy' : y = .bytes (b.take length) ∨ y = .bytes b ∨ (_ ∧
                FileData.TornTo (.bytes b) (.bytes (b.take length)) y) := hdur ▸ hy
            rcases hy' with rfl | rfl | ⟨-, c, rfl, ⟨hbc, hcb⟩ | ⟨htc, hcb⟩⟩
            · exact ⟨_, List.prefix_rfl, List.take_prefix _ _, rfl⟩
            · exact ⟨_, List.take_prefix _ _, List.prefix_rfl, rfl⟩
            · have hbt : b <+: b.take length := hbc.trans hcb
              have heq : b.take length = b :=
                (List.take_prefix length b).eq_of_length (Nat.le_antisymm
                  (List.take_prefix length b).length_le hbt.length_le)
              rw [heq] at hcb
              exact ⟨c, by rw [heq]; exact hbc, hcb, rfl⟩
            · exact ⟨c, htc, hcb, rfl⟩
      obtain ⟨c, htc, hcb, rfl⟩ := hc
      exact ⟨u, c, hu, htc, hcb, rfl⟩
  have hwf₁ : w₁.fs.WF := hwf.write i _
  have hi₁ : w₁.fs.dir n = some i := hi
  have ht₂ : Touches mode n w (onFs (fun fs => fs.sync i) w₁) :=
    ht₁.trans (.onFs (.sync hwf₁ i))
  refine wp_bind (wp_read.mpr ?_)
  rw [hi]
  refine wp_bind (wp_atomically ?_ (fun k hk => ?_) ⟨.refl hwf, hself⟩ (hcut ▸ ⟨ht₁, hposs₁⟩))
  · rw [hcut]
    refine wp_bind (wp_atomically ?_ (fun k hk => ?_) ⟨ht₁, hposs₁⟩
      ⟨ht₂, fun v hv => hposs₁ v (possible_sync hv)⟩)
    · refine wp_pure.mpr ⟨ht₂, fun v hv => hposs₁ v (possible_sync hv), Or.inl ⟨rfl, ?_, ?_⟩⟩
      · exact (hs.link.write i _).synced hi₁
      · exact Eq.trans (congrFun (view_sync i) n) hview₁
    · exact wp_pure.mpr ⟨ht₁, hposs₁, Or.inr ⟨rfl, rfl, Or.inr ⟨_, k, hk⟩⟩⟩
  · exact wp_pure.mpr ⟨.refl hwf, hself, Or.inr ⟨rfl, rfl, Or.inl ⟨_, k, hk⟩⟩⟩

end PassionProjects.PebbleDB
