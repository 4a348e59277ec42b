/-
  PassionProjects.Lib.FileSystem

  A single directory of files, with what survives a process crash and what
  survives a power loss.

  The directory maps names to files, and each file has the contents a reader
  sees and the contents the last fsync made durable.  Creating, renaming and
  unlinking change the directory at once for readers, but are only queued for
  stable storage until the directory itself is fsynced.  A process crash keeps
  everything a reader could see; a power loss keeps any subset of the queued
  directory changes and, of a file that was not fsynced, any contents its
  content type declares possible.

  `Fs.Possible mode fs v` collects the directory views `v` a crash of kind
  `mode` can leave.  Every operation has one lemma that bounds the possible
  views after it by those before it; with these a proof never looks inside a
  queue of directory changes.

  Nothing here depends on what the files hold: names `ν` and contents `κ` are
  parameters.
-/

import Mathlib.Logic.Function.Basic
import Mathlib.Data.Option.Basic

namespace PassionProjects.FileSystem

/-- A file, identified by the name it was created under and a serial number. -/
structure FileId (ν : Type) where
  born : ν
  serial : Nat
  deriving DecidableEq, Repr

/-- File contents: what a new file holds, and what a power loss may leave of a
    file whose durable contents are `durable` while readers see `data`. -/
class Contents (κ : Type) where
  empty : κ
  survives : (durable data left : κ) → Prop
  survives_data : ∀ d x, survives d x x
  survives_durable : ∀ d x, survives d x d
  survives_synced : ∀ x y, survives x x y → y = x

/-- The contents of a file for readers, and as last made durable. -/
structure Inode (κ : Type) where
  data : κ
  durable : κ

/-- A change of the directory that waits for the directory to be fsynced. -/
inductive DirChange (ν : Type) where
  | link (n : ν) (i : FileId ν)
  | unlink (n : ν)
  | rename (a b : ν) (i : FileId ν)
  deriving DecidableEq, Repr

/-- A directory: the file under each name. -/
abbrev Dir (ν : Type) := ν → Option (FileId ν)

/-- The contents under each name. -/
abbrev View (ν κ : Type) := ν → Option κ

variable {ν κ : Type} [DecidableEq ν]

/-- Apply one directory change. -/
def DirChange.apply : DirChange ν → Dir ν → Dir ν
  | .link n i, d => Function.update d n (some i)
  | .unlink n, d => Function.update d n none
  | .rename a b i, d => Function.update (Function.update d a none) b (some i)

/-- The names whose links a directory change changes. -/
def DirChange.names : DirChange ν → List ν
  | .link n _ => [n]
  | .unlink n => [n]
  | .rename a b _ => [a, b]

/-- What a directory change makes of the link under `n`, if it changes it. -/
def DirChange.sets (n : ν) : DirChange ν → Option (Option (FileId ν))
  | .link m i => if n = m then some (some i) else none
  | .unlink m => if n = m then some none else none
  | .rename a b i => if n = b then some (some i) else if n = a then some none else none

theorem DirChange.apply_eq (c : DirChange ν) (d : Dir ν) (n : ν) :
    c.apply d n = (c.sets n).getD (d n) := by
  cases c with
  | link m i => by_cases h : n = m <;> simp [apply, sets, h]
  | unlink m => by_cases h : n = m <;> simp [apply, sets, h]
  | rename a b i =>
      simp only [apply, sets, Function.update_apply]
      split
      · rfl
      · split <;> rfl

theorem DirChange.sets_eq_none {c : DirChange ν} {n : ν} (h : n ∉ c.names) : c.sets n = none := by
  cases c with
  | link m i => simpa [names, sets] using h
  | unlink m => simpa [names, sets] using h
  | rename a b i =>
      obtain ⟨ha, hb⟩ : n ≠ a ∧ n ≠ b := by simpa [names] using h
      simp [sets, ha, hb]

/-- The file system: the directory as readers see it, its durable state with
    the changes that wait for an fsync, and the files. -/
structure Fs (ν κ : Type) where
  dir : Dir ν
  durableDir : Dir ν
  pending : List (DirChange ν)
  inodes : FileId ν → Inode κ
  next : Nat

/-- What stops: only the process, or the whole machine. -/
inductive CrashMode where
  | process
  | power
  deriving DecidableEq, Repr

namespace Fs

/-- An empty directory. -/
def init [Contents κ] : Fs ν κ where
  dir := fun _ => none
  durableDir := fun _ => none
  pending := []
  inodes := fun _ => ⟨Contents.empty, Contents.empty⟩
  next := 0

/-- Queue and apply a directory change. -/
def change (fs : Fs ν κ) (c : DirChange ν) : Fs ν κ :=
  { fs with dir := c.apply fs.dir, pending := fs.pending ++ [c] }

/-- `open(O_CREAT)` on a name that is not there: link a new, empty file. -/
def create [Contents κ] (fs : Fs ν κ) (n : ν) : Fs ν κ :=
  let i : FileId ν := ⟨n, fs.next⟩
  { fs.change (.link n i) with
    inodes := Function.update fs.inodes i ⟨Contents.empty, Contents.empty⟩
    next := fs.next + 1 }

/-- Replace the contents readers see of file `i`. -/
def write (fs : Fs ν κ) (i : FileId ν) (x : κ) : Fs ν κ :=
  { fs with inodes := Function.update fs.inodes i { fs.inodes i with data := x } }

/-- `fsync` of a file. -/
def sync (fs : Fs ν κ) (i : FileId ν) : Fs ν κ :=
  { fs with
    inodes := Function.update fs.inodes i ⟨(fs.inodes i).data, (fs.inodes i).data⟩ }

/-- `fsync` of the directory. -/
def syncDir (fs : Fs ν κ) : Fs ν κ :=
  { fs with durableDir := fs.dir, pending := [] }

/-- `rename(a, b)`; nothing happens when `a` is not there. -/
def rename (fs : Fs ν κ) (a b : ν) : Fs ν κ :=
  match fs.dir a with
  | none => fs
  | some i => fs.change (.rename a b i)

/-- `unlink(n)`. -/
def unlink (fs : Fs ν κ) (n : ν) : Fs ν κ := fs.change (.unlink n)

/-- The contents readers see under each name. -/
def view (fs : Fs ν κ) : View ν κ := fun n => (fs.dir n).map fun i => (fs.inodes i).data

-- ============================================================================
-- Directories a crash can leave
-- ============================================================================

/-- A directory a crash can leave: after a power loss, the durable directory
    with any subset of the waiting changes. -/
def PossibleDir (mode : CrashMode) (fs : Fs ν κ) (d : Dir ν) : Prop :=
  match mode with
  | .process => d = fs.dir
  | .power => ∃ kept, List.Sublist kept fs.pending ∧
      d = kept.foldl (fun d c => c.apply d) fs.durableDir

/-- A directory readers see or a power loss can leave. -/
def AnyDir (fs : Fs ν κ) (d : Dir ν) : Prop := d = fs.dir ∨ PossibleDir .power fs d

theorem PossibleDir.any {mode : CrashMode} {fs : Fs ν κ} {d : Dir ν}
    (h : PossibleDir mode fs d) : AnyDir fs d := by
  cases mode with
  | process => exact Or.inl h
  | power => exact Or.inr h

/-- The directory readers see is the durable one with every waiting change
    (`cur`), and no file is linked twice: `fresh` bounds the serial numbers in
    use, `home` says that a file readers see under the name it was created with
    has no other name in any directory a crash can leave, and `solo` the same
    within each such directory. -/
structure WF (fs : Fs ν κ) : Prop where
  cur : fs.dir = fs.pending.foldl (fun d c => c.apply d) fs.durableDir
  fresh : ∀ d, AnyDir fs d → ∀ n i, d n = some i → i.serial < fs.next
  home : ∀ i, fs.dir i.born = some i → ∀ d, AnyDir fs d → ∀ n, d n = some i → n = i.born
  solo : ∀ d, AnyDir fs d → ∀ i n, d i.born = some i → d n = some i → n = i.born

/-- A directory that can be left after queueing `c` could be left before, with
    or without `c` applied to it. -/
theorem possibleDir_change {mode : CrashMode} {fs : Fs ν κ} {c : DirChange ν} {d : Dir ν}
    (h : PossibleDir mode (fs.change c) d) :
    ∃ d₀, PossibleDir mode fs d₀ ∧ (d = d₀ ∨ d = c.apply d₀) := by
  cases mode with
  | process => exact ⟨fs.dir, rfl, Or.inr h⟩
  | power =>
      obtain ⟨kept, hsub, rfl⟩ := h
      obtain ⟨l₁, l₂, rfl, h₁, h₂⟩ := List.sublist_append_iff.mp hsub
      refine ⟨l₁.foldl (fun d c => c.apply d) fs.durableDir, ⟨l₁, h₁, rfl⟩, ?_⟩
      rcases List.sublist_cons_iff.mp h₂ with h₂ | ⟨l₃, rfl, h₃⟩
      · left; simp [List.sublist_nil.mp h₂, Fs.change]
      · right; simp [List.sublist_nil.mp h₃, Fs.change]

theorem anyDir_change {fs : Fs ν κ} {c : DirChange ν} {d : Dir ν}
    (h : AnyDir (fs.change c) d) : ∃ d₀, AnyDir fs d₀ ∧ (d = d₀ ∨ d = c.apply d₀) := by
  rcases h with h | h
  · exact ⟨fs.dir, Or.inl rfl, Or.inr h⟩
  · obtain ⟨d₀, h₀, hd⟩ := possibleDir_change h
    exact ⟨d₀, Or.inr h₀, hd⟩

theorem cur_change {fs : Fs ν κ} (h : fs.WF) (c : DirChange ν) :
    (fs.change c).dir =
      (fs.change c).pending.foldl (fun d c => c.apply d) (fs.change c).durableDir := by
  simp [change, h.cur]

/-- The directory readers see can be what a crash leaves. -/
theorem WF.possibleDir {fs : Fs ν κ} (h : fs.WF) (mode : CrashMode) :
    PossibleDir mode fs fs.dir := by
  cases mode with
  | process => rfl
  | power => exact ⟨fs.pending, List.Sublist.refl _, h.cur⟩

theorem possibleDir_syncDir {mode : CrashMode} {fs : Fs ν κ} {d : Dir ν}
    (h : PossibleDir mode fs.syncDir d) : d = fs.dir := by
  cases mode with
  | process => exact h
  | power =>
      obtain ⟨kept, hsub, rfl⟩ := h
      have hnil : kept = [] := List.sublist_nil.mp hsub
      simp [hnil, syncDir]

/-- Unlinking keeps a file system well formed. -/
theorem WF.unlink {fs : Fs ν κ} (h : fs.WF) (n : ν) : (fs.unlink n).WF := by
  have hold : ∀ d, AnyDir (fs.unlink n) d → ∃ d₀, AnyDir fs d₀ ∧
      ∀ m i, d m = some i → d₀ m = some i := by
    intro d hd
    obtain ⟨d₀, h₀, rfl | rfl⟩ := anyDir_change hd
    · exact ⟨d, h₀, fun _ _ hm => hm⟩
    · refine ⟨d₀, h₀, fun m i hm => ?_⟩
      by_cases hmn : m = n
      · subst hmn; simp [DirChange.apply] at hm
      · simpa [DirChange.apply, hmn] using hm
  refine ⟨cur_change h _, ?_, ?_, ?_⟩
  · intro d hd m i hm
    obtain ⟨d₀, h₀, hsub⟩ := hold d hd
    exact h.fresh d₀ h₀ m i (hsub m i hm)
  · intro i hi d hd m hm
    obtain ⟨d₀, h₀, hsub⟩ := hold d hd
    have hi' : fs.dir i.born = some i := by
      by_cases hb : i.born = n
      · simp [Fs.unlink, change, DirChange.apply, hb] at hi
      · simpa [Fs.unlink, change, DirChange.apply, hb] using hi
    exact h.home i hi' d₀ h₀ m (hsub m i hm)
  · intro d hd i m hb hm
    obtain ⟨d₀, h₀, hsub⟩ := hold d hd
    exact h.solo d₀ h₀ i m (hsub _ i hb) (hsub m i hm)

/-- Renaming a file away from the name it was created under keeps a file system
    well formed. -/
theorem WF.rename {fs : Fs ν κ} (h : fs.WF) {a b : ν} {i : FileId ν} (hab : a ≠ b)
    (hi : fs.dir a = some i) (hborn : i.born = a) : (fs.rename a b).WF := by
  have heq : fs.rename a b = fs.change (.rename a b i) := by simp [Fs.rename, hi]
  rw [heq]
  -- in every directory a crash can leave, `a` is unused or `i` is not at `b`
  have hcases : ∀ d, AnyDir (fs.change (.rename a b i)) d → ∃ d₀, AnyDir fs d₀ ∧
      (d = d₀ ∨ (d a = none ∧ d b = some i ∧ ∀ m j, m ≠ b → d m = some j →
        m ≠ a ∧ d₀ m = some j)) := by
    intro d hd
    obtain ⟨d₀, h₀, rfl | rfl⟩ := anyDir_change hd
    · exact ⟨d, h₀, Or.inl rfl⟩
    · refine ⟨d₀, h₀, Or.inr ⟨by simp [DirChange.apply, hab], by simp [DirChange.apply], ?_⟩⟩
      intro m j hmb hm
      by_cases hma : m = a
      · subst hma; simp [DirChange.apply, hab] at hm
      · exact ⟨hma, by simpa [DirChange.apply, hma, hmb] using hm⟩
  have hia : ∀ d₀, AnyDir fs d₀ → ∀ m, d₀ m = some i → m = a := fun d₀ h₀ m hm =>
    hborn ▸ h.home i (hborn ▸ hi) d₀ h₀ m hm
  refine ⟨cur_change h _, ?_, ?_, ?_⟩
  · intro d hd m j hm
    obtain ⟨d₀, h₀, rfl | ⟨-, hdb, hrest⟩⟩ := hcases d hd
    · exact h.fresh d h₀ m j hm
    · by_cases hmb : m = b
      · have hj : j = i := by rw [hmb, hdb] at hm; exact (Option.some.inj hm).symm
        exact hj ▸ h.fresh _ (Or.inl rfl) a i hi
      · exact h.fresh d₀ h₀ m j (hrest m j hmb hm).2
  · intro j hj d hd m hm
    have hdir : (fs.change (.rename a b i)).dir =
        Function.update (Function.update fs.dir a none) b (some i) := rfl
    rw [hdir] at hj
    have hjb : j.born ≠ b := by
      intro hb
      rw [hb, Function.update_self] at hj
      have hji : i = j := Option.some.inj hj
      exact hab (by rw [← hborn, hji, hb])
    rw [Function.update_of_ne hjb] at hj
    have hja : j.born ≠ a := by
      intro ha
      rw [ha, Function.update_self] at hj
      exact absurd hj (by simp)
    rw [Function.update_of_ne hja] at hj
    have hji : j ≠ i := fun hji => hja (by rw [hji, hborn])
    obtain ⟨d₀, h₀, rfl | ⟨-, hdb, hrest⟩⟩ := hcases d hd
    · exact h.home j hj d h₀ m hm
    · have hmb : m ≠ b := fun hmb => hji (by rw [hmb, hdb] at hm; exact (Option.some.inj hm).symm)
      exact h.home j hj d₀ h₀ m (hrest m j hmb hm).2
  · intro d hd j m hb hm
    obtain ⟨d₀, h₀, rfl | ⟨hda, hdb, hrest⟩⟩ := hcases d hd
    · exact h.solo d h₀ j m hb hm
    · have hji : j ≠ i := by
        intro hji
        rw [hji, hborn, hda] at hb
        exact absurd hb (by simp)
      have hne : ∀ n, d n = some j → n ≠ b := fun n hn hnb =>
        hji (by rw [hnb, hdb] at hn; exact (Option.some.inj hn).symm)
      exact h.solo d₀ h₀ j m (hrest _ j (hne _ hb) hb).2 (hrest m j (hne m hm) hm).2

/-- Making the directory durable keeps a file system well formed. -/
theorem WF.syncDir {fs : Fs ν κ} (h : fs.WF) : fs.syncDir.WF := by
  have hdir : ∀ d, AnyDir fs.syncDir d → d = fs.dir := by
    rintro d (rfl | hd)
    · rfl
    · exact possibleDir_syncDir hd
  refine ⟨rfl, ?_, ?_, ?_⟩
  · intro d hd; rw [hdir d hd]; exact h.fresh _ (Or.inl rfl)
  · intro i hi d hd; rw [hdir d hd]; exact h.home i hi _ (Or.inl rfl)
  · intro d hd; rw [hdir d hd]; exact h.solo _ (Or.inl rfl)

theorem WF.write {fs : Fs ν κ} (h : fs.WF) (i : FileId ν) (x : κ) : (fs.write i x).WF :=
  ⟨h.cur, h.fresh, h.home, h.solo⟩

theorem WF.sync {fs : Fs ν κ} (h : fs.WF) (i : FileId ν) : (fs.sync i).WF :=
  ⟨h.cur, h.fresh, h.home, h.solo⟩

/-- A new file is linked nowhere yet. -/
theorem WF.unused {fs : Fs ν κ} (h : fs.WF) {d : Dir ν} (hd : AnyDir fs d) (b n : ν) :
    d n ≠ some ⟨b, fs.next⟩ := fun hn => by
  have hlt := h.fresh d hd n _ hn
  exact absurd hlt (Nat.lt_irrefl _)

/-- Creating a file keeps a file system well formed. -/
theorem WF.create [Contents κ] {fs : Fs ν κ} (h : fs.WF) (n : ν) : (fs.create n).WF := by
  have hcases : ∀ d, AnyDir (fs.create n) d → ∃ d₀, AnyDir fs d₀ ∧
      (d = d₀ ∨ (d n = some ⟨n, fs.next⟩ ∧ ∀ m, m ≠ n → d m = d₀ m)) := by
    intro d hd
    have hd' : AnyDir (fs.change (.link n ⟨n, fs.next⟩)) d := hd
    obtain ⟨d₀, h₀, rfl | rfl⟩ := anyDir_change hd'
    · exact ⟨d, h₀, Or.inl rfl⟩
    · exact ⟨d₀, h₀, Or.inr ⟨by simp [DirChange.apply],
        fun m hm => by simp [DirChange.apply, hm]⟩⟩
  have hcur : (fs.change (.link n ⟨n, fs.next⟩)).dir = _ := cur_change h (.link n ⟨n, fs.next⟩)
  refine ⟨hcur, ?_, ?_, ?_⟩
  · intro d hd m i hm
    obtain ⟨d₀, h₀, rfl | ⟨hdn, hrest⟩⟩ := hcases d hd
    · exact Nat.lt_succ_of_lt (h.fresh d h₀ m i hm)
    · by_cases hmn : m = n
      · rw [hmn, hdn] at hm
        exact (Option.some.inj hm) ▸ Nat.lt_succ_self _
      · exact Nat.lt_succ_of_lt (h.fresh d₀ h₀ m i (hrest m hmn ▸ hm))
  · intro i hi d hd m hm
    have hdir : (fs.create n).dir = Function.update fs.dir n (some ⟨n, fs.next⟩) := rfl
    rw [hdir] at hi
    obtain ⟨d₀, h₀, hd₀⟩ := hcases d hd
    by_cases hbn : i.born = n
    · rw [hbn, Function.update_self] at hi
      have hinew : (⟨n, fs.next⟩ : FileId ν) = i := Option.some.inj hi
      rcases hd₀ with rfl | ⟨hdn, hrest⟩
      · exact absurd (hinew ▸ hm) (h.unused h₀ n m)
      · by_contra hmn
        have hmn' : m ≠ n := fun hm' => hmn (hm'.trans hbn.symm)
        exact absurd (hinew ▸ (hrest m hmn' ▸ hm)) (h.unused h₀ n m)
    · rw [Function.update_of_ne hbn] at hi
      rcases hd₀ with rfl | ⟨hdn, hrest⟩
      · exact h.home i hi d h₀ m hm
      · have hmn : m ≠ n := by
          intro hmn
          rw [hmn, hdn] at hm
          exact hbn (congrArg FileId.born (Option.some.inj hm)).symm
        exact h.home i hi d₀ h₀ m (hrest m hmn ▸ hm)
  · intro d hd i m hb hm
    obtain ⟨d₀, h₀, rfl | ⟨hdn, hrest⟩⟩ := hcases d hd
    · exact h.solo d h₀ i m hb hm
    · by_cases hbn : i.born = n
      · rw [hbn, hdn] at hb
        have hinew : (⟨n, fs.next⟩ : FileId ν) = i := Option.some.inj hb
        by_contra hmn
        have hmn' : m ≠ n := fun hm' => hmn (hm'.trans hbn.symm)
        exact absurd (hinew ▸ (hrest m hmn' ▸ hm)) (h.unused h₀ n m)
      · have hmn : m ≠ n := by
          intro hmn
          rw [hmn, hdn] at hm
          exact hbn (congrArg FileId.born (Option.some.inj hm)).symm
        exact h.solo d₀ h₀ i m (hrest _ hbn ▸ hb) (hrest m hmn ▸ hm)

theorem wf_init [Contents κ] : (init : Fs ν κ).WF := by
  have hnone : ∀ d, AnyDir (init : Fs ν κ) d → ∀ n, d n = none := by
    rintro d (rfl | ⟨kept, hsub, rfl⟩) n
    · rfl
    · have hnil : kept = [] := List.sublist_nil.mp hsub
      simp [hnil, Fs.init]
  refine ⟨rfl, ?_, ?_, ?_⟩
  · intro d hd n i hn; rw [hnone d hd] at hn; exact absurd hn (by simp)
  · intro i hi d hd n hn; rw [hnone d hd] at hn; exact absurd hn (by simp)
  · intro d hd i n _ hn; rw [hnone d hd] at hn; exact absurd hn (by simp)

-- ============================================================================
-- Views a crash can leave
-- ============================================================================

variable [Contents κ]

/-- Contents a crash can leave in a file. -/
def PossibleData (mode : CrashMode) (f : Inode κ) (x : κ) : Prop :=
  match mode with
  | .process => x = f.data
  | .power => Contents.survives f.durable f.data x

/-- A view a crash can leave: one possible directory, and possible contents for
    each file. -/
def Possible (mode : CrashMode) (fs : Fs ν κ) (v : View ν κ) : Prop :=
  ∃ (d : Dir ν) (c : FileId ν → κ), PossibleDir mode fs d ∧
    (∀ i, PossibleData mode (fs.inodes i) (c i)) ∧ v = fun n => (d n).map c

/-- What a crash makes of the file system.  After a power loss what is left is
    all durable. -/
def After (mode : CrashMode) (fs fs' : Fs ν κ) : Prop :=
  match mode with
  | .process => fs' = fs
  | .power => ∃ (d : Dir ν) (c : FileId ν → κ), PossibleDir .power fs d ∧
      (∀ i, PossibleData .power (fs.inodes i) (c i)) ∧
      fs' = { dir := d, durableDir := d, pending := [],
              inodes := fun i => ⟨c i, c i⟩, next := fs.next }

omit [DecidableEq ν] in
theorem possibleData_self {mode : CrashMode} {f : Inode κ} : PossibleData mode f f.data := by
  cases mode with
  | process => rfl
  | power => exact Contents.survives_data _ _

/-- Contents that were made durable, or that a process crash cannot touch, stay. -/
theorem possibleData_synced {mode : CrashMode} {f : Inode κ} {x : κ}
    (h : PossibleData mode f x) (hs : mode = .process ∨ f.durable = f.data) : x = f.data := by
  cases mode with
  | process => exact h
  | power =>
      obtain ⟨data, durable⟩ := f
      have hd : durable = data := hs.resolve_left (by simp)
      subst hd
      exact Contents.survives_synced _ _ h

/-- After a process crash there is one possible view, the one readers saw. -/
theorem possible_process {fs : Fs ν κ} {v : View ν κ} (h : Possible .process fs v) :
    v = fs.view := by
  obtain ⟨d, c, hd, hc, rfl⟩ := h
  funext n
  have hd' : d = fs.dir := hd
  subst hd'
  simp only [view]
  cases fs.dir n with
  | none => rfl
  | some i => exact congrArg some (hc i)

theorem possible_view {fs : Fs ν κ} (h : fs.WF) (mode : CrashMode) :
    Possible mode fs fs.view :=
  ⟨fs.dir, fun i => (fs.inodes i).data, h.possibleDir mode, fun _ => possibleData_self, rfl⟩

-- ============================================================================
-- One lemma per operation: what readers see, and what a crash can leave
-- ============================================================================

theorem view_create {fs : Fs ν κ} (h : fs.WF) (n : ν) :
    (fs.create n).view = Function.update fs.view n (some Contents.empty) := by
  funext m
  by_cases hmn : m = n
  · subst hmn
    simp [view, create, change, DirChange.apply]
  · have hdir : (fs.create n).dir m = fs.dir m := by
      simp [create, change, DirChange.apply, hmn]
    simp only [view, hdir, Function.update_of_ne hmn]
    cases hm : fs.dir m with
    | none => rfl
    | some i =>
        have hne : i ≠ ⟨n, fs.next⟩ := fun hi => h.unused (Or.inl rfl) n m (hi ▸ hm)
        simp [create, Function.update_of_ne hne]

omit [Contents κ] in
theorem view_write {fs : Fs ν κ} (h : fs.WF) {n : ν} {i : FileId ν} (hi : fs.dir n = some i)
    (hborn : i.born = n) (x : κ) :
    (fs.write i x).view = Function.update fs.view n (some x) := by
  funext m
  by_cases hmn : m = n
  · subst hmn
    simp [view, write, hi]
  · simp only [view, write, Function.update_of_ne hmn]
    cases hm : fs.dir m with
    | none => rfl
    | some j =>
        have hji : j ≠ i := by
          intro hji
          have hm' := h.home i (by rw [hborn]; exact hi) _ (Or.inl rfl) m (hji ▸ hm)
          exact hmn (hm'.trans hborn)
        simp [Function.update_of_ne hji]

omit [Contents κ] in
theorem view_sync {fs : Fs ν κ} (i : FileId ν) : (fs.sync i).view = fs.view := by
  funext m
  simp only [view, sync]
  cases fs.dir m with
  | none => rfl
  | some j =>
      by_cases hji : j = i
      · subst hji; simp
      · simp [Function.update_of_ne hji]

omit [Contents κ] in
theorem view_rename {fs : Fs ν κ} {a b : ν} {i : FileId ν} (hi : fs.dir a = some i) :
    (fs.rename a b).view =
      Function.update (Function.update fs.view a none) b (some (fs.inodes i).data) := by
  funext m
  by_cases hmb : m = b
  · subst hmb
    simp [view, rename, hi, change, DirChange.apply]
  · by_cases hma : m = a
    · subst hma
      simp [view, rename, hi, change, DirChange.apply, hmb]
    · simp [view, rename, hi, change, DirChange.apply, hmb, hma]

omit [Contents κ] in
theorem view_unlink {fs : Fs ν κ} (n : ν) :
    (fs.unlink n).view = Function.update fs.view n none := by
  funext m
  by_cases hmn : m = n
  · subst hmn; simp [view, unlink, change, DirChange.apply]
  · simp [view, unlink, change, DirChange.apply, hmn]

theorem possible_create {mode : CrashMode} {fs : Fs ν κ} (h : fs.WF) {n : ν} {v : View ν κ}
    (hv : Possible mode (fs.create n) v) :
    ∃ u, Possible mode fs u ∧ (v = u ∨ v = Function.update u n (some Contents.empty)) := by
  obtain ⟨d, c, hd, hc, rfl⟩ := hv
  have hd' : PossibleDir mode (fs.change (.link n ⟨n, fs.next⟩)) d := by cases mode <;> exact hd
  obtain ⟨d₀, h₀, hdd⟩ := possibleDir_change hd'
  -- the new file is in no directory that was possible before; give it its old contents there
  let c₀ : FileId ν → κ := Function.update c ⟨n, fs.next⟩ (fs.inodes ⟨n, fs.next⟩).data
  have hc₀ : ∀ i, PossibleData mode (fs.inodes i) (c₀ i) := by
    intro i
    by_cases hi : i = ⟨n, fs.next⟩
    · subst hi; simp only [c₀, Function.update_self]; exact possibleData_self
    · have := hc i
      simp only [c₀, Function.update_of_ne hi]
      simpa only [create, Function.update_of_ne hi] using this
  have hsame : ∀ m, (d₀ m).map c₀ = (d₀ m).map c := by
    intro m
    cases hm : d₀ m with
    | none => rfl
    | some i =>
        have hi : i ≠ ⟨n, fs.next⟩ := fun hi => h.unused h₀.any n m (hi ▸ hm)
        simp [c₀, Function.update_of_ne hi]
  refine ⟨_, ⟨d₀, c₀, h₀, hc₀, rfl⟩, ?_⟩
  rcases hdd with rfl | rfl
  · left; funext m; exact (hsame m).symm
  · right
    funext m
    by_cases hmn : m = n
    · subst hmn
      have hnew := hc ⟨m, fs.next⟩
      simp only [create, Function.update_self] at hnew
      simp [DirChange.apply, possibleData_synced hnew (Or.inr rfl)]
    · simp [DirChange.apply, hmn, hsame m]

/-- Writing a file that readers see under the name it was created with changes
    what a crash can leave under that name only. -/
theorem possible_write {mode : CrashMode} {fs : Fs ν κ} (h : fs.WF) {n : ν} {i : FileId ν}
    (hi : fs.dir n = some i) (hborn : i.born = n) {x : κ} {v : View ν κ}
    (hv : Possible mode (fs.write i x) v) :
    ∃ u, Possible mode fs u ∧ (v = u ∨ ∃ y, u n ≠ none ∧
      PossibleData mode ⟨x, (fs.inodes i).durable⟩ y ∧ v = Function.update u n (some y)) := by
  obtain ⟨d, c, hd, hc, rfl⟩ := hv
  have hd' : PossibleDir mode fs d := by cases mode <;> exact hd
  let c₀ : FileId ν → κ := Function.update c i (fs.inodes i).data
  have hc₀ : ∀ j, PossibleData mode (fs.inodes j) (c₀ j) := by
    intro j
    by_cases hj : j = i
    · subst hj; simp only [c₀, Function.update_self]; exact possibleData_self
    · have := hc j
      simp only [c₀, Function.update_of_ne hj]
      simpa only [write, Function.update_of_ne hj] using this
  have hne : ∀ m, d m ≠ some i → (d m).map c = (d m).map c₀ := by
    intro m hm
    cases hj : d m with
    | none => rfl
    | some j =>
        have hji : j ≠ i := fun hji => hm (hji ▸ hj)
        simp [c₀, Function.update_of_ne hji]
  refine ⟨_, ⟨d, c₀, hd', hc₀, rfl⟩, ?_⟩
  by_cases hn : d n = some i
  · right
    refine ⟨c i, by simp [hn], by simpa [write] using hc i, ?_⟩
    funext m
    by_cases hmn : m = n
    · subst hmn; simp [hn]
    · have hm : d m ≠ some i := fun hm =>
        hmn ((h.home i (hborn ▸ hi) d hd'.any m hm).trans hborn)
      rw [Function.update_of_ne hmn]
      exact hne m hm
  · left
    funext m
    refine hne m fun hm => hn ?_
    have hmn : m = n := (h.home i (hborn ▸ hi) d hd'.any m hm).trans hborn
    exact hmn ▸ hm

/-- An fsync adds nothing to what a crash can leave. -/
theorem possible_sync {mode : CrashMode} {fs : Fs ν κ} {i : FileId ν} {v : View ν κ}
    (hv : Possible mode (fs.sync i) v) : Possible mode fs v := by
  obtain ⟨d, c, hd, hc, rfl⟩ := hv
  refine ⟨d, c, by cases mode <;> exact hd, fun j => ?_, rfl⟩
  by_cases hj : j = i
  · subst hj
    have hcj : PossibleData mode ⟨(fs.inodes j).data, (fs.inodes j).data⟩ (c j) := by
      simpa only [sync, Function.update_self] using hc j
    have heq := possibleData_synced hcj (Or.inr rfl)
    rw [heq]
    exact possibleData_self
  · simpa only [sync, Function.update_of_ne hj] using hc j

/-- After a directory fsync a crash leaves the names readers see, and nothing it
    could not leave before. -/
theorem possible_syncDir {mode : CrashMode} {fs : Fs ν κ} (h : fs.WF) {v : View ν κ}
    (hv : Possible mode fs.syncDir v) :
    Possible mode fs v ∧ ∃ c : FileId ν → κ,
      (∀ i, PossibleData mode (fs.inodes i) (c i)) ∧ v = fun n => (fs.dir n).map c := by
  obtain ⟨d, c, hd, hc, rfl⟩ := hv
  have hdir : d = fs.dir := possibleDir_syncDir hd
  subst hdir
  exact ⟨⟨fs.dir, c, h.possibleDir mode, hc, rfl⟩, c, hc, rfl⟩

theorem possible_rename {mode : CrashMode} {fs : Fs ν κ} {a b : ν} {i : FileId ν}
    (hi : fs.dir a = some i) {v : View ν κ} (hv : Possible mode (fs.rename a b) v) :
    ∃ u, Possible mode fs u ∧ (v = u ∨ ∃ y, PossibleData mode (fs.inodes i) y ∧
      v = Function.update (Function.update u a none) b (some y)) := by
  obtain ⟨d, c, hd, hc, rfl⟩ := hv
  have heq : fs.rename a b = fs.change (.rename a b i) := by simp [rename, hi]
  rw [heq] at hd hc
  obtain ⟨d₀, h₀, hdd⟩ := possibleDir_change hd
  refine ⟨_, ⟨d₀, c, h₀, hc, rfl⟩, ?_⟩
  rcases hdd with rfl | rfl
  · exact Or.inl rfl
  · refine Or.inr ⟨c i, hc i, ?_⟩
    funext m
    by_cases hmb : m = b
    · subst hmb; simp [DirChange.apply]
    · by_cases hma : m = a
      · subst hma; simp [DirChange.apply, hmb]
      · simp [DirChange.apply, hmb, hma]

theorem possible_unlink {mode : CrashMode} {fs : Fs ν κ} {n : ν} {v : View ν κ}
    (hv : Possible mode (fs.unlink n) v) :
    ∃ u, Possible mode fs u ∧ (v = u ∨ v = Function.update u n none) := by
  obtain ⟨d, c, hd, hc, rfl⟩ := hv
  obtain ⟨d₀, h₀, hdd⟩ := possibleDir_change hd
  refine ⟨_, ⟨d₀, c, h₀, hc, rfl⟩, ?_⟩
  rcases hdd with rfl | rfl
  · exact Or.inl rfl
  · right
    funext m
    by_cases hmn : m = n
    · subst hmn; simp [DirChange.apply]
    · simp [DirChange.apply, hmn]

-- ============================================================================
-- Names that no crash can change
-- ============================================================================

/-- Every crash of this kind leaves `n` linked as readers see it. -/
def LinkSettled (mode : CrashMode) (fs : Fs ν κ) (n : ν) : Prop :=
  ∀ d, PossibleDir mode fs d → d n = fs.dir n

/-- Every crash of this kind leaves `n` as readers see it, contents included. -/
structure Settled (mode : CrashMode) (fs : Fs ν κ) (n : ν) : Prop where
  link : LinkSettled mode fs n
  data : ∀ i, fs.dir n = some i → mode = .process ∨ (fs.inodes i).durable = (fs.inodes i).data

theorem Settled.view {mode : CrashMode} {fs : Fs ν κ} {n : ν} (h : Settled mode fs n)
    {v : View ν κ} (hv : Possible mode fs v) : v n = fs.view n := by
  obtain ⟨d, c, hd, hc, rfl⟩ := hv
  simp only [h.link d hd, Fs.view]
  cases hi : fs.dir n with
  | none => rfl
  | some i => exact congrArg some (possibleData_synced (hc i) (h.data i hi))

omit [Contents κ] in
theorem settled_process {fs : Fs ν κ} (n : ν) : Settled .process fs n :=
  ⟨fun d hd => congrFun (show d = fs.dir from hd) n, fun _ _ => Or.inl rfl⟩

omit [Contents κ] in
/-- A change of the directory under another name leaves `n` linked as it was. -/
theorem LinkSettled.change {mode : CrashMode} {fs : Fs ν κ} {n : ν} {c : DirChange ν}
    (h : LinkSettled mode fs n) (hc : ∀ d, c.apply d n = d n) :
    LinkSettled mode (fs.change c) n := by
  intro d hd
  obtain ⟨d₀, h₀, rfl | rfl⟩ := possibleDir_change hd
  · exact (h d h₀).trans (hc fs.dir).symm
  · exact (hc d₀).trans ((h d₀ h₀).trans (hc fs.dir).symm)

omit [Contents κ] in
theorem Settled.change {mode : CrashMode} {fs : Fs ν κ} {n : ν} {c : DirChange ν}
    (h : Settled mode fs n) (hc : ∀ d, c.apply d n = d n) : Settled mode (fs.change c) n :=
  ⟨h.link.change hc, fun i hi => h.data i ((hc fs.dir) ▸ hi)⟩

omit [Contents κ] in
theorem LinkSettled.unlink {mode : CrashMode} {fs : Fs ν κ} {n m : ν} (h : LinkSettled mode fs n)
    (hnm : n ≠ m) : LinkSettled mode (fs.unlink m) n :=
  h.change fun d => by simp [DirChange.apply, hnm]

omit [Contents κ] in
theorem Settled.unlink {mode : CrashMode} {fs : Fs ν κ} {n m : ν} (h : Settled mode fs n)
    (hnm : n ≠ m) : Settled mode (fs.unlink m) n :=
  h.change fun d => by simp [DirChange.apply, hnm]

omit [Contents κ] in
theorem LinkSettled.rename {mode : CrashMode} {fs : Fs ν κ} {n a b : ν}
    (h : LinkSettled mode fs n) (ha : n ≠ a) (hb : n ≠ b) :
    LinkSettled mode (fs.rename a b) n := by
  unfold Fs.rename
  cases fs.dir a with
  | none => exact h
  | some i => exact h.change fun d => by simp [DirChange.apply, ha, hb]

omit [Contents κ] in
theorem Settled.rename {mode : CrashMode} {fs : Fs ν κ} {n a b : ν} (h : Settled mode fs n)
    (ha : n ≠ a) (hb : n ≠ b) : Settled mode (fs.rename a b) n := by
  unfold Fs.rename
  cases fs.dir a with
  | none => exact h
  | some i => exact h.change fun d => by simp [DirChange.apply, ha, hb]

theorem LinkSettled.create {mode : CrashMode} {fs : Fs ν κ} {n m : ν} (h : LinkSettled mode fs n)
    (hnm : n ≠ m) : LinkSettled mode (fs.create m) n := by
  have hch : LinkSettled mode (fs.change (.link m ⟨m, fs.next⟩)) n :=
    h.change fun d => by simp [DirChange.apply, hnm]
  exact fun d hd => hch d (by cases mode <;> exact hd)

theorem Settled.create {mode : CrashMode} {fs : Fs ν κ} {n m : ν} (hwf : fs.WF)
    (h : Settled mode fs n) (hnm : n ≠ m) : Settled mode (fs.create m) n := by
  refine ⟨h.link.create hnm, fun i hi => ?_⟩
  have hi' : fs.dir n = some i := by
    simpa [Fs.create, Fs.change, DirChange.apply, hnm] using hi
  have hne : i ≠ ⟨m, fs.next⟩ := fun heq => hwf.unused (Or.inl rfl) m n (heq ▸ hi')
  simpa [Fs.create, Function.update_of_ne hne] using h.data i hi'

omit [Contents κ] in
theorem LinkSettled.write {mode : CrashMode} {fs : Fs ν κ} {n : ν} (h : LinkSettled mode fs n)
    (i : FileId ν) (x : κ) : LinkSettled mode (fs.write i x) n :=
  fun d hd => h d (by cases mode <;> exact hd)

omit [Contents κ] in
theorem LinkSettled.sync {mode : CrashMode} {fs : Fs ν κ} {n : ν} (h : LinkSettled mode fs n)
    (i : FileId ν) : LinkSettled mode (fs.sync i) n :=
  fun d hd => h d (by cases mode <;> exact hd)

omit [Contents κ] in
/-- Writing another file leaves `n` settled. -/
theorem Settled.write {mode : CrashMode} {fs : Fs ν κ} {n m : ν} {i : FileId ν} {x : κ}
    (hwf : fs.WF) (h : Settled mode fs n) (hi : fs.dir m = some i) (hborn : i.born = m)
    (hnm : n ≠ m) : Settled mode (fs.write i x) n := by
  refine ⟨h.link.write i x, fun j hj => ?_⟩
  have hji : j ≠ i := by
    intro hji
    have hn := hwf.home i (hborn ▸ hi) _ (Or.inl rfl) n (hji ▸ hj)
    exact hnm (hn.trans hborn)
  simpa [Fs.write, Function.update_of_ne hji] using h.data j hj

omit [Contents κ] in
theorem Settled.sync {mode : CrashMode} {fs : Fs ν κ} {n : ν} (h : Settled mode fs n)
    (i : FileId ν) : Settled mode (fs.sync i) n := by
  refine ⟨h.link.sync i, fun j hj => ?_⟩
  by_cases hji : j = i
  · subst hji; exact Or.inr (by simp [Fs.sync])
  · simpa [Fs.sync, Function.update_of_ne hji] using h.data j hj

omit [Contents κ] in
/-- A directory fsync settles every name whose contents are durable. -/
theorem linkSettled_syncDir {mode : CrashMode} {fs : Fs ν κ} (n : ν) :
    LinkSettled mode fs.syncDir n :=
  fun _ hd => congrFun (possibleDir_syncDir hd) n

omit [Contents κ] in
theorem Settled.syncDir {mode : CrashMode} {fs : Fs ν κ} {n : ν} (h : Settled mode fs n) :
    Settled mode fs.syncDir n :=
  ⟨linkSettled_syncDir n, h.data⟩

omit [Contents κ] in
/-- A file whose name is settled is settled once it is fsynced. -/
theorem LinkSettled.synced {mode : CrashMode} {fs : Fs ν κ} {n : ν} {i : FileId ν}
    (h : LinkSettled mode fs n) (hi : fs.dir n = some i) : Settled mode (fs.sync i) n := by
  refine ⟨h.sync i, fun j hj => ?_⟩
  have hij : i = j := Option.some.inj (hi.symm.trans hj)
  subst hij
  exact Or.inr (by simp [Fs.sync])

/-- A name that every crash leaves linked, with contents readers see, is settled. -/
theorem LinkSettled.settled {mode : CrashMode} {fs : Fs ν κ} {n : ν} (hwf : fs.WF)
    (h : LinkSettled mode fs n) (hv : ∀ v, Possible mode fs v → v n = fs.view n) :
    Settled mode fs n := by
  refine ⟨h, fun i hi => ?_⟩
  cases mode with
  | process => exact Or.inl rfl
  | power =>
      have hkept : Possible .power fs fun m => (fs.dir m).map fun j => (fs.inodes j).durable :=
        ⟨fs.dir, _, hwf.possibleDir .power, fun _ => Contents.survives_durable _ _, rfl⟩
      have heq := hv _ hkept
      simp only [hi, Fs.view] at heq
      exact Or.inr (Option.some.inj heq)

-- ============================================================================
-- What the waiting changes can make of a name
-- ============================================================================

/-- The links that a power loss can leave under `n`. -/
def mayLink (fs : Fs ν κ) (n : ν) : List (Option (FileId ν)) :=
  fs.durableDir n :: fs.pending.filterMap fun c => c.sets n

omit [Contents κ] in
theorem foldl_apply_mem (changes : List (DirChange ν)) (d : Dir ν) (n : ν) :
    changes.foldl (fun d c => c.apply d) d n ∈
      d n :: changes.filterMap fun c => c.sets n := by
  induction changes generalizing d with
  | nil => simp
  | cons c rest ih =>
      have hrest := ih (c.apply d)
      rw [c.apply_eq] at hrest
      cases hc : c.sets n with
      | none => simpa [List.filterMap_cons, hc] using hrest
      | some x => exact List.mem_cons_of_mem _ (by simpa [List.filterMap_cons, hc] using hrest)

omit [Contents κ] in
theorem mem_mayLink {fs : Fs ν κ} {d : Dir ν} (h : PossibleDir .power fs d) (n : ν) :
    d n ∈ fs.mayLink n := by
  obtain ⟨kept, hsub, rfl⟩ := h
  refine List.Sublist.subset ?_ (foldl_apply_mem kept fs.durableDir n)
  exact (hsub.filterMap _).cons_cons _

omit [Contents κ] in
theorem linkSettled_of_mayLink {fs : Fs ν κ} {n : ν} (h : ∀ x ∈ fs.mayLink n, x = fs.dir n) :
    LinkSettled .power fs n := fun _ hd => h _ (mem_mayLink hd n)

omit [Contents κ] in
/-- A name that no waiting change touches is linked for good. -/
theorem linkSettled_of_unnamed {fs : Fs ν κ} (hwf : fs.WF) {n : ν}
    (h : ∀ c ∈ fs.pending, n ∉ c.names) : LinkSettled .power fs n := by
  have hsets : (fs.pending.filterMap fun c => c.sets n) = [] :=
    List.filterMap_eq_nil_iff.mpr fun c hc => DirChange.sets_eq_none (h c hc)
  have hdurable {d : Dir ν} (hd : PossibleDir .power fs d) : d n = fs.durableDir n := by
    simpa [mayLink, hsets] using mem_mayLink hd n
  exact fun d hd => (hdurable hd).trans (hdurable (hwf.possibleDir .power)).symm

-- ============================================================================
-- Names that are never renamed to
-- ============================================================================

omit [Contents κ] in
/-- Whatever is found under `n`, now or after a crash, was created there. -/
def Homed (fs : Fs ν κ) (n : ν) : Prop := ∀ d, AnyDir fs d → ∀ i, d n = some i → i.born = n

omit [Contents κ] in
theorem Homed.change {fs : Fs ν κ} {n : ν} {c : DirChange ν} (h : Homed fs n)
    (hc : ∀ d i, c.apply d n = some i → d n = some i ∨ i.born = n) : Homed (fs.change c) n := by
  intro d hd i hi
  obtain ⟨d₀, h₀, rfl | rfl⟩ := anyDir_change hd
  · exact h d h₀ i hi
  · exact (hc d₀ i hi).elim (h d₀ h₀ i) id

omit [Contents κ] in
theorem Homed.unlink {fs : Fs ν κ} {n : ν} (h : Homed fs n) (m : ν) : Homed (fs.unlink m) n := by
  refine h.change fun d i hi => Or.inl ?_
  by_cases hnm : n = m
  · subst hnm; simp [DirChange.apply] at hi
  · simpa [DirChange.apply, hnm] using hi

omit [Contents κ] in
theorem Homed.rename {fs : Fs ν κ} {n : ν} (h : Homed fs n) (a : ν) {b : ν} (hb : n ≠ b) :
    Homed (fs.rename a b) n := by
  unfold Fs.rename
  cases fs.dir a with
  | none => exact h
  | some j =>
      refine h.change fun d i hi => Or.inl ?_
      by_cases hna : n = a
      · subst hna; simp [DirChange.apply, hb] at hi
      · simpa [DirChange.apply, hna, hb] using hi

theorem Homed.create {fs : Fs ν κ} {n : ν} (h : Homed fs n) (m : ν) : Homed (fs.create m) n := by
  have hch : Homed (fs.change (.link m ⟨m, fs.next⟩)) n := by
    refine h.change fun d i hi => ?_
    by_cases hnm : n = m
    · subst hnm
      right
      simp [DirChange.apply] at hi
      rw [← hi]
    · left
      simpa [DirChange.apply, hnm] using hi
  exact hch

omit [Contents κ] in
theorem Homed.syncDir {fs : Fs ν κ} {n : ν} (h : Homed fs n) : Homed fs.syncDir n := by
  rintro d (rfl | hd)
  · exact h _ (Or.inl rfl)
  · rw [possibleDir_syncDir hd]
    exact h _ (Or.inl rfl)

theorem homed_init (n : ν) : Homed (init : Fs ν κ) n := by
  rintro d (rfl | ⟨kept, hsub, rfl⟩) i hi
  · exact absurd hi (by simp [Fs.init])
  · have hnil : kept = [] := List.sublist_nil.mp hsub
    simp [hnil, Fs.init] at hi

-- ============================================================================
-- Changes under one name
-- ============================================================================

/-- From `fs` to `fs'` only the name `n` was worked on: other names show the same,
    now and after a crash, and those that were settled still are. -/
structure OnlyAt (mode : CrashMode) (n : ν) (fs fs' : Fs ν κ) : Prop where
  wf : fs'.WF
  homed : ∀ m, Homed fs m → Homed fs' m
  dir : ∀ m, m ≠ n → fs'.dir m = fs.dir m
  view : ∀ m, m ≠ n → fs'.view m = fs.view m
  possible : ∀ v', Possible mode fs' v' → ∃ v, Possible mode fs v ∧ ∀ m, m ≠ n → v' m = v m
  link : ∀ m, m ≠ n → LinkSettled mode fs m → LinkSettled mode fs' m
  settled : ∀ m, m ≠ n → Settled mode fs m → Settled mode fs' m

namespace OnlyAt

variable {mode : CrashMode} {n : ν} {fs fs' fs'' : Fs ν κ}

theorem refl (h : fs.WF) : OnlyAt mode n fs fs :=
  ⟨h, fun _ => id, fun _ _ => rfl, fun _ _ => rfl, fun v hv => ⟨v, hv, fun _ _ => rfl⟩,
    fun _ _ => id, fun _ _ => id⟩

theorem trans (h₁ : OnlyAt mode n fs fs') (h₂ : OnlyAt mode n fs' fs'') :
    OnlyAt mode n fs fs'' := by
  refine ⟨h₂.wf, fun m hm => h₂.homed m (h₁.homed m hm),
    fun m hm => (h₂.dir m hm).trans (h₁.dir m hm),
    fun m hm => (h₂.view m hm).trans (h₁.view m hm), fun v'' hv'' => ?_,
    fun m hm hs => h₂.link m hm (h₁.link m hm hs),
    fun m hm hs => h₂.settled m hm (h₁.settled m hm hs)⟩
  obtain ⟨v', hv', heq'⟩ := h₂.possible v'' hv''
  obtain ⟨v, hv, heq⟩ := h₁.possible v' hv'
  exact ⟨v, hv, fun m hm => (heq' m hm).trans (heq m hm)⟩

theorem create (h : fs.WF) : OnlyAt mode n fs (fs.create n) where
  wf := h.create n
  homed _ hm := hm.create n
  dir m hm := by simp [Fs.create, Fs.change, DirChange.apply, hm]
  view m hm := by rw [view_create h, Function.update_of_ne hm]
  possible v' hv' := by
    obtain ⟨u, hu, rfl | rfl⟩ := possible_create h hv'
    · exact ⟨v', hu, fun _ _ => rfl⟩
    · exact ⟨u, hu, fun m hm => Function.update_of_ne hm _ _⟩
  link _ hm hs := hs.create hm
  settled _ hm hs := hs.create h hm

theorem write (h : fs.WF) {i : FileId ν} (hi : fs.dir n = some i) (hborn : i.born = n) (x : κ) :
    OnlyAt mode n fs (fs.write i x) where
  wf := h.write i x
  homed _ hm := hm
  dir _ _ := rfl
  view m hm := by rw [view_write h hi hborn, Function.update_of_ne hm]
  possible v' hv' := by
    obtain ⟨u, hu, rfl | ⟨y, -, -, rfl⟩⟩ := possible_write h hi hborn hv'
    · exact ⟨v', hu, fun _ _ => rfl⟩
    · exact ⟨u, hu, fun m hm => Function.update_of_ne hm _ _⟩
  link _ _ hs := hs.write i x
  settled _ hm hs := hs.write h hi hborn hm

theorem sync (h : fs.WF) (i : FileId ν) : OnlyAt mode n fs (fs.sync i) where
  wf := h.sync i
  homed _ hm := hm
  dir _ _ := rfl
  view m _ := by rw [view_sync]
  possible v' hv' := ⟨v', possible_sync hv', fun _ _ => rfl⟩
  link _ _ hs := hs.sync i
  settled _ _ hs := hs.sync i

theorem syncDir (h : fs.WF) : OnlyAt mode n fs fs.syncDir where
  wf := h.syncDir
  homed _ hm := hm.syncDir
  dir _ _ := rfl
  view _ _ := rfl
  possible v' hv' := ⟨v', (possible_syncDir h hv').1, fun _ _ => rfl⟩
  link m _ _ := linkSettled_syncDir m
  settled _ _ hs := hs.syncDir

theorem unlink (h : fs.WF) : OnlyAt mode n fs (fs.unlink n) where
  wf := h.unlink n
  homed _ hm := hm.unlink n
  dir m hm := by simp [Fs.unlink, Fs.change, DirChange.apply, hm]
  view m hm := by rw [view_unlink, Function.update_of_ne hm]
  possible v' hv' := by
    obtain ⟨u, hu, rfl | rfl⟩ := possible_unlink hv'
    · exact ⟨v', hu, fun _ _ => rfl⟩
    · exact ⟨u, hu, fun m hm => Function.update_of_ne hm _ _⟩
  link _ hm hs := hs.unlink hm
  settled _ hm hs := hs.unlink hm

/-- A property of views that does not look at `n` goes on holding of all of them. -/
theorem forall_possible (h : OnlyAt mode n fs fs') {P : View ν κ → Prop}
    (hP : ∀ u v : View ν κ, (∀ m, m ≠ n → v m = u m) → P u → P v)
    (hfs : ∀ v, Possible mode fs v → P v) : ∀ v, Possible mode fs' v → P v := by
  intro v' hv'
  obtain ⟨v, hv, heq⟩ := h.possible v' hv'
  exact hP v v' heq (hfs v hv)

end OnlyAt

-- ============================================================================
-- After a crash
-- ============================================================================

omit [Contents κ] in
/-- After a power loss one directory is left, whatever happens next. -/
theorem After.dir {fs fs' : Fs ν κ} {d : Dir ν} {c : FileId ν → κ}
    (hfs : fs' = { dir := d, durableDir := d, pending := [],
                   inodes := fun i => ⟨c i, c i⟩, next := fs.next })
    {d' : Dir ν} (hd' : AnyDir fs' d') : d' = d := by
  rcases hd' with rfl | ⟨kept, hsub, rfl⟩
  · rw [hfs]
  · rw [hfs] at hsub ⊢
    have hnil : kept = [] := List.sublist_nil.mp hsub
    simp [hnil]

theorem After.homed {mode : CrashMode} {fs fs' : Fs ν κ} {n : ν} (h : Homed fs n)
    (ha : After mode fs fs') : Homed fs' n := by
  cases mode with
  | process =>
      have heq : fs' = fs := ha
      rwa [heq]
  | power =>
      obtain ⟨d, c, hd, -, hfs⟩ := ha
      intro d' hd' i hi
      rw [After.dir hfs hd'] at hi
      exact h d (Or.inr hd) i hi

/-- What a crash leaves is well formed, shows a view that was possible, and
    nothing in it is waiting to be made durable. -/
theorem After.spec {mode : CrashMode} {fs fs' : Fs ν κ} (h : fs.WF) (ha : After mode fs fs') :
    fs'.WF ∧ Possible mode fs fs'.view ∧ ∀ n, Settled mode fs' n := by
  cases mode with
  | process =>
      have heq : fs' = fs := ha
      subst heq
      exact ⟨h, possible_view h .process, settled_process⟩
  | power =>
      obtain ⟨d, c, hd, hc, hfs⟩ := ha
      have hdir : ∀ d', AnyDir fs' d' → d' = d := fun d' hd' => After.dir hfs hd'
      refine ⟨⟨by rw [hfs]; rfl, fun d' hd' n i hn => ?_, fun i hi d' hd' n hn => ?_,
        fun d' hd' i n hi hn => ?_⟩, ⟨d, c, hd, hc, by rw [hfs]; rfl⟩, fun n => ⟨?_, ?_⟩⟩
      · rw [hdir d' hd'] at hn
        rw [hfs]
        exact h.fresh d (Or.inr hd) n i hn
      · rw [hdir d' hd'] at hn
        rw [hfs] at hi
        exact h.solo d (Or.inr hd) i n hi hn
      · rw [hdir d' hd'] at hi hn
        exact h.solo d (Or.inr hd) i n hi hn
      · intro d' hd'
        rw [hdir d' hd'.any, hdir fs'.dir (Or.inl rfl)]
      · intro i _
        right
        rw [hfs]

end Fs

end PassionProjects.FileSystem
