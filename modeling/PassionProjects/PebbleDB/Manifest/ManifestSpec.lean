/-
  PassionProjects.PebbleDB.Manifest.ManifestSpec

  What `SaveManifest` and `LoadManifest` do.

  Until the rename `SaveManifest` touches MANIFEST.tmp only.  From the rename on
  every directory a crash can leave shows what it showed before, with or without
  the new manifest in place (`Renamed`); a successful directory fsync rules out
  "without".
-/

import PassionProjects.PebbleDB.Util.PosixFile
import PassionProjects.PebbleDB.Util.PosixFileSpec

namespace PassionProjects.PebbleDB.Manifest

open PassionProjects.Faults
open PassionProjects.Faults.Prog
open PassionProjects.FileSystem
open PassionProjects.FileSystem.Fs
open PassionProjects.PebbleDB.Util

/-- `LoadManifest`. -/
def loadManifest : M (Except Status ManifestData) := do
  let existing ← stat .manifest
  if existing.isNone then pure (.error (Status.NotFound "no manifest"))
  else do
    let contents ← readFile .manifest
    match contents with
    | .error s => pure (.error s)
    | .ok (.bytes b) =>
      match decodeManifest b with
      | .error ds => pure (.error (Status.Corruption ("manifest decode failed: " ++ ds.name)))
      | .ok data => pure (.ok data)
    | .ok _ => pure (.error (Status.Corruption "manifest decode failed: BadMagic"))

/-- `std::rename(MANIFEST.tmp, MANIFEST)`, the publish point. -/
def renameManifest (data : ManifestData) : M Bool :=
  atomically .rename fun w =>
    { w with fs := w.fs.rename .manifestTmp .manifest, published := w.published ++ [data] }

/-- The end of `SaveManifest`: the rename, and the directory fsync that makes it
    durable. -/
def publishManifest (data : ManifestData) : M (Status × Bool) := do
  let renamed ← renameManifest data
  if renamed then do
    let s ← syncDirectory .renamed
    pure (s, true)
  else pure (Status.IOError "rename failed", false)

/-- `SaveManifest`: its status and the value of `*published`. -/
def saveManifest (data : ManifestData) : M (Status × Bool) := do
  let opened ← openTruncate .manifestTmp
  match opened with
  | .error s => pure (s, false)
  | .ok file => do
    let s ← append file (encodeManifest data)
    if s.ok then do
      let s ← sync file
      if s.ok then publishManifest data else pure (s, false)
    else pure (s, false)

/-- A view with the manifest replaced. -/
def withManifest (data : ManifestData) (v : DbView) : DbView :=
  Function.update v .manifest (some (.bytes (encodeManifest data)))

/-- A property of views that does not look at MANIFEST.tmp. -/
def IgnoresTmp (P : DbView → Prop) : Prop :=
  ∀ u v : DbView, (∀ m, m ≠ .manifestTmp → v m = u m) → P u → P v

variable {pol : Policy FsOp World} {w w' : World} {data : ManifestData} {P : DbView → Prop}

/-- The manifest was renamed into place; `P` held of every possible view before. -/
structure Renamed (mode : CrashMode) (data : ManifestData) (P : DbView → Prop) (w w' : World) :
    Prop where
  wf : w'.fs.WF
  homed : ∀ m, m ≠ .manifest → Homed w.fs m → Homed w'.fs m
  manifest : w'.fs.view .manifest = some (.bytes (encodeManifest data))
  dir : ∀ m, m ≠ .manifestTmp → m ≠ .manifest → w'.fs.dir m = w.fs.dir m
  view : ∀ m, m ≠ .manifestTmp → m ≠ .manifest → w'.fs.view m = w.fs.view m
  link : ∀ m, m ≠ .manifestTmp → m ≠ .manifest → LinkSettled mode w.fs m → LinkSettled mode w'.fs m
  settled : ∀ m, m ≠ .manifestTmp → m ≠ .manifest → Settled mode w.fs m → Settled mode w'.fs m
  possible : ∀ v, Possible mode w'.fs v → P v ∨ ∃ u, P u ∧ v = withManifest data u
  logged : w'.logged = w.logged
  published : w'.published = w.published ++ [data]

/-- How `SaveManifest` ends. -/
structure Saved (mode : CrashMode) (pol : Policy FsOp World) (data : ManifestData)
    (P : DbView → Prop) (w w' : World) (s : Status) : Prop where
  renamed : Renamed mode data P w w'
  durable : s.ok = true ∨ mode = .process →
    ∀ v, Possible mode w'.fs v → v .manifest = some (.bytes (encodeManifest data))
  degraded : s.ok = false → ∃ w₁ k, w₁.published = w.published ++ [data] ∧
    pol w₁ (.fsyncDir .renamed) (.error k) = true

/-- The rename of a synced MANIFEST.tmp. -/
theorem renameManifest_renamed {mode : CrashMode} {i : FileId FileName} (hwf : w.fs.WF)
    (hh : Homed w.fs .manifestTmp) (hP : IgnoresTmp P)
    (hviews : ∀ v, Possible mode w.fs v → P v) (hi : w.fs.dir .manifestTmp = some i)
    (hdata : (w.fs.inodes i).data = .bytes (encodeManifest data))
    (hdur : (w.fs.inodes i).durable = (w.fs.inodes i).data) :
    Renamed mode data P w { w with
      fs := w.fs.rename .manifestTmp .manifest, published := w.published ++ [data] } where
  wf := hwf.rename (by decide) hi (hh _ (Or.inl rfl) i hi)
  homed m hm h := h.rename .manifestTmp hm
  manifest := by
    show (w.fs.rename _ _).view _ = _
    rw [view_rename hi, Function.update_self, hdata]
  dir m hm hm' := by
    show (w.fs.rename _ _).dir m = _
    simp [Fs.rename, hi, Fs.change, DirChange.apply, hm, hm']
  view m hm hm' := by
    show (w.fs.rename _ _).view _ = _
    rw [view_rename hi, Function.update_of_ne hm', Function.update_of_ne hm]
  link m hm hm' h := h.rename hm hm'
  settled m hm hm' h := h.rename hm hm'
  possible v hv := by
    obtain ⟨u, hu, rfl | ⟨y, hy, rfl⟩⟩ := possible_rename hi hv
    · exact Or.inl (hviews v hu)
    · have hy' : y = .bytes (encodeManifest data) :=
        (possibleData_synced hy (Or.inr hdur)).trans hdata
      refine Or.inr ⟨Function.update u .manifestTmp none, ?_, by rw [hy']; rfl⟩
      exact hP u _ (fun m hm => Function.update_of_ne hm _ _) (hviews u hu)
  logged := rfl
  published := rfl

theorem Renamed.syncDir {mode : CrashMode} (h : Renamed mode data P w w') :
    Renamed mode data P w (onFs Fs.syncDir w') where
  wf := h.wf.syncDir
  homed m hm hh := (h.homed m hm hh).syncDir
  manifest := h.manifest
  dir := h.dir
  view := h.view
  link m _ _ _ := linkSettled_syncDir m
  settled m hm hm' hs := (h.settled m hm hm' hs).syncDir
  possible v hv := h.possible v (possible_syncDir h.wf hv).1
  logged := h.logged
  published := h.published

/-- The publish of a synced MANIFEST.tmp. -/
theorem publishManifest_spec (mode : CrashMode) {i : FileId FileName} (hwf : w.fs.WF)
    (hh : Homed w.fs .manifestTmp) (hP : IgnoresTmp P)
    (hviews : ∀ v, Possible mode w.fs v → P v) (hi : w.fs.dir .manifestTmp = some i)
    (hdata : (w.fs.inodes i).data = .bytes (encodeManifest data))
    (hdur : (w.fs.inodes i).durable = (w.fs.inodes i).data) :
    wp pol (publishManifest data)
      (fun r w' => (r.2 = true ∧ Saved mode pol data P w w' r.1) ∨
        (r.2 = false ∧ r.1.ok = false ∧ w' = w ∧ MayFail pol .rename))
      (fun w' => w' = w ∨ Renamed mode data P w w') w := by
  have hren := renameManifest_renamed hwf hh hP hviews hi hdata hdur
  refine wp_bind (wp_atomically ?_ (fun k hk => ?_) (Or.inl rfl) (Or.inr hren))
  · rw [if_pos rfl]
    refine wp_bind (wp_syncDirectory ?_ (fun k hk => ?_) (Or.inr hren) (Or.inr hren.syncDir))
    · refine wp_pure.mpr (Or.inl ⟨rfl, hren.syncDir, fun _ v hv => ?_, fun h => ?_⟩)
      · -- every directory left shows the renamed file, whose contents were synced
        obtain ⟨-, c, hc, rfl⟩ := possible_syncDir hren.wf hv
        have hlink : (w.fs.rename .manifestTmp .manifest).dir .manifest = some i := by
          simp [Fs.rename, hi, Fs.change, DirChange.apply]
        have hinodes : (w.fs.rename .manifestTmp .manifest).inodes = w.fs.inodes := by
          simp [Fs.rename, hi, Fs.change]
        have hci : PossibleData mode ((w.fs.rename .manifestTmp .manifest).inodes i) (c i) := hc i
        rw [hinodes] at hci
        show Option.map c ((w.fs.rename .manifestTmp .manifest).dir .manifest) = _
        rw [hlink]
        exact congrArg some ((possibleData_synced hci (Or.inr hdur)).trans hdata)
      · exact absurd h (by simp)
    · refine wp_pure.mpr (Or.inl ⟨rfl, hren, fun h v hv => ?_, fun _ => ⟨_, k, rfl, hk⟩⟩)
      have hmode : mode = .process := h.resolve_left (by simp)
      subst hmode
      rw [possible_process hv]
      exact hren.manifest
  · exact wp_pure.mpr (Or.inr ⟨rfl, rfl, rfl, _, k, hk⟩)

theorem Renamed.after {mode : CrashMode} {w₁ : World} (ht : Touches mode .manifestTmp w w₁)
    (h : Renamed mode data P w₁ w') : Renamed mode data P w w' where
  wf := h.wf
  homed m hm hh := h.homed m hm (ht.fs.homed m hh)
  manifest := h.manifest
  dir m hm hm' := (h.dir m hm hm').trans (ht.fs.dir m hm)
  view m hm hm' := (h.view m hm hm').trans (ht.fs.view m hm)
  link m hm hm' hs := h.link m hm hm' (ht.fs.link m hm hs)
  settled m hm hm' hs := h.settled m hm hm' (ht.fs.settled m hm hs)
  possible := h.possible
  logged := h.logged.trans ht.logged
  published := by rw [h.published, ht.published]

theorem Saved.after {mode : CrashMode} {w₁ : World} {s : Status}
    (ht : Touches mode .manifestTmp w w₁) (h : Saved mode pol data P w₁ w' s) :
    Saved mode pol data P w w' s where
  renamed := h.renamed.after ht
  durable := h.durable
  degraded hs := by
    obtain ⟨w₂, k, hpub, hk⟩ := h.degraded hs
    exact ⟨w₂, k, by rw [hpub, ht.published], hk⟩

/-- `SaveManifest`, with `P` what every possible view satisfies before it. -/
theorem saveManifest_spec (mode : CrashMode) (hwf : w.fs.WF) (hh : Homed w.fs .manifestTmp)
    (hP : IgnoresTmp P) (hviews : ∀ v, Possible mode w.fs v → P v) :
    wp pol (saveManifest data)
      (fun r w' => (r.2 = true ∧ Saved mode pol data P w w' r.1) ∨
        (r.2 = false ∧ r.1.ok = false ∧ Touches mode .manifestTmp w w' ∧ ∃ o, MayFail pol o))
      (fun w' => Touches mode .manifestTmp w w' ∨ Renamed mode data P w w') w := by
  refine wp_bind (wp_mono (openTruncate_spec mode hwf hh) ?_ fun _ h => Or.inl h)
  rintro (s | file) w₁ ⟨ht₁, hr⟩
  · exact wp_pure.mpr (Or.inr ⟨rfl, hr.1, ht₁, hr.2.2.elim (fun h => ⟨_, h⟩) fun h => ⟨_, h⟩⟩)
  · obtain ⟨hpath, hdir₁, hview₁, -, -⟩ := hr
    have hh₁ := ht₁.fs.homed _ hh
    refine wp_bind (wp_mono (append_touches mode ht₁.fs.wf hh₁ hpath hdir₁ hview₁) ?_
      fun _ h => Or.inl (ht₁.trans h))
    rintro s w₂ ⟨ht₂, hdir₂, ⟨hs, hview₂⟩ | ⟨hs, hfail⟩⟩
    · have ht₂ := ht₁.trans ht₂
      have hdir₂' : w₂.fs.dir .manifestTmp = some file.fd := by rw [hdir₂]; exact hdir₁
      rw [if_pos hs]
      refine wp_bind (wp_mono (sync_spec mode ht₂.fs.wf hpath hdir₂') ?_
        fun _ h => Or.inl (ht₂.trans h.1))
      rintro s w₃ ⟨ht₃, hview₃, hdir₃, -, -, ⟨hs, -, hdur⟩ | ⟨hs, hfail⟩⟩
      · have ht₃ := ht₂.trans ht₃
        have hdir₃' : w₃.fs.dir .manifestTmp = some file.fd := by rw [hdir₃]; exact hdir₂'
        have hdata : (w₃.fs.inodes file.fd).data = .bytes (encodeManifest data) := by
          have hview := (congrFun hview₃ .manifestTmp).trans hview₂
          simpa [Fs.view, hdir₃'] using hview
        rw [if_pos hs]
        refine wp_mono (publishManifest_spec mode ht₃.fs.wf (ht₃.fs.homed _ hh) hP
          (ht₃.fs.forall_possible hP hviews) hdir₃' hdata hdur) ?_ ?_
        · rintro r w' (⟨hr, hsaved⟩ | ⟨hr, hs, rfl, hfail⟩)
          · exact Or.inl ⟨hr, hsaved.after ht₃⟩
          · exact Or.inr ⟨hr, hs, ht₃, _, hfail⟩
        · rintro w' (rfl | hren)
          · exact Or.inl ht₃
          · exact Or.inr (hren.after ht₃)
      · rw [if_neg (by rw [hs]; simp)]
        exact wp_pure.mpr (Or.inr ⟨rfl, hs, ht₂.trans ht₃, _, hfail⟩)
    · rw [if_neg (by rw [hs]; simp)]
      exact wp_pure.mpr (Or.inr ⟨rfl, hs, ht₁.trans ht₂, _, hfail⟩)

/-- `LoadManifest` when there is no manifest. -/
theorem loadManifest_none {C : World → Prop} (h : w.fs.view .manifest = none) :
    wp pol loadManifest
      (fun r w' => w' = w ∧ ∃ s, r = .error s ∧ s.isNotFound = true) C w := by
  refine wp_bind (wp_stat ?_)
  rw [h]
  exact wp_pure.mpr ⟨rfl, _, rfl, rfl⟩

/-- `LoadManifest` of a manifest that was encoded within the table bound. -/
theorem loadManifest_some {C : World → Prop} (hC : C w)
    (h : w.fs.view .manifest = some (.bytes (encodeManifest data)))
    (hcount : data.tables.length ≤ kMaxTableCount.toNat) :
    wp pol loadManifest
      (fun r w' => w' = w ∧ (r = .ok data ∨
        ∃ s, r = .error s ∧ s.isNotFound = false ∧ MayFail pol (.openRead .manifest))) C w := by
  refine wp_bind (wp_stat ?_)
  rw [h]
  refine wp_bind (wp_mono (readFile_spec hC) ?_ fun _ => id)
  rintro (s | contents) w' ⟨rfl, hr⟩
  · refine wp_pure.mpr ⟨rfl, Or.inr ⟨s, rfl, hr.2.1, hr.2.2.resolve_left (by rw [h]; simp)⟩⟩
  · obtain rfl : contents = .bytes (encodeManifest data) :=
      Option.some.inj (hr.symm.trans h)
    simp only [decodeManifest_encodeManifest data hcount]
    exact wp_pure.mpr ⟨rfl, Or.inl rfl⟩

end PassionProjects.PebbleDB.Manifest
