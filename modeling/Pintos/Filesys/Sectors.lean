import Pintos.Logic.Run
import Pintos.Filesys.Format

/-!
# No two files share a sector

A file system that has been formatted is used through `filesys_create`, `filesys_open`,
`filesys_remove` and through the files that `filesys_open` has returned (`Session`).  Whatever is
done, and in whatever order, the sectors of the files that are listed or open stay apart and marked
(`Session.sectors_disjoint`), since the file system stays sound.  What is read through a file is
what was written through any file on its inode (`Session.read_after_writes`).

Whether `malloc` finds memory is part of an action, so the results hold whether it does or not.
-/

set_option autoImplicit false

namespace Pintos

/-- A call of the file system; an `off_t` is an `Int32`. -/
inductive FsCall where
  | create (name : List UInt8) (initialSize : Int32)
  | open (name : List UInt8)
  | remove (name : List UInt8)
  | read (file : Nat) (buffer : Buffer) (size : Int32)
  | write (file : Nat) (buffer : Buffer) (size : Int32)
  | close (file : Nat)

/-- The file system, and the files that have been opened and not yet closed. -/
structure Session where
  fs : Fs
  files : List Nat

variable {s s' : Session}

namespace Session

/-- A call, with the answers of `malloc` while it runs.  A call for a file that is not open is not
made. -/
def step (s : Session) (a : List Bool × FsCall) : Option Session :=
  let fs := { s.fs with oracle := a.1 }
  match a.2 with
  | .create name initialSize => do
    let (_, fs) ← fs.filesysCreate name initialSize.toInt
    return { s with fs }
  | .open name => do
    let (file, fs) ← fs.filesysOpen name
    return ⟨fs, file.toList ++ s.files⟩
  | .remove name => do
    let (_, fs) ← fs.filesysRemove name
    return { s with fs }
  | .read file buffer size =>
    if file ∈ s.files then do
      let (_, _, fs) ← fs.fileRead file buffer size.toInt
      return { s with fs }
    else some s
  | .write file buffer size =>
    if file ∈ s.files then do
      let (_, fs) ← fs.fileWrite file buffer size.toInt
      return { s with fs }
    else some s
  | .close file =>
    if file ∈ s.files then do
      let fs ← fs.fileClose (some file)
      return ⟨fs, s.files.erase file⟩
    else some s

/-- The device has been formatted. -/
def boot (device : Block) (oracle : List Bool) (garbage : Buffer) : Option Session := do
  return ⟨← Fs.filesysInit device oracle garbage, []⟩

/-! ## The invariant -/

/-- A file that is open, and what it shows. -/
def Holds (s : Session) (f : Nat) (v : Fs.View) : Prop := f ∈ s.files ∧ s.fs.UserFile f v

/-- The file system is sound, and the files that are open are there. -/
structure Ok (s : Session) : Prop where
  sound : s.fs.Sound [] s.Holds
  nodup : s.files.Nodup
  user : ∀ f ∈ s.files, ∃ v, s.fs.UserFile f v

/-- The call may change what `f` shows: it closes `f`, or writes to a file on the same inode. -/
def Affects (s : Session) (f : Nat) : FsCall → Prop
  | .write g _ _ => g ∈ s.files ∧ s.fs.Shares g f
  | .close g => g = f
  | _ => False

/-- What a step does to an open file. -/
structure Stepped (s : Session) (c : FsCall) (s' : Session) : Prop where
  ok : s'.Ok
  keeps : ∀ f v, s.Holds f v → ¬ s.Affects f c → s'.Holds f v

theorem Ok.of_sound {fs : Fs} {files : List Nat} {held : Nat → Fs.View → Prop}
    (h : fs.Sound [] held) (hnodup : files.Nodup) (hheld : ∀ f ∈ files, ∃ v, held f v) :
    Ok ⟨fs, files⟩ :=
  have hfor := h.soundFor hheld
  ⟨hfor.sound, hnodup, hfor.user⟩

/-- A call that leaves the open files alone. -/
theorem Stepped.of_sound {fs : Fs} (h : s.Ok) (hs : fs.Sound [] s.Holds)
    (c : FsCall) : Stepped s c { s with fs } := by
  refine ⟨.of_sound hs h.nodup fun f hf ↦ ?_, fun f v hf _ ↦ ⟨hf.1, hs.files f v hf⟩⟩
  obtain ⟨v, hv⟩ := h.user f hf
  exact ⟨v, hf, hv⟩

/-- **A step keeps the file system sound**, and what the open files show but for those that it
affects. -/
theorem step_spec (h : s.Ok) (a : List Bool × FsCall)
    (hsize : ∀ name size, a.2 = .create name size → 0 ≤ size.toInt) :
    Returns (s.step a) (Stepped s a.2) := by
  obtain ⟨oracle, c⟩ := a
  have hs := h.sound.setOracle oracle
  cases c with
  | create name size =>
    refine Returns.bind (Fs.filesysCreate_spec hs (hsize name size rfl) size.toInt_lt) ?_
    exact fun r hr ↦ .pure (.of_sound h hr _)
  | remove name =>
    refine Returns.bind (Fs.filesysRemove_spec hs) ?_
    exact fun r hr ↦ .pure (.of_sound h hr _)
  | «open» name =>
    refine Returns.bind (Fs.filesysOpen_spec hs) ?_
    rintro ⟨file, fs⟩ ⟨hsome, hnone⟩
    cases file with
    | none => exact .pure (.of_sound h (hnone rfl) _)
    | some file =>
      obtain ⟨hnew, t, hfs⟩ := hsome file rfl
      have hnot : file ∉ s.files := by
        intro hmem
        obtain ⟨v, hv⟩ := h.user file hmem
        exact hnew v ⟨hmem, hv⟩
      refine .pure ⟨.of_sound hfs (List.nodup_cons.mpr ⟨hnot, h.nodup⟩) fun f hf ↦ ?_, ?_⟩
      · rcases List.mem_cons.mp hf with rfl | hf
        · obtain ⟨v, hv⟩ := Fs.exists_shows fs.device t
          exact ⟨v, .inl ⟨rfl, hv⟩⟩
        · obtain ⟨v, hv⟩ := h.user f hf
          exact ⟨v, .inr ⟨hf, hv⟩⟩
      · exact fun f v hf _ ↦ ⟨List.mem_cons_of_mem _ hf.1, hfs.files f v (.inr hf)⟩
  | read file buffer size =>
    dsimp only [step]
    split
    case isFalse => exact .pure (.of_sound h h.sound _)
    case isTrue hmem =>
    obtain ⟨v, hv⟩ := h.user file hmem
    have hholds : s.Holds file v := ⟨hmem, hv⟩
    obtain ⟨f, _, hfile, -⟩ := hv
    refine Returns.bind (Fs.fileRead_spec hs hholds hfile _ _) ?_
    exact fun r hr ↦ .pure (.of_sound h hr.1 _)
  | write file buffer size =>
    dsimp only [step]
    split
    case isFalse => exact .pure (.of_sound h h.sound _)
    case isTrue hmem =>
    obtain ⟨v, hv⟩ := h.user file hmem
    have hholds : s.Holds file v := ⟨hmem, hv⟩
    obtain ⟨f, _, hfile, -⟩ := hv
    refine Returns.bind (Fs.fileWrite_spec hs hholds hfile _ _) ?_
    rintro ⟨n, fs⟩ hfs
    refine .pure ⟨.of_sound hfs h.nodup fun g hg ↦ ?_, fun g w hg hno ↦ ⟨hg.1, ?_⟩⟩
    · obtain ⟨w, hw⟩ := h.user g hg
      by_cases hsh : s.fs.Shares file g
      · exact ⟨_, w, ⟨hg, hw⟩, .inl ⟨hsh, rfl⟩⟩
      · exact ⟨w, w, ⟨hg, hw⟩, .inr ⟨hsh, rfl⟩⟩
    · exact hfs.files g w ⟨w, hg, .inr ⟨fun hsh ↦ hno ⟨hmem, hsh⟩, rfl⟩⟩
  | close file =>
    dsimp only [step]
    split
    case isFalse => exact .pure (.of_sound h h.sound _)
    case isTrue hmem =>
    obtain ⟨v, hv⟩ := h.user file hmem
    refine Returns.bind (Fs.fileClose_spec hs ⟨hmem, hv⟩) fun fs hfs ↦ ?_
    refine .pure ⟨.of_sound hfs (h.nodup.erase file) fun g hg ↦ ?_, fun g w hg hno ↦ ?_⟩
    · obtain ⟨hne, hg⟩ := h.nodup.mem_erase_iff.mp hg
      obtain ⟨w, hw⟩ := h.user g hg
      exact ⟨w, ⟨hg, hw⟩, hne⟩
    · have hne : g ≠ file := fun heq ↦ hno heq.symm
      exact ⟨h.nodup.mem_erase_iff.mpr ⟨hne, hg.1⟩, hfs.files g w ⟨hg, hne⟩⟩

/-! ## Runs -/

theorem boot_ok {device : Block} {oracle : List Bool} {garbage : Buffer}
    (hsmall : device.size < 2 ^ 32) (h : boot device oracle garbage = some s) : s.Ok := by
  simp only [boot, bind_eq_some] at h
  obtain ⟨fs, hinit, heq⟩ := h
  cases heq
  exact .of_sound (Fs.filesysInit_sound hsmall hinit) List.nodup_nil nofun

/-- A step that has been made. -/
theorem Stepped.of_step {a : List Bool × FsCall} (h : s.Ok)
    (hs : s.step a = some s') : Stepped s a.2 s' := by
  by_cases hsize : ∀ name size, a.2 = .create name size → 0 ≤ size.toInt
  · exact (step_spec h a hsize).of_eq hs
  · -- A create with a negative size that has returned all the same.
    obtain ⟨oracle, c⟩ := a
    push Not at hsize
    obtain ⟨name, size, rfl, hneg⟩ := hsize
    simp only [step, bind_eq_some] at hs
    obtain ⟨r, hr, heq⟩ := hs
    cases heq
    exact .of_sound h (Fs.filesysCreate_of_neg (h.sound.setOracle oracle) hneg hr) _

theorem Ok.of_run {as : List (List Bool × FsCall)} (h : s.Ok)
    (hrun : Run.run step s as = some s') : s'.Ok :=
  Run.invariant_of_step (fun _ _ _ h hs ↦ (Stepped.of_step h hs).ok) h hrun

/-- What an open file shows stays, as long as no step affects it. -/
theorem Holds.of_run {f : Nat} {v : Fs.View} {as : List (List Bool × FsCall)}
    (h : s.Ok) (hf : s.Holds f v)
    (has : Run.Meets step (fun s a ↦ ¬ s.Affects f a.2) s as) (hrun : Run.run step s as = some s') :
    s'.Holds f v := by
  refine (Run.invariant (I := fun s ↦ s.Ok ∧ s.Holds f v) ?_ ⟨h, hf⟩ has hrun).2
  rintro s a s' ⟨h, hf⟩ hno hs
  have hstep := Stepped.of_step h hs
  exact ⟨hstep.ok, hstep.keeps f v hf hno⟩

/-- **No two files share a sector.**  After any calls on a file system that has been formatted, the
sectors of the files that are listed or open, of the free map and of the root directory are apart
and marked.  The entries of the root directory that are in use name different inodes, neither of
them that of the free map or of the root directory, and none that has been removed; and an inode is
in memory at most once.  No assertion fails but that on the size of a new file; and whatever is read
through an open file, listed or removed, is what it showed before, unless it has been written to. -/
theorem sectors_disjoint {device : Block} {oracle : List Bool} {garbage : Buffer} {s₀ s : Session}
    {as : List (List Bool × FsCall)} (hsmall : device.size < 2 ^ 32)
    (hboot : boot device oracle garbage = some s₀) (hrun : Run.run step s₀ as = some s) :
    (∀ t t' x, s.fs.Live t → s.fs.Live t' → InFoot s.fs.device t x → InFoot s.fs.device t' x →
      t = t') ∧ (∀ t x, s.fs.Live t → InFoot s.fs.device t x → s.fs.freeMap.bit x = true) ∧
    DirOk s.fs.device ∧
    (∀ id inode, s.fs.inodes id = some inode → inode.removed = true →
      2 ≤ inode.sector ∧ ¬ Listed s.fs.device inode.sector) ∧
    (∀ id id' t, s.fs.At id t → s.fs.At id' t → id = id') ∧
    (∀ a, s.step a = none → ∃ name size, a.2 = .create name size ∧ size.toInt < 0) ∧
    ∀ f v bs s', s.Holds f v → Run.Meets step (fun s a ↦ ¬ s.Affects f a.2) s bs →
      Run.run step s bs = some s' → ∀ file, s'.fs.files f = some file → ∀ buffer size,
        Returns (s'.fs.fileRead f buffer size) fun r ↦
          ∀ i < r.1, r.2.1 i = v.bytes (file.pos + i) := by
  have h := (boot_ok hsmall hboot).of_run hrun
  refine ⟨h.sound.disk.disjoint, fun t x hl hx ↦ (h.sound.valid hl).marked x hx, h.sound.dir,
    h.sound.removed, ?_, fun a ha ↦ ?_, fun f v bs s' hf hno hrun' file hfile buffer size ↦ ?_⟩
  · rintro id id' t ⟨inode, hid, rfl⟩ ⟨inode', hid', hsector⟩
    exact h.sound.heap.inj id id' inode inode' hid hid' hsector.symm
  · by_contra hcon
    push Not at hcon
    obtain ⟨s', hs', -⟩ := step_spec h a hcon
    cases ha.symm.trans hs'
  · have hf' := hf.of_run h hno hrun'
    exact (Fs.fileRead_spec (h.of_run hrun').sound hf' hfile buffer size).mono fun r hr ↦ hr.2

/-- A file that is removed while it is open keeps its sectors when another one is created. -/
theorem sectors_disjoint_removed : ∃ s₀ s, boot ⟨16, fun _ _ ↦ 0⟩ [] (fun _ ↦ 0) = some s₀ ∧
    Run.run step s₀ [([], .create [97] 10), ([], .open [97]), ([], .remove [97]),
      ([], .create [98] 600)] = some s ∧ s.files = [7] ∧
    (∀ t t' x, s.fs.Live t → s.fs.Live t' → InFoot s.fs.device t x → InFoot s.fs.device t' x →
      t = t') ∧ DirOk s.fs.device := by
  refine Run.exists_of_view₂ (fun _ s ↦ s.files) [7] (by decide +kernel)
    fun s₀ s hboot hrun hfiles ↦ ?_
  obtain ⟨hdisjoint, -, hdir, -⟩ := sectors_disjoint (by decide) hboot hrun
  exact ⟨hfiles, hdisjoint, hdir⟩

/-! ## What is read -/

/-- What a call makes of the view `v` of `f`: a write through a file on the same inode stores as
many bytes as it returns, at the position of that file. -/
def Effect (s : Session) (f : Nat) (a : List Bool × FsCall) (v w : Fs.View) : Prop :=
  ¬ s.Affects f a.2 ∧ w = v ∨ s.Affects f a.2 ∧ ∃ g buffer size file r,
    a.2 = .write g buffer size ∧ s.fs.files g = some file ∧
    { s.fs with oracle := a.1 }.fileWrite g buffer size.toInt = some r ∧
    w = v.write file.pos r.1 buffer

/-- What the calls of a run make of it, one after the other. -/
def Effects (f : Nat) : Session → List (List Bool × FsCall) → Fs.View → Fs.View → Prop
  | _, [], u, w => w = u
  | s, a :: as, u, w => ∃ s' v, s.step a = some s' ∧ s.Effect f a u v ∧ Effects f s' as v w

theorem Ok.effect {a : List Bool × FsCall} {f : Nat} {v : Fs.View} (h : s.Ok) (hf : s.Holds f v)
    (hopen : a.2 ≠ .close f) (hs : s.step a = some s') : ∃ w, s.Effect f a v w ∧ s'.Holds f w := by
  by_cases haffects : s.Affects f a.2
  case neg => exact ⟨v, .inl ⟨haffects, rfl⟩, (Stepped.of_step h hs).keeps f v hf haffects⟩
  obtain ⟨oracle, c⟩ := a
  cases c with
  | close g => exact absurd (congrArg FsCall.close haffects) hopen
  | write g buffer size =>
    obtain ⟨hmem, hshares⟩ := id haffects
    obtain ⟨u, hu⟩ := h.user g hmem
    obtain ⟨file, _, hfile, -⟩ := id hu
    simp only [step, if_pos hmem, bind_eq_some] at hs
    obtain ⟨r, hr, heq⟩ := hs
    cases heq
    have hsound := (Fs.fileWrite_spec (h.sound.setOracle oracle) ⟨hmem, hu⟩ hfile _ _).of_eq hr
    exact ⟨_, .inr ⟨haffects, g, buffer, size, file, r, rfl, hfile, hr, rfl⟩, hf.1,
      hsound.files f _ ⟨v, hf, .inl ⟨hshares, rfl⟩⟩⟩
  | _ => exact haffects.elim

theorem Ok.effects {as : List (List Bool × FsCall)} {f : Nat} : ∀ {s : Session} {v : Fs.View},
    s.Ok → s.Holds f v → Run.Meets step (fun _ a ↦ a.2 ≠ .close f) s as →
      Run.run step s as = some s' → ∃ w, Effects f s as v w ∧ s'.Holds f w := by
  induction as with
  | nil =>
    rintro s v - hf - ⟨⟩
    exact ⟨v, rfl, hf⟩
  | cons a as ih =>
    intro s v h hf has hrun
    obtain ⟨s₁, hs, hrun⟩ := Run.run_cons.mp hrun
    obtain ⟨u, heffect, hf⟩ := h.effect hf has.1 hs
    obtain ⟨w, heffects, hw⟩ := ih (Stepped.of_step h hs).ok hf (has.2 s₁ hs) hrun
    exact ⟨w, ⟨s₁, u, hs, heffect, heffects⟩, hw⟩

/-- **A read returns what was written.**  While a file is open, the writes through all files on its
inode, in their order, make what is read through it, whatever else is called. -/
theorem read_after_writes {device : Block} {oracle : List Bool} {garbage : Buffer}
    {s₀ : Session} {as bs : List (List Bool × FsCall)} {f : Nat} {v : Fs.View}
    (hsmall : device.size < 2 ^ 32) (hboot : boot device oracle garbage = some s₀)
    (hrun : Run.run step s₀ as = some s) (hf : s.Holds f v)
    (hrun' : Run.run step s bs = some s')
    (hopen : Run.Meets step (fun _ a ↦ a.2 ≠ .close f) s bs) :
    ∃ w, Effects f s bs v w ∧ s'.Holds f w ∧ ∀ file, s'.fs.files f = some file → ∀ buffer size,
      Returns (s'.fs.fileRead f buffer size) fun r ↦
        ∀ i < r.1, r.2.1 i = w.bytes (file.pos + i) := by
  have h := (boot_ok hsmall hboot).of_run hrun
  obtain ⟨w, heffects, hw⟩ := h.effects hf hopen hrun'
  refine ⟨w, heffects, hw, fun file hfile buffer size ↦ ?_⟩
  exact (Fs.fileRead_spec (h.of_run hrun').sound hw hfile buffer size).mono fun r hr ↦ hr.2

/-- What is written through the file 7 is read through the file 9. -/
theorem read_after_writes_shared : ∃ s₀ s, boot ⟨16, fun _ _ ↦ 0⟩ [] (fun _ ↦ 0) = some s₀ ∧
    Run.run step s₀ [([], .create [97] 10), ([], .open [97]), ([], .open [97])] = some s ∧
    s.files = [9, 7] ∧ ∃ s' v w, Run.run step s [([], .write 7 (fun _ ↦ 1) 4)] = some s' ∧
      Effects 9 s [([], .write 7 (fun _ ↦ 1) 4)] v w ∧ s'.Holds 9 w := by
  refine Run.exists_of_view₂ (fun _ s ↦ s.files) [9, 7] (by decide +kernel)
    fun s₀ s hboot hrun hfiles ↦ ?_
  have h := (boot_ok (by decide) hboot).of_run hrun
  obtain ⟨v, hv⟩ := h.user 9 (by simp [hfiles])
  obtain ⟨s', hs, -⟩ := step_spec h ([], .write 7 (fun _ ↦ 1) 4) (by rintro _ _ ⟨⟩)
  have hrun' : Run.run step s [([], .write 7 (fun _ ↦ 1) 4)] = some s' :=
    Run.run_cons.mpr ⟨s', hs, rfl⟩
  obtain ⟨w, heffects, hw, -⟩ := read_after_writes (by decide) hboot hrun
    ⟨by simp [hfiles], hv⟩ hrun' ⟨by simp, fun _ _ ↦ trivial⟩
  exact ⟨hfiles, s', v, w, hrun', heffects, hw⟩

end Session

end Pintos
