import Pintos.Userprog.FdTable

/-!
# What the system calls on files keep

Every file that a process has open is in one slot of one table, so that nothing is closed twice
(`Calls.Ok`).  The steps keep this as long as `syscall_open` finds an element of `fd_tab` for the
new descriptor; then the descriptors denote what they were given for, and no assertion fails but
those on sizes and positions that are negative as an `off_t`.
-/

set_option autoImplicit false

namespace Pintos

open Function List

namespace Fs

/-! ## The file system with its owners -/

variable {fs : Fs} {own : Nat → Prop} {f : Nat}

section

variable (h : fs.SoundFor own)

include h

theorem SoundFor.mono {own' : Nat → Prop} (hsub : ∀ f, own' f → own f) : fs.SoundFor own' :=
  h.sound.soundFor fun f hf ↦ (h.user f (hsub f hf)).imp fun _ hv ↦ ⟨hsub f hf, hv⟩

theorem SoundFor.setOracle (oracle : List Bool) : SoundFor { fs with oracle } own :=
  ⟨h.sound.setOracle oracle, h.user⟩

/-- A result in which the owned files are as before. -/
theorem SoundFor.of_sound {fs' : Fs}
    (hs : fs'.Sound [] fun f v ↦ own f ∧ fs.UserFile f v) : fs'.SoundFor own :=
  hs.soundFor fun f hf ↦ (h.user f hf).imp fun _ hv ↦ ⟨hf, hv⟩

theorem SoundFor.open (name : List UInt8) : Returns (fs.filesysOpen name) fun r ↦
      (∀ f, r.1 = some f → ¬ own f ∧ r.2.SoundFor fun g ↦ g = f ∨ own g) ∧
      (r.1 = none → r.2.SoundFor own) := by
  refine (filesysOpen_spec h.sound).mono fun r hr ↦ ⟨fun f hf ↦ ?_, fun hnone ↦ ?_⟩
  · obtain ⟨hnew, t, hs⟩ := hr.1 f hf
    refine ⟨fun hown ↦ ?_, hs.soundFor ?_⟩
    · obtain ⟨v, hv⟩ := h.user f hown
      exact hnew v ⟨hown, hv⟩
    · rintro g (rfl | hg)
      · obtain ⟨v, hv⟩ := exists_shows r.2.device t
        exact ⟨v, .inl ⟨rfl, hv⟩⟩
      · exact (h.user g hg).imp fun v hv ↦ .inr ⟨hg, hv⟩
  · exact h.of_sound (hr.2 hnone)

theorem SoundFor.read (hf : own f) (buffer : Buffer) (size : Int) :
    Returns (fs.fileRead f buffer size) fun r ↦ r.2.2.SoundFor own := by
  obtain ⟨v, hv⟩ := h.user f hf
  have hown : own f ∧ fs.UserFile f v := ⟨hf, hv⟩
  obtain ⟨file, _, hfile, -⟩ := hv
  exact (fileRead_spec h.sound hown hfile buffer size).mono fun r hr ↦ h.of_sound hr.1

theorem SoundFor.write (hf : own f) (buffer : Buffer) (size : Int) :
    Returns (fs.fileWrite f buffer size) fun r ↦ r.2.SoundFor own := by
  obtain ⟨v, hv⟩ := h.user f hf
  have hown : own f ∧ fs.UserFile f v := ⟨hf, hv⟩
  obtain ⟨file, _, hfile, -⟩ := hv
  refine (fileWrite_spec h.sound hown hfile buffer size).mono fun r hr ↦ hr.soundFor fun g hg ↦ ?_
  obtain ⟨w, hw⟩ := h.user g hg
  by_cases hsh : fs.Shares f g
  · exact ⟨_, w, ⟨hg, hw⟩, .inl ⟨hsh, rfl⟩⟩
  · exact ⟨w, w, ⟨hg, hw⟩, .inr ⟨hsh, rfl⟩⟩

theorem SoundFor.seek (hf : own f) {pos : Int} (hpos : 0 ≤ pos) :
    Returns (fs.fileSeek f pos) fun fs' ↦ fs'.SoundFor own := by
  obtain ⟨v, hv⟩ := h.user f hf
  exact (fileSeek_spec h.sound ⟨hf, hv⟩ hpos).mono fun fs' hs ↦ h.of_sound hs

theorem SoundFor.denyWrite (hf : own f) :
    Returns (fs.fileDenyWrite f) fun fs' ↦ fs'.SoundFor own := by
  obtain ⟨v, hv⟩ := h.user f hf
  exact (fileDenyWrite_spec h.sound ⟨hf, hv⟩).mono fun fs' hs ↦ h.of_sound hs

theorem SoundFor.close (hf : own f) :
    Returns (fs.fileClose (some f)) fun fs' ↦ fs'.SoundFor fun g ↦ own g ∧ g ≠ f := by
  obtain ⟨v, hv⟩ := h.user f hf
  refine (fileClose_spec h.sound ⟨hf, hv⟩).mono fun fs' hs ↦ hs.soundFor fun g hg ↦ ?_
  exact (h.user g hg.1).imp fun w hw ↦ ⟨⟨hg.1, hw⟩, hg.2⟩

/-- `file_close`, also of a null pointer. -/
theorem SoundFor.closeSlot {file : Option Nat} (hf : ∀ f, file = some f → own f) :
    Returns (fs.fileClose file) fun fs' ↦ fs'.SoundFor fun g ↦ own g ∧ file ≠ some g := by
  cases file with
  | none => exact .pure (h.mono fun g hg ↦ hg.1)
  | some f =>
    refine (h.close (hf f rfl)).mono fun fs' hs ↦ hs.mono fun g hg ↦ ⟨hg.1, fun heq ↦ ?_⟩
    exact hg.2 (heq ▸ rfl)

/-- Files that are owned are closed one after the other, each of them once. -/
theorem SoundFor.closeAll {files : List (Option Nat)}
    (hown : ∀ f, some f ∈ files → own f) (hnodup : (files.filterMap id).Nodup) :
    Returns (Pintos.closeAll fs files) fun fs' ↦ fs'.SoundFor fun g ↦ own g ∧ some g ∉ files := by
  induction files generalizing fs own with
  | nil => exact .pure (h.mono fun g hg ↦ hg.1)
  | cons file files ih =>
    refine Returns.bind (h.closeSlot fun f hf ↦ hown f (hf ▸ mem_cons_self)) fun fs1 h1 ↦ ?_
    have hrest : ∀ f, some f ∈ files → own f ∧ file ≠ some f := by
      intro f hf
      refine ⟨hown f (mem_cons_of_mem _ hf), ?_⟩
      rintro rfl
      exact (nodup_cons.mp hnodup).1 (mem_filterMap.mpr ⟨some f, hf, rfl⟩)
    have hnodup' : (files.filterMap id).Nodup := by
      cases file with
      | none => exact hnodup
      | some f => exact (nodup_cons.mp hnodup).2
    refine (ih h1 hrest hnodup').mono fun fs' hs ↦ hs.mono fun g hg ↦ ⟨⟨hg.1, ?_⟩, ?_⟩
    · exact fun heq ↦ hg.2 (heq ▸ mem_cons_self)
    · exact fun hmem ↦ hg.2 (mem_cons_of_mem _ hmem)

end

end Fs

/-! ## The tables -/

/-- What holds of a process. -/
structure Process.Ok (p : Process) : Prop where
  two_le : 2 ≤ p.table.fdNum
  le : p.table.fdNum ≤ 128
  /-- A file is in a slot that has been given out, or is the executable. -/
  slot : ∀ i f, p.table.slots i = some f → 2 ≤ i ∧ i < p.table.fdNum ∨ i = execSlot
  inj : ∀ i i' f, p.table.slots i = some f → p.table.slots i' = some f → i = i'
  issued : ∀ fd f, (fd, f) ∈ p.issued → 2 ≤ fd ∧ fd < p.table.fdNum
  nodup : (p.issued.map Prod.fst).Nodup
  denotes : ∀ fd f, (fd, f) ∈ p.issued → fd ∉ p.closed → p.table.slots fd = some f
  touched : ∀ i ∈ p.touched, i < 128

variable {f : Nat}

namespace Process.Ok

variable {p : Process}

/-- What `process_exit` closes are the files of the table, each of them once. -/
theorem nodup_exitCloses (hp : p.Ok) : (p.table.exitCloses.filterMap id).Nodup := by
  have hindices : p.table.exitCloses =
      ((range' 2 (p.table.fdNum - 2)).reverse ++ [execSlot]).map p.table.slots := by
    rw [map_append, FdTable.exitCloses, map_singleton]
  rw [hindices, filterMap_map, Function.id_comp]
  refine Nodup.filterMap (fun i i' f hi hi' ↦ hp.inj i i' f hi hi') ?_
  refine nodup_append.mpr ⟨nodup_reverse.mpr nodup_range',
    nodup_singleton _, ?_⟩
  intro i hi i' hi'
  obtain rfl := mem_singleton.mp hi'
  have hlt := (mem_range'_1.mp (mem_reverse.mp hi)).2
  have := hp.two_le
  have := hp.le
  simp only [execSlot]
  omega

theorem mem_exitCloses (hp : p.Ok) :
    some f ∈ p.table.exitCloses ↔ ∃ i, p.table.slots i = some f := by
  simp only [FdTable.exitCloses, mem_append, mem_map, mem_reverse, mem_range'_1,
    mem_singleton]
  constructor
  · rintro (⟨i, -, hi⟩ | hi)
    · exact ⟨i, hi⟩
    · exact ⟨execSlot, hi.symm⟩
  · rintro ⟨i, hi⟩
    rcases hp.slot i f hi with hlt | rfl
    · exact .inl ⟨i, by omega, hi⟩
    · exact .inr hi.symm

end Process.Ok

namespace Calls

variable {s s' : Calls} {pid : Nat} {p p' : Process} {fs : Fs} {fd : Int32} {oracle : List Bool}

/-- A process has the file in its table. -/
def Owns (s : Calls) (f : Nat) : Prop :=
  ∃ pid p i, s.procs pid = some p ∧ p.table.slots i = some f

/-- Every file that is open is in one slot of one table. -/
structure Ok (s : Calls) : Prop where
  fs : s.fs.SoundFor s.Owns
  proc : ∀ pid p, s.procs pid = some p → p.Ok
  apart : ∀ pid pid' p p' i i' f, s.procs pid = some p → s.procs pid' = some p' →
    p.table.slots i = some f → p'.table.slots i' = some f → pid = pid'

theorem owns_set {new : Option Process} : (s.set pid fs new).Owns f ↔
    (∃ p i, new = some p ∧ p.table.slots i = some f) ∨
      ∃ pid' p i, pid' ≠ pid ∧ s.procs pid' = some p ∧ p.table.slots i = some f := by
  constructor
  · rintro ⟨pid', p, i, hp, hi⟩
    by_cases hpid : pid' = pid
    · rw [hpid, procs_set, update_self] at hp
      exact .inl ⟨p, i, hp, hi⟩
    · rw [procs_set, update_of_ne hpid] at hp
      exact .inr ⟨pid', p, i, hpid, hp, hi⟩
  · rintro (⟨p, i, rfl, hi⟩ | ⟨pid', p, i, hpid, hp, hi⟩)
    · exact ⟨pid, p, i, update_self .., hi⟩
    · exact ⟨pid', p, i, (update_of_ne hpid ..).trans hp, hi⟩

/-- One process changes: what it has in its table it had before, or nobody had. -/
theorem Ok.set {new : Option Process} (h : s.Ok) (hnew : ∀ p, new = some p → p.Ok)
    (hfs : fs.SoundFor (s.set pid fs new).Owns)
    (hslot : ∀ p i f, new = some p → p.table.slots i = some f →
      (∃ p i, s.procs pid = some p ∧ p.table.slots i = some f) ∨ ¬ s.Owns f) :
    (s.set pid fs new).Ok := by
  have hother : ∀ {pid1 p1 p2 i1 i2 f}, new = some p2 → p2.table.slots i2 = some f → pid1 ≠ pid →
      s.procs pid1 = some p1 → p1.table.slots i1 = some f → False := by
    intro pid1 p1 p2 i1 i2 f hp2 hi2 hne hp1 hi1
    rcases hslot p2 i2 f hp2 hi2 with ⟨p, i, hp, hi⟩ | hno
    · exact hne (h.apart _ _ _ _ _ _ f hp1 hp hi1 hi)
    · exact hno ⟨pid1, p1, i1, hp1, hi1⟩
  refine ⟨hfs, fun pid1 p1 hp1 ↦ ?_, fun pid1 pid2 p1 p2 i1 i2 f hp1 hp2 hi1 hi2 ↦ ?_⟩
  · by_cases hpid : pid1 = pid
    · rw [hpid, procs_set, update_self] at hp1
      exact hnew p1 hp1
    · rw [procs_set, update_of_ne hpid] at hp1
      exact h.proc pid1 p1 hp1
  · by_cases h1 : pid1 = pid <;> by_cases h2 : pid2 = pid
    · rw [h1, h2]
    · rw [h1, procs_set, update_self] at hp1
      rw [procs_set, update_of_ne h2] at hp2
      exact (hother hp1 hi1 h2 hp2 hi2).elim
    · rw [h2, procs_set, update_self] at hp2
      rw [procs_set, update_of_ne h1] at hp1
      exact (hother hp2 hi2 h1 hp1 hi1).elim
    · rw [procs_set, update_of_ne h1] at hp1
      rw [procs_set, update_of_ne h2] at hp2
      exact h.apart _ _ _ _ _ _ f hp1 hp2 hi1 hi2

theorem index_lt (t : FdTable) : ∀ i ∈ index t fd, 2 ≤ i ∧ i < t.fdNum := by
  intro i hi
  unfold index at hi
  split at hi
  · next hv =>
    obtain rfl := mem_singleton.mp hi
    simp only [FdTable.valid, Bool.and_eq_true, decide_eq_true_eq] at hv
    omega
  · cases hi

section

variable (hp : s.procs pid = some p)

include hp

/-- A call that leaves the table as it is. -/
theorem Ok.setProc (h : s.Ok) (hp' : p'.Ok)
    (htable : p'.table = p.table) (hfs : fs.SoundFor s.Owns) : (s.set pid fs (some p')).Ok := by
  refine h.set ?_ (hfs.mono fun f hf ↦ ?_) ?_
  · rintro _ ⟨⟩
    exact hp'
  · rcases owns_set.mp hf with ⟨_, i, ⟨⟩, hi⟩ | ⟨pid', p', i, -, hp', hi⟩
    · exact ⟨pid, p, i, hp, htable ▸ hi⟩
    · exact ⟨pid', p', i, hp', hi⟩
  · rintro _ i f ⟨⟩ hi
    exact .inl ⟨p, i, hp, htable ▸ hi⟩

theorem Ok.same (h : s.Ok) (hfs : fs.SoundFor s.Owns) : (s.set pid fs (some p)).Ok :=
  h.setProc hp (h.proc pid p hp) rfl hfs

theorem Ok.touch (h : s.Ok) (hfs : fs.SoundFor s.Owns) :
    (s.set pid fs (some { p with touched := index p.table fd ++ p.touched })).Ok := by
  have hok := h.proc pid p hp
  refine h.setProc hp { hok with touched := fun i hi ↦ ?_ } rfl hfs
  rcases mem_append.mp hi with hi | hi
  · exact Nat.lt_of_lt_of_le (index_lt p.table i hi).2 hok.le
  · exact hok.touched i hi

/-- What `get_file` returns is in the table. -/
theorem Ok.owns_getFile (hf : p.table.getFile fd = some f) :
    s.Owns f := by
  unfold FdTable.getFile at hf
  split at hf
  · exact ⟨pid, p, _, hp, hf⟩
  · cases hf

end

/-! ## The calls -/

/-- There is an element of `fd_tab` for a descriptor that `syscall_open` may return. -/
def FdFits (s : Calls) (a : List Bool × FileAct) : Prop :=
  match a.2 with
  | .call pid (.open _) => ∀ p ∈ s.procs pid, p.table.fdNum < 128
  | _ => True

instance (s : Calls) (a : List Bool × FileAct) : Decidable (FdFits s a) := by
  unfold FdFits
  split <;> infer_instance

/-- The size of a new file and the position in an open one are not negative as an `off_t`. -/
def SizeFits (s : Calls) (a : List Bool × FileAct) : Prop :=
  match a.2 with
  | .call _ (.create _ initSize) => initSize.toNat < 2 ^ 31
  | .call pid (.seek fd pos) =>
    pos.toNat < 2 ^ 31 ∨ ∀ p ∈ s.procs pid, p.table.getFile fd = none
  | _ => True

instance (s : Calls) (a : List Bool × FileAct) : Decidable (SizeFits s a) := by
  unfold SizeFits
  split <;> infer_instance

/-- `syscall_open` gives a new file the next descriptor. -/
theorem Ok.issue (h : s.Ok) (hp : s.procs pid = some p) (hlt : p.table.fdNum < 128)
    (hnew : ¬ s.Owns f) (hfs : fs.SoundFor fun g ↦ g = f ∨ s.Owns g) :
    (s.set pid fs (some { p with
      table := ⟨p.table.fdNum + 1, update p.table.slots p.table.fdNum (some f)⟩
      issued := (p.table.fdNum, f) :: p.issued
      touched := p.table.fdNum :: p.touched })).Ok := by
  have hok := h.proc pid p hp
  have hold : ∀ i g, update p.table.slots p.table.fdNum (some f) i = some g →
      i = p.table.fdNum ∧ g = f ∨ i ≠ p.table.fdNum ∧ p.table.slots i = some g := by
    intro i g hi
    by_cases hid : i = p.table.fdNum
    · rw [hid, update_self] at hi
      exact .inl ⟨hid, (Option.some.inj hi).symm⟩
    · rw [update_of_ne hid] at hi
      exact .inr ⟨hid, hi⟩
  refine h.set ?_ (hfs.mono fun g hg ↦ ?_) ?_
  · rintro _ ⟨⟩
    have htwo := hok.two_le
    refine ⟨?_, ?_, fun i g hi ↦ ?_, fun i i' g hi hi' ↦ ?_, fun fd g hmem ↦ ?_, ?_,
      fun fd g hmem hno ↦ ?_, fun i hi ↦ ?_⟩
    · dsimp only
      omega
    · dsimp only
      omega
    · dsimp only
      rcases hold i g hi with ⟨rfl, -⟩ | ⟨-, hi⟩
      · omega
      · have := hok.slot i g hi
        omega
    · rcases hold i g hi with ⟨rfl, rfl⟩ | ⟨-, hi⟩ <;>
        rcases hold i' _ hi' with ⟨rfl, hg⟩ | ⟨-, hi'⟩
      · rfl
      · exact absurd ⟨pid, p, i', hp, hi'⟩ hnew
      · exact absurd ⟨pid, p, i, hp, hg ▸ hi⟩ hnew
      · exact hok.inj i i' g hi hi'
    · dsimp only
      rcases mem_cons.mp hmem with heq | hmem
      · cases heq
        omega
      · have := hok.issued fd g hmem
        omega
    · refine nodup_cons.mpr ⟨fun hmem ↦ ?_, hok.nodup⟩
      obtain ⟨⟨fd, g⟩, hmem, heq⟩ := mem_map.mp hmem
      have := hok.issued fd g hmem
      dsimp only at heq
      omega
    · rcases mem_cons.mp hmem with heq | hmem
      · cases heq
        exact update_self ..
      · have hne : fd ≠ p.table.fdNum := Nat.ne_of_lt (hok.issued fd g hmem).2
        exact (update_of_ne hne ..).trans (hok.denotes fd g hmem hno)
    · rcases mem_cons.mp hi with rfl | hi
      · exact hlt
      · exact hok.touched i hi
  · rcases owns_set.mp hg with ⟨_, i, ⟨⟩, hi⟩ | ⟨pid', p', i, -, hp', hi⟩
    · rcases hold i g hi with ⟨-, rfl⟩ | ⟨-, hi⟩
      · exact .inl rfl
      · exact .inr ⟨pid, p, i, hp, hi⟩
    · exact .inr ⟨pid', p', i, hp', hi⟩
  · rintro _ i g ⟨⟩ hi
    rcases hold i g hi with ⟨-, rfl⟩ | ⟨-, hi⟩
    · exact .inr hnew
    · exact .inl ⟨p, i, hp, hi⟩

/-- `syscall_close` clears the slot. -/
theorem Ok.clear (h : s.Ok) (hp : s.procs pid = some p) (hv : p.table.valid fd = true)
    (hfs : fs.SoundFor fun g ↦ s.Owns g ∧ p.table.slots fd.toInt.toNat ≠ some g) :
    (s.set pid fs (some { p with
      table := p.table.clear fd.toInt.toNat
      closed := index p.table fd ++ p.closed
      touched := index p.table fd ++ p.touched })).Ok := by
  have hok := h.proc pid p hp
  have hindex : index p.table fd = [fd.toInt.toNat] := if_pos hv
  have hold : ∀ i g, (p.table.clear fd.toInt.toNat).slots i = some g →
      i ≠ fd.toInt.toNat ∧ p.table.slots i = some g := by
    intro i g hi
    by_cases hid : i = fd.toInt.toNat
    · rw [hid, FdTable.slots_clear, update_self] at hi
      cases hi
    · rw [FdTable.slots_clear, update_of_ne hid] at hi
      exact ⟨hid, hi⟩
  refine h.set ?_ (hfs.mono fun g hg ↦ ?_) ?_
  · rintro _ ⟨⟩
    refine ⟨hok.two_le, hok.le, fun i g hi ↦ hok.slot i g (hold i g hi).2,
      fun i i' g hi hi' ↦ hok.inj i i' g (hold i g hi).2 (hold i' g hi').2, hok.issued, hok.nodup,
      fun fd' g hmem hno ↦ ?_, fun i hi ↦ ?_⟩
    · rw [mem_append, hindex, mem_singleton, not_or] at hno
      rw [FdTable.slots_clear, update_of_ne hno.1]
      exact hok.denotes fd' g hmem hno.2
    · rcases mem_append.mp hi with hi | hi
      · exact Nat.lt_of_lt_of_le (index_lt p.table i hi).2 hok.le
      · exact hok.touched i hi
  · rcases owns_set.mp hg with ⟨_, i, ⟨⟩, hi⟩ | ⟨pid', p', i, hne, hp', hi⟩
    · obtain ⟨hne, hi⟩ := hold i g hi
      exact ⟨⟨pid, p, i, hp, hi⟩, fun heq ↦ hne (hok.inj _ _ g hi heq)⟩
    · exact ⟨⟨pid', p', i, hp', hi⟩, fun heq ↦ hne (h.apart _ _ _ _ _ _ g hp' hp hi heq)⟩
  · rintro _ i g ⟨⟩ hi
    exact .inl ⟨p, i, hp, (hold i g hi).2⟩

/-- **A system call keeps the tables**, and does not panic. -/
theorem call_spec (h : s.Ok) (hp : s.procs pid = some p) (hfs : fs.SoundFor s.Owns)
    (c : FileCall) (hfd : FdFits s (oracle, .call pid c))
    (hsize : SizeFits s (oracle, .call pid c)) : Returns (s.call pid p fs c) Ok := by
  have hown : ∀ {fd f}, p.table.getFile fd = some f → s.Owns f := Ok.owns_getFile hp
  have hsame : ∀ {fs' : Fs}, fs'.SoundFor s.Owns → (s.set pid fs' (some p)).Ok := h.same hp
  cases c with
  | create file initSize =>
    have hlt : toInt32 initSize.toNat = initSize.toNat := toInt32_of_lt hsize
    have hsize : initSize.toNat < 2 ^ 31 := hsize
    refine Returns.bind (Fs.filesysCreate_spec hfs.sound (by omega) (by omega)) fun r hr ↦ ?_
    exact .pure (hsame (hfs.of_sound hr))
  | remove file =>
    refine Returns.bind (Fs.filesysRemove_spec hfs.sound) fun r hr ↦ ?_
    exact .pure (hsame (hfs.of_sound hr))
  | «open» file =>
    have hlt : p.table.fdNum < 128 := hfd p hp
    simp only [call, syscallOpen, bind_assoc]
    refine Returns.bind (hfs.open file) ?_
    rintro ⟨fp, fs'⟩ ⟨hsome, hnone⟩
    cases fp with
    | none => exact .pure (hsame (hnone rfl))
    | some fp =>
      obtain ⟨hnew, hfs'⟩ := hsome fp rfl
      have hadd : p.table.add fp =
          some ⟨p.table.fdNum + 1, update p.table.slots p.table.fdNum (some fp)⟩ := by
        simp only [FdTable.add, assert, if_pos (Nat.le_of_lt hlt)]
        rfl
      simp only [hadd, some_bind]
      exact .pure (h.issue hp hlt hnew hfs')
  | filesize fd =>
    have hret : Returns (syscallFilesize fs p.table fd) fun _ ↦ True := by
      unfold syscallFilesize
      split
      · exact .pure trivial
      · next f hf =>
        obtain ⟨v, hv⟩ := hfs.user f (hown hf)
        obtain ⟨n, hn⟩ := (Fs.fileLength_fileTell hfs.sound ⟨hown hf, hv⟩).1
        exact ⟨n, hn, trivial⟩
    exact Returns.bind hret fun _ _ ↦ .pure (h.touch hp hfs)
  | read fd buffer size keys =>
    have hret : Returns (syscallRead fs p.table fd buffer size keys) fun r ↦
        r.2.2.SoundFor s.Owns := by
      unfold syscallRead
      split
      · exact .pure hfs
      split
      · exact .pure hfs
      split
      · exact .pure hfs
      · next f hf => exact Returns.bind (hfs.read (hown hf) _ _) fun r hr ↦ .pure hr
    exact Returns.bind hret fun r hr ↦ .pure (h.touch hp hr)
  | write fd buffer size =>
    have hret : Returns (syscallWrite fs p.table fd buffer size) fun r ↦ r.2.SoundFor s.Owns := by
      unfold syscallWrite
      split
      · exact .pure hfs
      split
      · exact .pure hfs
      split
      · exact .pure hfs
      · next f hf => exact Returns.bind (hfs.write (hown hf) _ _) fun r hr ↦ .pure hr
    exact Returns.bind hret fun r hr ↦ .pure (h.touch hp hr)
  | seek fd pos =>
    have hret : Returns (syscallSeek fs p.table fd pos) fun fs' ↦ fs'.SoundFor s.Owns := by
      unfold syscallSeek
      split
      · exact .pure hfs
      · next f hf =>
        rcases hsize with hlt | hnone
        · have hpos : toInt32 pos.toNat = pos.toNat := toInt32_of_lt hlt
          exact hfs.seek (hown hf) (by omega)
        · cases (hnone p hp).symm.trans hf
    exact Returns.bind hret fun r hr ↦ .pure (h.touch hp hr)
  | tell fd =>
    have hret : Returns (syscallTell fs p.table fd) fun _ ↦ True := by
      unfold syscallTell
      split
      · exact .pure trivial
      · next f hf =>
        obtain ⟨v, hv⟩ := hfs.user f (hown hf)
        obtain ⟨n, hn⟩ := (Fs.fileLength_fileTell hfs.sound ⟨hown hf, hv⟩).2
        exact ⟨n, by simp [hn], trivial⟩
    exact Returns.bind hret fun _ _ ↦ .pure (h.touch hp hfs)
  | close fd =>
    simp only [call, syscallClose]
    split
    · next hv =>
      rw [bind_assoc]
      refine Returns.bind (hfs.closeSlot fun f hf ↦ ⟨pid, p, _, hp, hf⟩) fun fs' hfs' ↦ ?_
      exact .pure (h.clear hp hv hfs')
    · next hv =>
      have hindex : index p.table fd = [] := if_neg hv
      simp only [hindex, nil_append]
      exact .pure (hsame hfs)

/-- **A step keeps the tables**, and does not panic. -/
theorem step_spec (h : s.Ok) (a : List Bool × FileAct) (hfd : FdFits s a) (hsize : SizeFits s a) :
    Returns (s.step a) Ok := by
  obtain ⟨oracle, act⟩ := a
  have hfs := h.fs.setOracle oracle
  have hsame : ∀ {fs' : Fs}, fs'.SoundFor s.Owns → Ok { s with fs := fs' } :=
    fun hfs' ↦ ⟨hfs', h.proc, h.apart⟩
  cases act with
  | extract name size data =>
    dsimp only [step]
    split
    · exact .pure h
    next hneg =>
    refine Returns.bind (Fs.filesysCreate_spec hfs.sound (Int.not_lt.mp hneg) size.toInt_lt) ?_
    rintro ⟨_, fs1⟩ h1
    refine Returns.bind ((hfs.of_sound h1).open name) ?_
    rintro ⟨file, fs2⟩ ⟨hsome, hnone⟩
    cases file with
    | none => exact .pure (hsame (hnone rfl))
    | some file =>
      obtain ⟨hnew, h2⟩ := hsome file rfl
      refine Returns.bind (h2.write (.inl rfl) data size.toInt) fun r h3 ↦ ?_
      refine Returns.bind (h3.close (.inl rfl)) fun fs4 h4 ↦ .pure (hsame (h4.mono fun g hg ↦ ?_))
      exact ⟨.inr hg, fun heq ↦ hnew (heq ▸ hg)⟩
  | exec pid name =>
    dsimp only [step]
    split
    · exact .pure h
    next hp =>
    refine Returns.bind (hfs.open name) ?_
    rintro ⟨file, fs1⟩ ⟨hsome, hnone⟩
    cases file with
    | none => exact .pure (hsame (hnone rfl))
    | some file =>
      obtain ⟨hnew, h1⟩ := hsome file rfl
      refine Returns.bind (h1.denyWrite (.inl rfl)) fun fs2 h2 ↦ .pure ?_
      have hslot : ∀ i f, (FdTable.init file).slots i = some f → i = execSlot ∧ f = file := by
        intro i f hi
        dsimp only [FdTable.init] at hi
        by_cases hid : i = execSlot
        · rw [hid, update_self] at hi
          exact ⟨hid, (Option.some.inj hi).symm⟩
        · rw [update_of_ne hid] at hi
          cases hi
      refine h.set ?_ (h2.mono fun f hf ↦ ?_) ?_
      · rintro _ ⟨⟩
        exact ⟨Nat.le_refl 2, Nat.le_of_ble_eq_true rfl, fun i f hi ↦ .inr (hslot i f hi).1,
          fun i i' f hi hi' ↦ (hslot i f hi).1.trans (hslot i' f hi').1.symm, nofun, .nil, nofun,
          nofun⟩
      · rcases owns_set.mp hf with ⟨_, i, ⟨⟩, hi⟩ | ⟨pid', p', i, -, hp', hi⟩
        · exact .inl (hslot i f hi).2
        · exact .inr ⟨pid', p', i, hp', hi⟩
      · rintro _ i f ⟨⟩ hi
        exact .inr ((hslot i f hi).2 ▸ hnew)
  | load pid pos buffer size =>
    dsimp only [step]
    split
    · exact .pure h
    next p hp =>
    split
    · exact .pure h
    next file hfile =>
    have hown : s.Owns file := ⟨pid, p, _, hp, hfile⟩
    refine Returns.bind (hfs.seek hown (Int.natCast_nonneg pos)) fun fs1 h1 ↦ ?_
    exact Returns.bind (h1.read hown buffer size.toInt) fun r h2 ↦ .pure (hsame h2)
  | call pid c =>
    dsimp only [step]
    split
    · exact .pure h
    next p hp => exact call_spec h hp hfs c hfd hsize
  | exit pid =>
    dsimp only [step]
    split
    · exact .pure h
    next p hp =>
    have hok := h.proc pid p hp
    refine Returns.bind (hfs.closeAll (fun f hf ↦ ?_) hok.nodup_exitCloses) fun fs1 h1 ↦ .pure ?_
    · obtain ⟨i, hi⟩ := hok.mem_exitCloses.mp hf
      exact ⟨pid, p, i, hp, hi⟩
    · refine h.set nofun (h1.mono fun f hf ↦ ?_) nofun
      rcases owns_set.mp hf with ⟨_, _, hno, -⟩ | ⟨pid', p', i, hne, hp', hi⟩
      · cases hno
      · refine ⟨⟨pid', p', i, hp', hi⟩, fun hmem ↦ ?_⟩
        obtain ⟨i', hi'⟩ := hok.mem_exitCloses.mp hmem
        exact hne (h.apart _ _ _ _ _ _ f hp' hp hi hi')

/-- A step that returns keeps the tables, also when it was given a size that is negative. -/
theorem Ok.of_step {a : List Bool × FileAct} (h : s.Ok) (hfd : FdFits s a)
    (hs : s.step a = some s') : s'.Ok := by
  by_cases hsize : SizeFits s a
  · exact (step_spec h a hfd hsize).of_eq hs
  obtain ⟨oracle, act⟩ := a
  obtain ⟨pid, c, rfl⟩ : ∃ pid c, act = .call pid c := by
    cases act with
    | call pid c => exact ⟨pid, c, rfl⟩
    | _ => exact absurd trivial hsize
  dsimp only [step] at hs
  split at hs
  · cases hs
    exact h
  next p hp =>
  cases c with
  | create file initSize =>
    have hneg : toInt32 initSize.toNat < 0 := by
      have hlt := initSize.toNat_lt
      simp only [SizeFits, Nat.not_lt] at hsize
      exact toInt32_neg hsize hlt
    simp only [call, syscallCreate, bind_eq_some] at hs
    obtain ⟨r, hr, heq⟩ := hs
    cases heq
    have hfs := h.fs.setOracle oracle
    exact h.same hp (hfs.of_sound (Fs.filesysCreate_of_neg hfs.sound hneg hr))
  | seek fd pos =>
    simp only [SizeFits, not_or, Nat.not_lt] at hsize
    have hneg : toInt32 pos.toNat < 0 := toInt32_neg hsize.1 pos.toNat_lt
    cases hf : p.table.getFile fd with
    | none => exact absurd (fun p' hp' ↦ Option.some.inj (hp.symm.trans hp') ▸ hf) hsize.2
    | some f =>
      simp only [call, syscallSeek, hf, Fs.fileSeek, assert, if_neg (Int.not_le.mpr hneg)] at hs
      cases hs
  | _ => exact absurd trivial hsize

theorem boot_ok {device : Block} {oracle : List Bool} {garbage : Buffer}
    (hsmall : device.size < 2 ^ 32) (h : boot device oracle garbage = some s) : s.Ok := by
  simp only [boot, bind_eq_some] at h
  obtain ⟨fs, hinit, heq⟩ := h
  cases heq
  refine ⟨(Fs.filesysInit_sound hsmall hinit).soundFor ?_, nofun, nofun⟩
  rintro f ⟨_, _, _, hp, -⟩
  cases hp

/-! ## Runs -/

section Runs

variable {device : Block} {garbage : Buffer} {s₀ : Calls} {as : List (List Bool × FileAct)}

/-- **The system calls on files do not panic**: in every state that is reached while `syscall_open`
is called with `fd_num` below 128 only, each call returns, unless a file is to be created with a
size of 2³¹ or more or an open file is to be positioned there. -/
theorem calls_return {a : List Bool × FileAct} (hsmall : device.size < 2 ^ 32)
    (hboot : boot device oracle garbage = some s₀) (hfits : Run.Meets step FdFits s₀ as)
    (hrun : Run.run step s₀ as = some s) (hfd : FdFits s a) (hsize : SizeFits s a) :
    (s.step a).isSome := by
  have hs : s.Ok := Run.invariant (fun _ _ _ h hfd hs ↦ h.of_step hfd hs) (boot_ok hsmall hboot)
    hfits hrun
  exact (step_spec hs a hfd hsize).isSome

/-- A file is opened and positioned behind its end; then as much is read as an `unsigned` can
say. -/
theorem calls_return_read : ∃ s₀ s, boot ⟨16, fun _ _ ↦ 0⟩ [] (fun _ ↦ 0) = some s₀ ∧
    Run.run step s₀ [([], .extract [97] 10 fun _ ↦ 7), ([], .exec 0 [97]),
      ([], .call 0 (.open [97])), ([], .call 0 (.seek 2 2147483647))] = some s ∧
    (s.step ([], .call 0 (.read 2 (fun _ ↦ 0) 4294967295 fun _ ↦ 0))).isSome := by
  refine Run.exists_of_view₂ (fun s₀ _ ↦ decide (Run.Meets step FdFits s₀
      [([], .extract [97] 10 fun _ ↦ 7), ([], .exec 0 [97]), ([], .call 0 (.open [97])),
        ([], .call 0 (.seek 2 2147483647))])) true (by decide +kernel)
    fun s₀ s hboot hrun hfits ↦ ?_
  exact calls_return (by decide) hboot (of_decide_eq_true hfits) hrun trivial trivial

/-- A size or a position of 2³¹ is negative as an `off_t` and fails an assertion. -/
theorem calls_panic : ∃ s₀ s, boot ⟨16, fun _ _ ↦ 0⟩ [] (fun _ ↦ 0) = some s₀ ∧
    Run.run step s₀ [([], .extract [97] 0 fun _ ↦ 0), ([], .exec 0 [97]),
      ([], .call 0 (.open [97]))] = some s ∧ s.step ([], .call 0 (.create [98] 2147483648)) = none ∧
    s.step ([], .call 0 (.seek 2 2147483648)) = none := by
  refine Run.exists_of_view₂ (fun _ s ↦ ((s.step ([], .call 0 (.create [98] 2147483648))).isNone,
      (s.step ([], .call 0 (.seek 2 2147483648))).isNone)) (true, true) (by decide +kernel)
    fun s₀ s _ _ heval ↦ ?_
  simpa only [Prod.mk.injEq, Option.isNone_iff_eq_none] using heval

end Runs

end Calls

end Pintos
