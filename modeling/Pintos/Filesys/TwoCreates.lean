import Pintos.Filesys.CreateSteps

/-!
# Two creates at the same time

Two processes call `filesys_create`, with different names, and both calls return true.  If the calls
do not overlap, as they would not under the lock that the other system calls take, the files have
nothing in common and both are found (`creates_apart`).  If they overlap the files may be one:
`bitmap_scan` finds the same sector for both (`creates_collide`).
-/

set_option autoImplicit false

namespace Pintos

open List Option

namespace Fs

variable {fs fs' : Fs} {refs : List (Nat × Nat)} {held : Nat → View → Prop} {dir s t : Nat}
  {name : List UInt8}

/-! ## A create that returns true -/

/-- While writing to the directory is denied, `dir_add` does not return true. -/
theorem denyWriteCnt_of_dirAdd {inode : Inode} (hi : fs.inodes dir = some inode)
    (h : fs.dirAdd dir name s = some (true, fs')) : inode.denyWriteCnt = 0 := by
  rw [dirAdd] at h
  split at h
  · cases h
  simp only [lookup, bind_eq_some] at h
  obtain ⟨⟨found, fs1⟩, hlookup, h⟩ := h
  have hs1 := sameHeap_lookupLoop hlookup
  split at h
  · cases h
  simp only [bind_eq_some] at h
  obtain ⟨⟨ofs, buffer, fs2⟩, hslot, ⟨n, fs3⟩, hwrite, heq⟩ := h
  obtain ⟨_, _, _, rfl⟩ := hs1.trans (sameHeap_freeSlotLoop hslot)
  by_contra hdeny
  simp only [inodeWriteAt, hi, some_bind, if_pos hdeny] at hwrite
  cases hwrite
  cases heq

/-- `dir_add` to the root directory that returns true. -/
theorem Sound.dirAdd_true (h : Sound fs ((dir, rootDirSector) :: refs) held)
    (hmem : fs.oracle = []) (hname : 0 ∉ name) (hs : fs.Nameable s)
    (hadd : fs.dirAdd dir name s = some (true, fs')) :
    name ∉ fs.rootContents.map Prod.fst ∧ fs'.rootContents.Perm ((name, s) :: fs.rootContents) ∧
      Sound fs' ((dir, rootDirSector) :: refs) held ∧ fs'.oracle = [] := by
  have hdeny : ∀ root, fs.inodes dir = some root → root.denyWriteCnt = 0 :=
    fun root hroot ↦ denyWriteCnt_of_dirAdd hroot hadd
  obtain ⟨root, hroot, hdata⟩ := h.rootFile (h.ref _ mem_cons_self) hmem
  have hsmall : s < 2 ^ 32 := Nat.lt_trans hs.valid.sector h.disk.small
  have htakes : Takes fs.device (inodeAt fs.device rootDirSector) 16 name := by
    by_contra hnot
    rw [← hdata] at hnot
    cases ((hroot.dirAdd (hdeny _ hroot.opened) hsmall name).of_eq hadd).2 hnot
  obtain ⟨-, hsound, -, hmem', hperm, -⟩ := (h.dirAdd_takes hdeny hmem htakes hname hs).of_eq hadd
  exact ⟨htakes.2.2.1, hperm, hsound, hmem'⟩

/-- A file has been made in sector `t`. -/
structure NewFile (fs : Fs) (name : List UInt8) (t : Nat) (fs' : Fs) : Prop where
  absent : name ∉ fs.rootContents.map Prod.fst
  contents : fs'.rootContents.Perm ((name, t) :: fs.rootContents)
  new : ¬ Listed fs.device t

/-- **`filesys_create`** that returns true has made a file. -/
theorem Sound.filesysCreate_true {size : Int} (h : Sound fs refs held) (hmem : fs.oracle = [])
    (hname : 0 ∉ name) (hlt : size < 2 ^ 31) (hr : fs.filesysCreate name size = some (true, fs')) :
    Sound fs' refs held ∧ fs'.oracle = [] ∧ ∃ t, NewFile fs name t fs' := by
  simp only [filesysCreate, bind_eq_some] at hr
  obtain ⟨⟨_, fs1⟩, hopen, hr⟩ := hr
  obtain ⟨dir, heq, hq1, h1⟩ := (dirOpenRoot_quiet h hmem).of_eq hopen
  subst heq
  simp only [bind_eq_some] at hr
  obtain ⟨⟨sector, fs2⟩, hall, hr⟩ := hr
  have hmem2 := Steps.memory_freeMapAllocate (hq1.oracle.trans hmem) hall
  cases sector with
  | none => simp [bind_eq_some_iff] at hr
  | some t =>
  simp only [bind_eq_some] at hr
  obtain ⟨⟨created, fs3⟩, hcreate, hr⟩ := hr
  obtain ⟨hclear, hsame, hcreated⟩ := Steps.created_of_allocate h1 hlt hall hcreate
  have hmem3 := Steps.memory_inodeCreate hmem2 hcreate
  cases created with
  | false =>
    simp only [Bool.false_eq_true, if_false, some_bind] at hr
    split at hr <;> simp [bind_eq_some_iff] at hr
  | true =>
  simp only [if_true, bind_eq_some] at hr
  obtain ⟨⟨success, fs4⟩, hadd, hr⟩ := hr
  cases success with
  | false => split at hr <;> simp [bind_eq_some_iff] at hr
  | true =>
  obtain ⟨habsent, hperm, h4, hmem4⟩ := hcreated.sound.dirAdd_true hmem3 hname
    ⟨hcreated.valid rfl, hcreated.fresh rfl⟩ hadd
  simp only [Bool.not_true, Bool.false_and, Bool.false_eq_true, if_false, some_bind,
    bind_eq_some] at hr
  obtain ⟨fs5, hclose, heq⟩ := hr
  cases heq
  obtain ⟨hq5, h5⟩ := (dirClose_quiet h4).of_eq hclose
  -- Nothing before `dir_add` changes the root directory.
  have hcontents : fs3.rootContents = fs.rootContents := by
    rw [← hq1.rootContents]
    exact dirContents_congr fun k hk ↦ (hsame.trans h1 hcreated.same).rootEntry h1 hk
  rw [hcontents] at habsent hperm
  refine ⟨h5, hq5.oracle.trans hmem4, t, habsent, hq5.rootContents ▸ hperm, ?_⟩
  rw [← hq1.device]
  exact fun hl ↦ h1.fresh_of_unmarked hclear t (.inr (.inr (.inl hl))) (.inl rfl)

/-! ## Two of them -/

/-- The sector of the inode that `dir_lookup` finds in the root directory. -/
def lookupSector (fs : Fs) (name : List UInt8) : Option Nat := do
  let (dir, fs) ← fs.dirOpenRoot
  let (inode, fs) ← fs.dirLookup (← dir) name
  return (← fs.inodes (← inode)).sector

theorem Sound.lookupSector (h : Sound fs refs held) (hmemory : fs.oracle = [])
    (hmem : (name, t) ∈ fs.rootContents) (honce : ∀ t', (name, t') ∈ fs.rootContents → t' = t) :
    fs.lookupSector name = some t := by
  obtain ⟨⟨_, fs1⟩, hopen, dir, heq, hq1, h1⟩ := dirOpenRoot_quiet h hmemory
  subst heq
  rw [← hq1.rootContents] at hmem honce
  obtain ⟨⟨_, fs2⟩, hlookup, id, heq, -, h2⟩ :=
    dirLookup_listed h1 (hq1.oracle.trans hmemory) hmem honce
  dsimp only at heq h2
  subst heq
  obtain ⟨inode, hinode, hsector⟩ := h2.ref _ mem_cons_self
  simp only [Fs.lookupSector, hopen, hlookup, hinode, hsector, some_bind, Option.pure_def]

/-- The files have different inode sectors and no sector in common, and both are found. -/
structure Apart (fs : Fs) (name : Resumption.Side → List UInt8) (t : Resumption.Side → Nat) :
    Prop where
  ne : t .left ≠ t .right
  disjoint : ∀ x, InFoot fs.device (t .left) x → ¬ InFoot fs.device (t .right) x
  found : ∀ i, fs.lookupSector (name i) = some (t i)

theorem NewFile.mem (h : NewFile fs name t fs') : (name, t) ∈ fs'.rootContents :=
  h.contents.mem_iff.mpr mem_cons_self

/-- One file after the other. -/
theorem Sound.apart {fs'' : Fs} {name : Resumption.Side → List UInt8} {i : Resumption.Side}
    {t1 t2 : Nat} (h : Sound fs'' refs held) (hmem : fs''.oracle = [])
    (hne : name .left ≠ name .right) (h1 : NewFile fs (name i) t1 fs')
    (h2 : NewFile fs' (name i.other) t2 fs'') : ∃ t, Apart fs'' name t := by
  have hname : name i ≠ name i.other := by
    cases i with
    | left => exact hne
    | right => exact hne.symm
  have hmem1 : (name i, t1) ∈ fs''.rootContents :=
    h2.contents.mem_iff.mpr (mem_cons_of_mem _ h1.mem)
  -- The second file is in another sector, since the first one is listed by then.
  have ht : t1 ≠ t2 := fun heq ↦ h2.new (heq ▸ listed_of_mem h1.mem)
  have honce1 : ∀ t, (name i, t) ∈ fs''.rootContents → t = t1 := by
    intro t hin
    rcases mem_cons.mp (h2.contents.mem_iff.mp hin) with heq | hin
    · exact absurd (Prod.mk.inj heq).1 hname
    · rcases mem_cons.mp (h1.contents.mem_iff.mp hin) with heq | hin
      · exact (Prod.mk.inj heq).2
      · exact absurd (List.mem_map.mpr ⟨_, hin, rfl⟩) h1.absent
  have honce2 : ∀ t, (name i.other, t) ∈ fs''.rootContents → t = t2 := by
    intro t hin
    rcases mem_cons.mp (h2.contents.mem_iff.mp hin) with heq | hin
    · exact (Prod.mk.inj heq).2
    · exact absurd (List.mem_map.mpr ⟨_, hin, rfl⟩) h2.absent
  have hfound1 := h.lookupSector hmem hmem1 honce1
  have hfound2 := h.lookupSector hmem h2.mem honce2
  have hdisjoint : ∀ x, InFoot fs''.device t1 x → ¬ InFoot fs''.device t2 x := fun x hx1 hx2 ↦
    ht (h.disk.disjoint t1 t2 x (.inr (.inr (.inl (listed_of_mem hmem1))))
      (.inr (.inr (.inl (listed_of_mem h2.mem)))) hx1 hx2)
  cases i with
  | left =>
    refine ⟨Resumption.Side.rec t1 t2, ht, hdisjoint, fun j ↦ ?_⟩
    cases j with
    | left => exact hfound1
    | right => exact hfound2
  | right =>
    refine ⟨Resumption.Side.rec t2 t1, ht.symm, fun x hx2 hx1 ↦ hdisjoint x hx1 hx2,
      fun j ↦ ?_⟩
    cases j with
    | left => exact hfound2
    | right => exact hfound1

open Resumption in
/-- **Two creates that do not overlap do not collide.**  Each call moves only while the other one
has not begun or has returned. -/
theorem creates_apart {name : Side → List UInt8} {size : Side → Int} {schedule : List Side}
    {p : Pair Fs Bool} (h : Sound fs refs held) (hmem : fs.oracle = [])
    (hname : ∀ i, 0 ∉ name i) (hne : name .left ≠ name .right) (hlt : ∀ i, size i < 2 ^ 31)
    (halone : Run.Meets Pair.step Pair.Alone
      (Pair.start fs fun i ↦ Steps.filesysCreate (name i) (size i)) schedule)
    (hrun : Run.run Pair.step (Pair.start fs fun i ↦ Steps.filesysCreate (name i) (size i))
      schedule = some p)
    (htrue : ∀ i, (p.task i).result = some true) : ∃ t, Apart p.shared name t := by
  obtain ⟨i, m, hfirst, hsecond⟩ := Pair.serial (a := fun _ ↦ true) halone hrun htrue
  rw [Steps.run_filesysCreate h hmem (hlt i)] at hfirst
  obtain ⟨hm, hmem₁, t₁, h₁⟩ := h.filesysCreate_true hmem (hname i) (hlt i) hfirst
  rw [Steps.run_filesysCreate hm hmem₁ (hlt i.other)] at hsecond
  obtain ⟨hp, hmem₂, t₂, h₂⟩ := hm.filesysCreate_true hmem₁ (hname i.other) (hlt i.other) hsecond
  exact hp.apart hmem₂ hne h₁ h₂

/-- The names `a` and `b`. -/
def twoNames : Resumption.Side → List UInt8
  | .left => [97]
  | .right => [98]

/-- Two processes create files of one sector each. -/
def twoCreates (fs : Fs) : Resumption.Pair Fs Bool :=
  .start fs fun i ↦ Steps.filesysCreate (twoNames i) 512

open Resumption in
theorem creates_apart_newFilesys : ∃ fs p, filesysInit ⟨16, fun _ _ ↦ 0⟩ [] (fun _ ↦ 0) = some fs ∧
    Run.run Pair.step (twoCreates fs) (.replicate 122 .left ++ .replicate 127 .right) = some p ∧
    ∃ t, Apart p.shared twoNames t := by
  refine Run.exists_of_view₂ (fun fs p ↦ (fs.oracle, decide (Run.Meets Pair.step Pair.Alone
      (twoCreates fs) (.replicate 122 .left ++ .replicate 127 .right)), (p.task .left).result,
      (p.task .right).result)) ([], true, some true, some true) (by decide +kernel)
    fun fs p hinit hrun hp ↦ ?_
  simp only [Prod.mk.injEq, decide_eq_true_eq] at hp
  obtain ⟨hmem, halone, hleft, hright⟩ := hp
  refine creates_apart (filesysInit_sound (by decide) hinit) hmem ?_ (by decide)
    (fun _ ↦ by decide) halone hrun ?_
  · rintro (_ | _) <;> decide
  · rintro (_ | _)
    · exact hleft
    · exact hright

open Resumption in
/-- **The calls are not atomic.**  One process is preempted after `bitmap_scan` has found sector 4
for its inode and before `bitmap_set_multiple`, the other one creates its file there, and then the
first one overwrites it: both calls return true, and both names are those of one file. -/
theorem creates_collide : ∃ fs p, filesysInit ⟨16, fun _ _ ↦ 0⟩ [] (fun _ ↦ 0) = some fs ∧
    Run.run Pair.step (twoCreates fs)
      (.replicate 4 .left ++ .replicate 121 .right ++ .replicate 123 .left) = some p ∧
    (∀ i, (p.task i).result = some true) ∧
    (∀ i, p.shared.lookupSector (twoNames i) = some 4) ∧ ¬ ∃ t, Apart p.shared twoNames t := by
  refine Run.exists_of_view₂ (fun _ p ↦ [Side.left, Side.right].map fun i ↦
      ((p.task i).result, p.shared.lookupSector (twoNames i)))
    [(some true, some 4), (some true, some 4)] (by decide +kernel) fun fs p _ _ hp ↦ ?_
  have hall : ∀ i, (p.task i).result = some true ∧
      p.shared.lookupSector (twoNames i) = some 4 := by
    simp only [map_cons, map_nil, List.cons.injEq, Prod.mk.injEq, and_true] at hp
    rintro (_ | _)
    · exact hp.1
    · exact hp.2
  refine ⟨fun i ↦ (hall i).1, fun i ↦ (hall i).2, ?_⟩
  rintro ⟨t, ht⟩
  have hboth : ∀ i, t i = 4 := fun i ↦ Option.some.inj ((ht.found i).symm.trans (hall i).2)
  exact ht.ne ((hboth .left).trans (hboth .right).symm)

end Fs

end Pintos
