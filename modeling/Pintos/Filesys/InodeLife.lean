import Pintos.Filesys.FreeMap

/-!
# The life of an inode

What `inode_create`, `inode_open`, `inode_close` and `inode_remove` do in a sound file system, and
the functions of `file.c` over them.  An inode that is created is in nobody's use until an entry of
the root directory names it; one that is removed gives its sectors back when its last user closes
it.
-/

set_option autoImplicit false

namespace Pintos

open Function List

namespace Fs

variable {fs fs' : Fs} {refs refs' : List (Nat × Nat)} {held held' : Nat → View → Prop}
  {id s x f n cnt : Nat} {inode inode' : Inode} {file : File}

/-- What holds of an inode in memory. -/
structure InodeOk (fs : Fs) (inode : Inode) : Prop where
  live : fs.Live inode.sector
  data : inode.data = inodeAt fs.device inode.sector
  removed : inode.removed = true → 2 ≤ inode.sector ∧ ¬ Listed fs.device inode.sector

theorem Sound.inodeOk (h : Sound fs refs held) (hi : fs.inodes id = some inode) :
    InodeOk fs inode :=
  ⟨At.live ⟨inode, hi, rfl⟩, h.data id inode hi, h.removed id inode hi⟩

/-- The device is left alone, and the memory is changed. -/
theorem Sound.memory (h : Sound fs refs held) (hdev : fs'.device = fs.device)
    (hmap : fs'.freeMap = fs.freeMap) (hheap : HeapOk fs' (refs'.map Prod.fst))
    (hinodes : ∀ id inode, fs'.inodes id = some inode → InodeOk fs inode)
    (href : ∀ r ∈ refs', fs'.At r.1 r.2)
    (hmapFile : ∃ f file, fs'.freeMapFile = some f ∧ fs'.files f = some file ∧
      fs'.At file.inode freeMapSector ∧ ∀ v, ¬ held' f v)
    (hfiles : ∀ f v, held' f v → fs'.UserFile f v) : Sound fs' refs' held' := by
  have hlive : ∀ s, fs'.Live s → fs.Live s := by
    rintro s (h0 | h1 | hl | ⟨id, inode, hi, rfl⟩)
    · exact .inl h0
    · exact .inr (.inl h1)
    · exact .inr (.inr (.inl (hdev ▸ hl)))
    · exact (hinodes id inode hi).live
  refine ⟨?_, hdev ▸ h.dir, hheap, ?_, ?_, href, hmapFile, hfiles⟩
  · rw [hdev, hmap]
    exact h.disk.mono hlive
  · intro id inode hi
    rw [hdev]
    exact (hinodes id inode hi).data
  · intro id inode hi
    rw [hdev]
    exact (hinodes id inode hi).removed

/-- A store to an inode that leaves its sector alone. -/
theorem at_setInode (hi : fs.inodes id = some inode) (hsec : inode'.sector = inode.sector)
    {id' : Nat} : (fs.setInode id (some inode')).At id' s ↔ fs.At id' s := by
  by_cases hid : id' = id
  · subst hid
    simp [At, hi, hsec]
  · simp [At, update_of_ne hid]

section

variable (h : Sound fs refs held)

include h

theorem Sound.setInode (hi : fs.inodes id = some inode)
    (hsec : inode'.sector = inode.sector) (hok : InodeOk fs inode')
    (hheap : HeapOk (fs.setInode id (some inode')) (refs'.map Prod.fst))
    (href : ∀ r ∈ refs', fs.At r.1 r.2) : Sound (fs.setInode id (some inode')) refs' held := by
  refine h.memory rfl rfl hheap (fun id' inode1 hi1 ↦ ?_) (fun r hr ↦ ?_) ?_ fun f v hf ↦ ?_
  · by_cases hid : id' = id
    · subst hid
      simp only [inodes_setInode, update_self, Option.some_inj] at hi1
      exact hi1 ▸ hok
    · simp only [inodes_setInode, update_of_ne hid] at hi1
      exact h.inodeOk hi1
  · exact (at_setInode hi hsec).mpr (href r hr)
  · obtain ⟨f, file, hf, hfile, hat, hheld⟩ := h.mapFile
    exact ⟨f, file, hf, hfile, (at_setInode hi hsec).mpr hat, hheld⟩
  · obtain ⟨file, t, hfile, hat, ht⟩ := h.files f v hf
    exact ⟨file, t, hfile, (at_setInode hi hsec).mpr hat, ht⟩

/-! ## Opening -/

/-- A new `struct inode`, for a live sector that is not open. -/
theorem Sound.newInode (hl : fs.Live s) (hnone : fs.findInode s = none) :
    Sound ({ fs with openInodes := fs.next :: fs.openInodes, next := fs.next + 1 }.setInode fs.next
      (some ⟨s, 1, false, 0, inodeAt fs.device s⟩)) ((fs.next, s) :: refs) held := by
  have hother : ∀ {id t : Nat}, fs.At id t →
      ({ fs with openInodes := fs.next :: fs.openInodes, next := fs.next + 1 }.setInode fs.next
        (some ⟨s, 1, false, 0, inodeAt fs.device s⟩)).At id t := by
    rintro id t ⟨inode, hi, rfl⟩
    refine ⟨inode, ?_, rfl⟩
    rwa [inodes_setInode, update_of_ne (Nat.ne_of_lt (h.heap.inode_lt id inode hi))]
  refine h.memory rfl rfl (h.heap.newInode fun id inode hi ↦ h.heap.findInode_eq_none hnone hi)
    (fun id inode hi ↦ ?_) (fun r hr ↦ ?_) ?_ fun f v hf ↦ ?_
  · by_cases hid : id = fs.next
    · subst hid
      simp only [inodes_setInode, update_self, Option.some_inj] at hi
      subst hi
      exact ⟨hl, rfl, nofun⟩
    · simp only [inodes_setInode, update_of_ne hid] at hi
      exact h.inodeOk hi
  · rcases mem_cons.mp hr with rfl | hr
    · exact ⟨_, update_self .., rfl⟩
    · exact hother (h.ref r hr)
  · obtain ⟨f, file, hf, hfile, hat, hheld⟩ := h.mapFile
    exact ⟨f, file, hf, hfile, hother hat, hheld⟩
  · obtain ⟨file, t, hfile, hat, ht⟩ := h.files f v hf
    exact ⟨file, t, hfile, hother hat, ht⟩

theorem Sound.setOracle (oracle : List Bool) :
    Sound { fs with oracle } refs held :=
  h.keep (.setOracle fs oracle) fun _ hx ↦ hx

/-- **`inode_open`** opens the inode in a live sector, unless there is no memory. -/
theorem inodeOpen_spec (hl : fs.Live s) :
    Returns (fs.inodeOpen s) fun r ↦ r.2.device = fs.device ∧ r.2.freeMap = fs.freeMap ∧
      (∀ id, r.1 = some id → Sound r.2 ((id, s) :: refs) held) ∧
      (r.1 = none → Sound r.2 refs held) := by
  rw [inodeOpen]
  cases hfind : fs.findInode s with
  | some id =>
    obtain ⟨inode, hi, hsec⟩ := findInode_eq_some hfind
    simp only [inodeReopen, hi, some_bind]
    refine .pure ⟨rfl, rfl, ?_, nofun⟩
    rintro _ ⟨⟩
    have hok := h.inodeOk hi
    refine h.setInode hi rfl ⟨hok.live, hok.data, hok.removed⟩ (h.heap.addRef hi) ?_
    rintro r (_ | ⟨_, hr⟩)
    · exact ⟨inode, hi, hsec⟩
    · exact h.ref r hr
  | none =>
    obtain ⟨ok, oracle, hmalloc, -⟩ := fs.malloc_cases
    have hs := h.setOracle oracle
    simp only [hmalloc]
    cases ok with
    | false => exact .pure ⟨rfl, rfl, nofun, fun _ ↦ hs⟩
    | true =>
      have hread := Block.read_eq_some.mpr ⟨(h.valid hl).sector, rfl⟩
      simp only [hread, some_bind]
      refine .pure ⟨rfl, rfl, ?_, nofun⟩
      rintro _ ⟨⟩
      exact hs.newInode hl hfind

/-! ## Closing -/

theorem Sound.perm (hp : refs.Perm refs') : Sound fs refs' held :=
  h.memory rfl rfl (h.heap.perm (hp.map Prod.fst)) (fun _ _ ↦ h.inodeOk)
    (fun r hr ↦ h.ref r (hp.mem_iff.mpr hr)) h.mapFile h.files

end

/-- The last user of an inode has closed it. -/
theorem Sound.removeInode (h : Sound fs ((id, s) :: refs) held) (hi : fs.inodes id = some inode)
    (hcnt : inode.openCnt = 1) :
    Sound ({ fs with openInodes := fs.openInodes.erase id }.setInode id none) refs held := by
  have hheap := h.heap.removeInode hi hcnt
  have hat : ∀ {id' t : Nat}, fs.At id' t →
      ((({ fs with openInodes := fs.openInodes.erase id } : Fs).setInode id none).inodes
        id').isSome = true →
      ({ fs with openInodes := fs.openInodes.erase id }.setInode id none).At id' t := by
    rintro id' t ⟨inode', hi', rfl⟩ hsome
    have hne : id' ≠ id := by
      rintro rfl
      simp at hsome
    exact ⟨inode', by simp [update_of_ne hne, hi'], rfl⟩
  refine h.memory rfl rfl hheap (fun id' inode' hi' ↦ ?_) (fun r hr ↦ ?_) ?_ fun f v hf ↦ ?_
  · have hne : id' ≠ id := by
      rintro rfl
      simp at hi'
    simp only [inodes_setInode, update_of_ne hne] at hi'
    exact h.inodeOk hi'
  · exact hat (h.ref r (mem_cons_of_mem _ hr)) (hheap.ref _ (mem_map_of_mem hr))
  · obtain ⟨f, file, hf, hfile, hmap, hheld⟩ := h.mapFile
    exact ⟨f, file, hf, hfile, hat hmap (hheap.file f file hfile), hheld⟩
  · obtain ⟨file, t, hfile, hmap, ht⟩ := h.files f v hf
    exact ⟨file, t, hfile, hat hmap (hheap.file f file hfile), ht⟩

/-- The sectors of a removed inode belong to nobody when nobody uses it any more. -/
theorem Sound.fresh_removeInode (h : Sound fs ((id, s) :: refs) held)
    (hi : fs.inodes id = some inode) (hrem : inode.removed = true)
    (hx : InFoot fs.device inode.sector x) :
    ({ fs with openInodes := fs.openInodes.erase id }.setInode id none).Fresh x := by
  obtain ⟨htwo, hlisted⟩ := h.removed id inode hi hrem
  have hdead : ∀ id' inode', id' ≠ id → fs.inodes id' = some inode' →
      inode'.sector ≠ inode.sector :=
    fun id' inode' hne hi' heq ↦ hne (h.heap.inj _ _ _ _ hi' hi heq)
  intro t hl hfoot
  -- A live inode with the sector is the removed one, which is neither listed nor open.
  have hsame : fs.Live t → t = inode.sector := fun hl' ↦
    h.disk.disjoint t inode.sector x hl' (h.inodeOk hi).live hfoot hx
  rcases hl with h0 | h1 | hl | ⟨id', inode', hi', hsec⟩
  · rw [← hsame (.inl h0), h0] at htwo
    exact absurd htwo (by decide)
  · rw [← hsame (.inr (.inl h1)), h1] at htwo
    exact absurd htwo (by decide)
  · exact hlisted (hsame (.inr (.inr (.inl hl))) ▸ hl)
  · have hne : id' ≠ id := by
      rintro rfl
      simp at hi'
    rw [inodes_setInode, update_of_ne hne] at hi'
    exact hdead id' inode' hne hi' (hsec.trans (hsame (At.live ⟨inode', hi', hsec⟩)))

/-- **`inode_close`** closes an inode; the last user of a removed one releases its sectors. -/
theorem inodeClose_spec (h : Sound fs ((id, s) :: refs) held) :
    Returns (fs.inodeClose id) fun fs' ↦ Sound fs' refs held := by
  obtain ⟨inode, hi, hsec⟩ := h.ref (id, s) mem_cons_self
  simp only [inodeClose, hi, some_bind]
  split
  · next hcnt =>
    have hok := h.inodeOk hi
    exact .pure (h.setInode hi rfl ⟨hok.live, hok.data, hok.removed⟩ (h.heap.dropRef hi hcnt)
      fun r hr ↦ h.ref r (mem_cons_of_mem _ hr))
  next hcnt =>
  have hs := h.removeInode hi (not_not.mp hcnt)
  split
  case isFalse => exact .pure hs
  case isTrue hrem =>
  have hv := h.valid (h.inodeOk hi).live
  have hfresh := fun x ↦ h.fresh_removeInode (x := x) hi hrem
  generalize hfs1 : ({ fs with openInodes := fs.openInodes.erase id } : Fs).setInode id none = fs1
    at hs hfresh ⊢
  have hdev : fs1.device = fs.device := hfs1 ▸ rfl
  have hmap : fs1.freeMap = fs.freeMap := hfs1 ▸ rfl
  refine Returns.bind (freeMapRelease_spec hs ?_ ?_ ?_) fun fs2 hfs2 ↦ ?_
  · rw [hdev]
    exact hv.sector
  · intro x hle hlt
    obtain rfl : x = inode.sector := by omega
    rw [hmap]
    exact hv.marked _ (.inl rfl)
  · intro x hle hlt
    obtain rfl : x = inode.sector := by omega
    exact hfresh _ (.inl rfl)
  rw [(h.inodeOk hi).data]
  refine (freeMapRelease_spec hfs2.sound ?_ ?_ ?_).mono fun fs3 hfs3 ↦ hfs3.sound
  · rw [hfs2.same.size, hdev]
    exact hv.range
  · intro x hle hlt
    refine hfs2.keep x (fun hin ↦ hv.own ?_) (hmap ▸ hv.marked x (.inr ⟨hle, hlt⟩))
    obtain rfl : x = inode.sector := by omega
    exact ⟨hle, hlt⟩
  · intro x hle hlt
    exact (hfs2.same.fresh_iff hs).mpr (hfresh x (.inr ⟨hle, hlt⟩))

/-! ## Creating and removing -/

theorem writeZeros_spec {device : Block} {start : Nat} (h : start + cnt ≤ device.size) :
    Returns (writeZeros device start cnt) fun device' ↦ device'.size = device.size ∧
      ∀ x, device'.data x = if start ≤ x ∧ x < start + cnt then fun _ ↦ 0 else device.data x := by
  induction cnt with
  | zero => exact .pure ⟨rfl, fun x ↦ by rw [if_neg (by omega)]⟩
  | succ cnt ih =>
    refine Returns.bind (ih (by omega)) ?_
    rintro device1 ⟨hsize, hdata⟩
    rw [Block.write_eq_some.mpr ⟨show start + cnt < device1.size by omega, rfl⟩]
    refine .pure ⟨hsize, fun x ↦ ?_⟩
    dsimp only
    by_cases hx : x = start + cnt
    · subst hx
      rw [update_self, if_pos (by omega)]
    · rw [update_of_ne hx, hdata x]
      congr 1
      exact propext (by omega)

/-- What `inode_create` does: a valid inode that is in nobody's use. -/
structure Created (fs : Fs) (refs : List (Nat × Nat)) (held : Nat → View → Prop) (s : Nat)
    (success : Bool) (fs' : Fs) : Prop where
  same : Same fs fs'
  sound : Sound fs' refs held
  keep : ∀ x, fs.freeMap.bit x = true → fs'.freeMap.bit x = true
  valid : success = true → ValidInode fs'.device fs'.freeMap s
  fresh : success = true → ∀ x, InFoot fs'.device s x → fs'.Fresh x

/-- The device after the inode and its data have been written to sectors that were allocated. -/
theorem Allocated.created {length : Int} {start : Nat} {device : Block} (h : Sound fs refs held)
    (hall : Allocated fs refs held (bytesToSectors length) (some start) fs')
    (hs : s < fs.device.size) (hmark : fs.freeMap.bit s = true) (hfresh : fs.Fresh s)
    (h0 : 0 ≤ length) (hlt : length < 2 ^ 31) (hsize : device.size = fs'.device.size)
    (hnode : device.data s = (InodeDisk.mk start length inodeMagic).encode)
    (hdata : ∀ x, x ≠ s → ¬ (start ≤ x ∧ x < start + bytesToSectors length) →
      device.data x = fs'.device.data x) : Created fs refs held s true { fs' with device } := by
  have hsmall := h.disk.small
  have hrange := hall.range start rfl
  have hclear := hall.clear start rfl
  have hsize' : device.size = fs.device.size := hsize.trans hall.same.size
  have hfresh' : ∀ x, x = s ∨ start ≤ x ∧ x < start + bytesToSectors length → fs.Fresh x := by
    rintro x (rfl | ⟨hle, hlt⟩)
    · exact hfresh
    · exact h.fresh_of_unmarked (hclear x hle hlt)
  -- Whatever belongs to a live inode is not written.
  have hkeep : ∀ t x, fs.Live t → InFoot fs.device t x → device.data x = fs'.device.data x := by
    intro t x hl hx
    refine hdata x ?_ fun hin ↦ hfresh' x (.inr hin) t hl hx
    rintro rfl
    exact hfresh t hl hx
  have hsame : Same fs { fs' with device } := by
    obtain ⟨_, _, _, rfl⟩ := hall.same.rest
    refine ⟨⟨⟨_, _, _, rfl⟩, hsize', hall.same.map_size, fun t hl ↦ ?_, fun x hx ↦ ?_⟩,
      fun t x hl hne hx ↦ ?_⟩
    · exact (hkeep t t hl (.inl rfl)).trans (hall.same.live t hl)
    · exact (hkeep _ x live_rootDir (.inr hx)).trans (hall.same.root x hx)
    · exact (hkeep t x hl (.inr hx)).trans (hall.same.data t x hl hne hx)
  have hout := Bitmap.not_within hclear hmark
  obtain ⟨hvalid, hinode⟩ := ValidInode.written (hsize' ▸ hsmall) (hsize' ▸ hs) hnode h0 hlt
    (hsize' ▸ hrange) hout (hall.keep s hmark) (hall.set start rfl)
  refine ⟨hsame, h.keep hsame hall.keep, hall.keep, fun _ ↦ hvalid, fun _ x hx ↦ ?_⟩
  rw [InFoot, InData, hinode] at hx
  exact (hsame.fresh_iff h).mpr (hfresh' x hx)

/-- **`inode_create`**, in a sector that is marked and in nobody's use. -/
theorem inodeCreate_spec {length : Int} (h : Sound fs refs held) (hs : s < fs.device.size)
    (hmark : fs.freeMap.bit s = true) (hfresh : fs.Fresh s) (h0 : 0 ≤ length)
    (hlt : length < 2 ^ 31) :
    Returns (fs.inodeCreate s length) fun r ↦ Created fs refs held s r.1 r.2 := by
  obtain ⟨ok, oracle, hmalloc, -⟩ := fs.malloc_cases
  have hsame := Same.setOracle fs oracle
  have hsound := h.setOracle oracle
  simp only [inodeCreate, assert, if_pos h0, some_bind, hmalloc]
  cases ok with
  | false => exact .pure ⟨hsame, hsound, fun _ hx ↦ hx, by rintro ⟨⟩, by rintro ⟨⟩⟩
  | true =>
    refine Returns.bind (freeMapAllocate_spec hsound (bytesToSectors length)) ?_
    rintro ⟨start, fs'⟩ hall
    have hsame' := hsame.trans h hall.same
    cases start with
    | none => exact .pure ⟨hsame', hall.sound, hall.keep, by rintro ⟨⟩, by rintro ⟨⟩⟩
    | some start =>
      have hall' : Allocated fs refs held (bytesToSectors length) (some start) fs' :=
        ⟨hsame', hall.sound, hall.keep, hall.range, hall.clear, hall.set⟩
      have hout := Bitmap.not_within (hall'.clear start rfl) hmark
      dsimp only
      rw [Block.write_eq_some.mpr ⟨hsame'.size ▸ hs, rfl⟩, some_bind]
      refine Returns.bind (writeZeros_spec (hsame'.size ▸ hall'.range start rfl)) ?_
      rintro device ⟨hdsize, hdata⟩
      refine .pure (hall'.created h hs hmark hfresh h0 hlt hdsize ?_ fun x hne hin ↦ ?_)
      · rw [hdata, if_neg hout]
        exact update_self ..
      · rw [hdata, if_neg hin]
        exact update_of_ne hne ..

end Fs

end Pintos
