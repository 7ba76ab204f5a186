import Pintos.Filesys.Disk
import Pintos.Filesys.Heap

/-!
# The invariant of the file system

`Sound fs refs held` joins what holds of the device (`DiskOk`, `DirOk`) and of the memory
(`HeapOk`).  `refs` are the inodes that functions have opened and not yet closed, each with its
sector, and `held` are the files that processes have open, each with what it shows (`View`).  Both
may be arbitrary, so what a function does to `Sound` says at the same time that it leaves alone what
others have open, and the bytes that they read.

Most functions only change the data of the free map and sectors that belong to nobody (`Same`); the
live inodes and their data are then as before, and `Sound.same` gives the invariant.
-/

set_option autoImplicit false

namespace Pintos

namespace Fs

/-- The inode in memory at `id` is that of sector `s`. -/
def At (fs : Fs) (id s : Nat) : Prop := ∃ inode, fs.inodes id = some inode ∧ inode.sector = s

/-- Somebody may still use the inode in sector `s`. -/
def Live (fs : Fs) (s : Nat) : Prop :=
  s = freeMapSector ∨ s = rootDirSector ∨ Listed fs.device s ∨ ∃ id, fs.At id s

/-- Sector `x` belongs to no live inode. -/
def Fresh (fs : Fs) (x : Nat) : Prop := ∀ s, fs.Live s → ¬ InFoot fs.device s x

/-- What a file shows: its inode, and its bytes. -/
structure View where
  data : InodeDisk
  bytes : Buffer

/-- The inode in sector `t` and its data are those of the view. -/
def Shows (device : Block) (t : Nat) (v : View) : Prop :=
  inodeAt device t = v.data ∧ ∀ pos < v.data.length.toNat, fileByte device v.data pos = v.bytes pos

/-- `f` is an open file, neither the free map nor the root directory, and shows `v`. -/
def UserFile (fs : Fs) (f : Nat) (v : View) : Prop :=
  ∃ file t, fs.files f = some file ∧ fs.At file.inode t ∧ 2 ≤ t ∧ Shows fs.device t v

/-- The invariant of the file system. -/
structure Sound (fs : Fs) (refs : List (Nat × Nat)) (held : Nat → View → Prop) : Prop where
  disk : DiskOk fs.device fs.freeMap fs.Live
  dir : DirOk fs.device
  heap : HeapOk fs (refs.map Prod.fst)
  /-- An open inode is as on the device. -/
  data : ∀ id inode, fs.inodes id = some inode → inode.data = inodeAt fs.device inode.sector
  removed : ∀ id inode, fs.inodes id = some inode → inode.removed = true →
    2 ≤ inode.sector ∧ ¬ Listed fs.device inode.sector
  ref : ∀ r ∈ refs, fs.At r.1 r.2
  mapFile : ∃ f file, fs.freeMapFile = some f ∧ fs.files f = some file ∧
    fs.At file.inode freeMapSector ∧ ∀ v, ¬ held f v
  files : ∀ f v, held f v → fs.UserFile f v

/-- Live inodes and the root directory are left alone, and so is the memory. -/
structure SameInodes (fs fs' : Fs) : Prop where
  rest : ∃ device freeMap oracle, fs' = { fs with device, freeMap, oracle }
  size : fs'.device.size = fs.device.size
  map_size : fs'.freeMap.size = fs.freeMap.size
  live : ∀ s, fs.Live s → fs'.device.data s = fs.device.data s
  root : ∀ x, InData fs.device rootDirSector x → fs'.device.data x = fs.device.data x

/-- Live inodes and their data are left alone, but for the data of the free map. -/
structure Same (fs fs' : Fs) : Prop extends SameInodes fs fs' where
  data : ∀ t x, fs.Live t → t ≠ freeMapSector → InData fs.device t x →
    fs'.device.data x = fs.device.data x

variable {fs fs' fs'' : Fs} {refs : List (Nat × Nat)} {held held' : Nat → View → Prop}
  {id s t x f : Nat} {v : View}

theorem exists_shows (device : Block) (t : Nat) : ∃ v, Shows device t v :=
  ⟨⟨inodeAt device t, fileByte device (inodeAt device t)⟩, rfl, fun _ _ ↦ rfl⟩

theorem At.live (h : fs.At id s) : fs.Live s := .inr (.inr (.inr ⟨id, h⟩))

theorem live_freeMap : fs.Live freeMapSector := .inl rfl

theorem live_rootDir : fs.Live rootDirSector := .inr (.inl rfl)

theorem Sound.valid (h : Sound fs refs held) (hs : fs.Live s) :
    ValidInode fs.device fs.freeMap s := h.disk.valid s hs

/-- The entries of the root directory are in its data sectors. -/
theorem Sound.root_inData (h : Sound fs refs held) {pos : Nat} (hpos : pos < 16 * dirEntrySize) :
    InData fs.device rootDirSector (byteToSector (inodeAt fs.device rootDirSector) pos) := by
  refine (h.valid live_rootDir).inData ?_
  rw [h.dir.length]
  omega

theorem Same.refl (fs : Fs) : Same fs fs :=
  ⟨⟨⟨_, _, _, rfl⟩, rfl, rfl, fun _ _ ↦ rfl, fun _ _ ↦ rfl⟩, fun _ _ _ _ _ ↦ rfl⟩

theorem Same.setOracle (fs : Fs) (oracle : List Bool) : Same fs { fs with oracle } :=
  ⟨⟨⟨_, _, _, rfl⟩, rfl, rfl, fun _ _ ↦ rfl, fun _ _ ↦ rfl⟩, fun _ _ _ _ _ ↦ rfl⟩

theorem Same.setMap {b : Bitmap} (hs : Same fs fs') (hb : b.size = fs'.freeMap.size) :
    Same fs { fs' with freeMap := b } := by
  obtain ⟨_, _, _, rfl⟩ := hs.rest
  exact ⟨⟨⟨_, _, _, rfl⟩, hs.size, hb.trans hs.map_size, hs.live, hs.root⟩, hs.data⟩

section

variable (hs : SameInodes fs fs') (h : Sound fs refs held)

include hs

theorem SameInodes.at_iff : fs'.At id s ↔ fs.At id s := by
  obtain ⟨_, _, _, rfl⟩ := hs.rest
  rfl

theorem SameInodes.foot_iff (hl : fs.Live s) : InFoot fs'.device s x ↔ InFoot fs.device s x :=
  inFoot_congr (hs.live s hl)

theorem SameInodes.inData_iff (hl : fs.Live s) : InData fs'.device s x ↔ InData fs.device s x := by
  rw [InData, InData, inodeAt_congr (hs.live s hl)]

include h

theorem SameInodes.rootEntry {k : Nat} (hk : k < 16) :
    rootEntry fs'.device k = rootEntry fs.device k :=
  rootEntry_congr (hs.live _ live_rootDir) hs.root (fun _ hpos ↦ h.root_inData hpos) hk

theorem SameInodes.listed_iff : Listed fs'.device s ↔ Listed fs.device s := by
  constructor <;> rintro ⟨k, hk, huse, hsec⟩ <;> refine ⟨k, hk, ?_⟩
  · rw [hs.rootEntry h hk] at huse hsec
    exact ⟨huse, hsec⟩
  · rw [hs.rootEntry h hk]
    exact ⟨huse, hsec⟩

theorem SameInodes.live_iff : fs'.Live s ↔ fs.Live s := by
  simp only [Live, hs.listed_iff h, hs.at_iff]

theorem SameInodes.fresh_iff : fs'.Fresh x ↔ fs.Fresh x := by
  constructor <;> intro hf s hl
  · rw [← hs.foot_iff hl]
    exact hf s ((hs.live_iff h).mpr hl)
  · have hl' := (hs.live_iff h).mp hl
    rw [hs.foot_iff hl']
    exact hf s hl'

theorem SameInodes.trans (hs' : SameInodes fs' fs'') : SameInodes fs fs'' := by
  obtain ⟨_, _, _, heq⟩ := hs.rest
  obtain ⟨_, _, _, heq'⟩ := hs'.rest
  refine ⟨⟨_, _, _, by rw [heq', heq]⟩, hs'.size.trans hs.size, hs'.map_size.trans hs.map_size,
    fun s hl ↦ ?_, fun x hx ↦ ?_⟩
  · exact (hs'.live s ((hs.live_iff h).mpr hl)).trans (hs.live s hl)
  · exact (hs'.root x ((hs.inData_iff live_rootDir).mpr hx)).trans (hs.root x hx)

/-- The invariant but for the open files only depends on live inodes and on the root directory, as
long as the sectors of live inodes stay marked. -/
theorem Sound.sameInodes
    (hbits : ∀ s x, fs.Live s → InFoot fs.device s x → fs'.freeMap.bit x = true)
    (hheld : ∀ f v, held' f v → ∃ v, held f v) (hfiles : ∀ f v, held' f v → fs'.UserFile f v) :
    Sound fs' refs held' := by
  have hdisk := h.disk.congr hs.size hs.map_size hs.live hbits
  have hlive : ∀ s, fs'.Live s → fs.Live s := fun s ↦ (hs.live_iff h).mp
  have hentry : ∀ k < 16, rootEntry fs'.device k = rootEntry fs.device k :=
    fun k hk ↦ hs.rootEntry h hk
  have hlisted : ∀ s, Listed fs'.device s ↔ Listed fs.device s := fun s ↦ hs.listed_iff h
  obtain ⟨device, freeMap, oracle, rfl⟩ := hs.rest
  exact {
    disk := hdisk.mono hlive
    dir := by
      refine ⟨?_, fun s hl ↦ h.dir.two_le s ((hlisted s).mp hl), ?_⟩
      · rw [inodeAt_congr (hs.live _ live_rootDir)]
        exact h.dir.length
      · intro k hk k' hk'
        rw [hentry k hk, hentry k' hk']
        exact h.dir.inj k hk k' hk'
    heap := h.heap.congr rfl rfl rfl rfl
    data := fun id inode hi ↦ by
      rw [h.data id inode hi]
      exact (inodeAt_congr (hs.live _ (At.live ⟨inode, hi, rfl⟩))).symm
    removed := fun id inode hi hr ↦ by
      rw [hlisted]
      exact h.removed id inode hi hr
    ref := h.ref
    mapFile := by
      obtain ⟨f, file, hf, hfile, hat, hno⟩ := h.mapFile
      exact ⟨f, file, hf, hfile, hat, fun v hv ↦ (hheld f v hv).elim hno⟩
    files := hfiles }

end

section

variable (hs : Same fs fs') (h : Sound fs refs held)

include hs h

theorem Same.trans (hs' : Same fs' fs'') : Same fs fs'' := by
  refine ⟨hs.toSameInodes.trans h hs'.toSameInodes, fun t x hl hne hx ↦ ?_⟩
  have hx' := (hs.inData_iff hl).mpr hx
  exact (hs'.data t x ((hs.live_iff h).mpr hl) hne hx').trans (hs.data t x hl hne hx)

/-- An inode still shows what it showed. -/
theorem Same.shows (hl : fs.Live t) (hne : t ≠ freeMapSector) (hv : Shows fs.device t v) :
    Shows fs'.device t v := by
  obtain ⟨hnode, hbytes⟩ := hv
  refine ⟨(inodeAt_congr (hs.live t hl)).trans hnode, fun pos hpos ↦ ?_⟩
  rw [← hbytes pos hpos, fileByte, fileByte, hs.data t _ hl hne]
  rw [← hnode] at hpos ⊢
  exact (h.valid hl).inData hpos

/-- A file still shows what it showed. -/
theorem Same.userFile (hf : held f v) : fs'.UserFile f v := by
  obtain ⟨file, t, hfile, hat, ht, hv⟩ := h.files f v hf
  have hne : t ≠ freeMapSector := by
    rintro rfl
    exact absurd ht (by decide)
  have hshows : Shows fs'.device t v := hs.shows h hat.live hne hv
  obtain ⟨_, _, _, rfl⟩ := hs.rest
  exact ⟨file, t, hfile, hat, ht, hshows⟩

/-- **The invariant only depends on live inodes and their data**, as long as the sectors of live
inodes stay marked. -/
theorem Sound.same (hbits : ∀ s x, fs.Live s → InFoot fs.device s x → fs'.freeMap.bit x = true) :
    Sound fs' refs held :=
  h.sameInodes hs.toSameInodes hbits (fun _ v hf ↦ ⟨v, hf⟩) fun _ _ hf ↦ hs.userFile h hf

end

end Fs

end Pintos
