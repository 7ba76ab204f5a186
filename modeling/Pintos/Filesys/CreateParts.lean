import Pintos.Filesys.Sectors
import Pintos.Filesys.DirMap

/-!
# The parts of a create

`filesys_create` takes a sector for the inode, then `inode_create` takes the data sectors, then
`dir_add` takes a slot of the root directory.  None of them touches an open file, and where no file
denies writing (`NoDeny`), the free map and the root directory can be written (`Sound.mapReady`,
`Sound.rootFile`).
-/

set_option autoImplicit false

namespace Pintos

open Option

variable {r : Bool × Fs} {buffer : Buffer} {size length : Int} {device : Block} {f : Nat}

namespace Fs

variable {fs fs' : Fs} {refs : List (Nat × Nat)} {held : Nat → View → Prop} {id s t n dir : Nat}
  {name : List UInt8} {inode : Inode}

/-! ## What leaves the open files alone -/

theorem SameHeap.files (h : SameHeap fs fs') : fs'.files = fs.files := by
  grind

@[grind →] theorem sameHeap_lookupLoop {fuel ofs : Nat}
    {r : Option (DirEntry × Nat) × Fs} (h : lookupLoop dir name fuel fs buffer ofs = some r) :
    SameHeap fs r.2 := by
  induction fuel generalizing fs buffer ofs with grind [lookupLoop]

@[grind →] theorem sameHeap_freeSlotLoop {fuel ofs : Nat} {r : Nat × Buffer × Fs}
    (h : freeSlotLoop dir fuel fs buffer ofs = some r) : SameHeap fs r.2.2 := by
  induction fuel generalizing fs buffer ofs with grind [freeSlotLoop]

@[grind →] theorem sameHeap_dirAdd (h : fs.dirAdd dir name s = some r) : SameHeap fs r.2 := by
  grind [dirAdd, lookup]

@[grind →] theorem sameHeap_inodeCreate
    (h : fs.inodeCreate s length = some r) : SameHeap fs r.2 := by
  simp only [inodeCreate, bind_eq_some] at h
  split at h <;> grind

@[grind →] theorem files_inodeOpen {r : Option Nat × Fs} (h : fs.inodeOpen s = some r) :
    r.2.files = fs.files := by
  grind [inodeOpen, inodeReopen, setInode]

@[grind →] theorem files_inodeClose (h : fs.inodeClose id = some fs') : fs'.files = fs.files := by
  grind [inodeClose, setInode]

@[grind →] theorem files_dirClose {dir : Option Nat} (h : fs.dirClose dir = some fs') :
    fs'.files = fs.files := by
  cases dir <;> grind [dirClose]

@[grind →] theorem files_dirOpenRoot {r : Option Nat × Fs} (h : fs.dirOpenRoot = some r) :
    r.2.files = fs.files := by
  simp only [dirOpenRoot, dirOpen, bind_eq_some] at h
  grind

theorem files_filesysCreate (h : fs.filesysCreate name size = some r) : r.2.files = fs.files := by
  simp only [filesysCreate, bind_eq_some] at h
  obtain ⟨⟨dir, fs1⟩, hopen, h⟩ := h
  cases dir with
  | none => grind
  | some dir =>
    simp only [bind_eq_some] at h
    obtain ⟨⟨sector, fs2⟩, hall, h⟩ := h
    cases sector with
    | none => grind
    | some sector =>
      simp only [bind_eq_some] at h
      obtain ⟨⟨created, fs3⟩, hcreate, h⟩ := h
      split at h <;> grind

/-! ## Nothing denies writing -/

/-- No open file denies writing. -/
def NoDeny (fs : Fs) : Prop := ∀ f file, fs.files f = some file → file.denyWrite = false

section

variable (h : NoDeny fs)

include h

theorem NoDeny.congr (hfiles : fs'.files = fs.files) : NoDeny fs' :=
  fun f file hf ↦ h f file (hfiles ▸ hf)

theorem NoDeny.setFile (f : Nat) (new : Option File)
    (hnew : ∀ file, new = some file → file.denyWrite = false) : NoDeny (fs.setFile f new) := by
  intro g file hg
  rw [files_setFile, Function.update_apply] at hg
  split at hg
  · exact hnew file hg
  · exact h g file hg

theorem NoDeny.fileClose (hr : fs.fileClose (some f) = some fs') : NoDeny fs' := by
  simp only [Fs.fileClose, fileAllowWrite, bind_eq_some] at hr
  obtain ⟨fs1, ⟨file, hf, hallow⟩, file', -, hclose⟩ := hr
  rw [if_neg (by simp [h f file hf])] at hallow
  cases hallow
  exact (h.setFile f none (by simp)).congr (files_inodeClose hclose)

end

/-- Then no inode denies it either. -/
theorem HeapOk.denyWriteCnt_eq_zero {refs : List Nat} (h : HeapOk fs refs) (hdeny : NoDeny fs)
    (hi : fs.inodes id = some inode) : inode.denyWriteCnt = 0 := by
  rw [h.denyCnt id inode hi, countBelow_eq_zero]
  intro f _
  cases hf : fs.files f with
  | none => simp [denies, hf]
  | some file => simp [denies, hf, hdeny f file hf]

/-! ## The files that `filesys_create` writes -/

/-- The map can be written. -/
theorem Sound.mapReady (h : Sound fs refs held) (hdeny : NoDeny fs) (hmem : fs.oracle = [])
    (hlen : (inodeAt fs.device freeMapSector).length = byteCnt fs.freeMap.size) :
    ∃ inode, MapReady fs inode ∧ inode.data = inodeAt fs.device freeMapSector := by
  obtain ⟨f, file, hf, hfile, ⟨inode, hi, hsec⟩, -⟩ := h.mapFile
  have hdata : inode.data = inodeAt fs.device freeMapSector := hsec ▸ h.data _ inode hi
  refine ⟨inode, ⟨⟨⟨f, file, hf, hfile, hi⟩, ?_⟩, h.disk.size, hdata ▸ hlen,
    h.heap.denyWriteCnt_eq_zero hdeny hi, hmem⟩, hdata⟩
  rw [hdata]
  exact (h.valid live_freeMap).onDevice

/-- The root directory is a directory with 16 entries. -/
theorem Sound.rootFile (h : Sound fs refs held) (hat : fs.At dir rootDirSector)
    (hmem : fs.oracle = []) :
    ∃ inode, DirFile fs dir inode 16 ∧ inode.data = inodeAt fs.device rootDirSector := by
  obtain ⟨inode, hi, hsec⟩ := hat
  have hdata : inode.data = inodeAt fs.device rootDirSector := hsec ▸ h.data _ inode hi
  refine ⟨inode, ⟨hi, hdata ▸ h.dir.length, ?_, hmem⟩, hdata⟩
  rw [hdata]
  exact (h.valid live_rootDir).onDevice

/-! ## The call -/

theorem dirContents_congr {device' : Block} {data data' : InodeDisk} {cnt : Nat}
    (h : ∀ k < cnt, dirEntry device' data' k = dirEntry device data k) :
    dirContents device' data' cnt = dirContents device data cnt :=
  Slots.contents_congr fun k hk ↦ by rw [dirSlot, dirSlot, h k hk]

/-- `inode_create` has taken the data sectors. -/
theorem MapReady.inodeCreate_true (h : MapReady fs inode)
    (hr : fs.inodeCreate s length = some (true, fs')) :
    MapReady fs' inode ∧ ∃ start, start + bytesToSectors length ≤ fs.freeMap.size ∧
      (∀ x, start ≤ x → x < start + bytesToSectors length → fs.freeMap.bit x = false) ∧
      ∀ x, fs'.freeMap.bit x =
        if start ≤ x ∧ x < start + bytesToSectors length then true else fs.freeMap.bit x := by
  obtain ⟨oracle, start, fs1, device, hquiet, hall, -, hzero, heq⟩ := inodeCreate_eq hr
  have hmem : { fs with oracle } = fs := by rw [hquiet h.memory, ← h.memory]
  rw [hmem] at hall
  cases (h.freeMapAllocate _).of_eq hall with
  | some honly _ hrange hclear hbits =>
    have hready := honly.mapReady h
    have hsize : device.size = fs1.device.size := by
      refine (Returns.of_eq (writeZeros_spec ?_) hzero).1
      rw [honly.size, ← h.size]
      exact hrange
    rw [heq]
    refine ⟨⟨⟨hready.opened, ?_⟩, ?_, hready.length, hready.writable, hready.memory⟩, start, hrange,
      hclear, hbits⟩
    · rw [hsize]
      exact hready.onDevice
    · rw [hready.size, hsize]

/-- Sector `s` has been taken for the inode: it was free, and now it is marked and in nobody's
use. -/
structure Taken (fs : Fs) (inode : Inode) (s : Nat) (fs' : Fs) : Prop where
  clear : fs.freeMap.bit s = false
  mark : fs'.freeMap.bit s = true
  lt : s < fs'.device.size
  fresh : fs'.Fresh s
  ready : MapReady fs' inode
  data : inode.data = inodeAt fs'.device freeMapSector

theorem Sound.taken (h : Sound fs refs held) (hready : MapReady fs inode)
    (hdata : inode.data = inodeAt fs.device freeMapSector)
    (hall : fs.freeMapAllocate 1 = some (some s, fs')) : Taken fs inode s fs' := by
  have hallocated := (freeMapAllocate_spec h 1).of_eq hall
  have hclear := hallocated.clear s rfl s (Nat.le_refl _) (Nat.lt_succ_self _)
  cases (hready.freeMapAllocate 1).of_eq hall with
  | some honly _ _ _ _ =>
    exact {
      clear := hclear
      mark := hallocated.set s rfl s (Nat.le_refl _) (Nat.lt_succ_self _)
      lt := hallocated.same.size ▸ hallocated.range s rfl
      fresh := (hallocated.same.fresh_iff h).mpr (h.fresh_of_unmarked hclear)
      ready := honly.mapReady hready
      data := hdata.trans (inodeAt_congr (hallocated.same.live _ live_freeMap)).symm }

theorem NoDeny.of_init {oracle : List Bool} {garbage : Buffer}
    (hsmall : device.size < 2 ^ 32) (h : filesysInit device oracle garbage = some fs) :
    NoDeny fs := by
  obtain ⟨fs1, hf, hopen⟩ := filesysInit_eq hsmall h
  obtain ⟨oracle', freeMap, -, -, rfl⟩ :=
    freeMapOpen_eq hf.closed hf.size hf.valid hf.root.bytes hopen
  have hnone : NoDeny fs1 := fun f file hfile ↦ nomatch (hf.closed.file f).symm.trans hfile
  refine (hnone.setFile (fs1.next + 1) (some ⟨fs1.next, 0, false⟩) ?_).congr rfl
  rintro _ ⟨⟩
  rfl

end Fs

end Pintos
