import Pintos.Filesys.Directory

/-!
# What the file system keeps on the device

The inode of a file is in one sector, and its data are in consecutive ones (`InFoot`).  A *live*
sector is one that has an inode somebody may still use: those of the free map and of the root
directory, those that an entry of the root directory names, and those of open inodes.

`DiskOk` says that live inodes are well formed, that their sectors are marked in the free map, and
that no two of them share a sector.  It survives everything that leaves live inodes alone and does
not release their sectors (`DiskOk.congr`).
-/

set_option autoImplicit false

namespace Pintos

/-- The inode in a sector of the device. -/
def inodeAt (device : Block) (s : Nat) : InodeDisk := .decode (device.data s)

/-- Sector `x` holds data of the inode in sector `s`. -/
def InData (device : Block) (s x : Nat) : Prop :=
  (inodeAt device s).start ≤ x ∧
    x < (inodeAt device s).start + bytesToSectors (inodeAt device s).length

/-- Sector `x` belongs to the inode in sector `s`. -/
def InFoot (device : Block) (s x : Nat) : Prop := x = s ∨ InData device s x

/-- The inode in sector `s` is well formed, and its sectors are marked. -/
structure ValidInode (device : Block) (freeMap : Bitmap) (s : Nat) : Prop where
  sector : s < device.size
  length : 0 ≤ (inodeAt device s).length
  /-- There are sectors for all the data. -/
  room : (inodeAt device s).length.toNat ≤
    blockSectorSize * bytesToSectors (inodeAt device s).length
  range : (inodeAt device s).start + bytesToSectors (inodeAt device s).length ≤ device.size
  own : ¬ InData device s s
  marked : ∀ x, InFoot device s x → freeMap.bit x = true

/-- The inodes in the sectors `L` are well formed, and share no sector. -/
structure DiskOk (device : Block) (freeMap : Bitmap) (L : Nat → Prop) : Prop where
  small : device.size < 2 ^ 32
  size : freeMap.size = device.size
  valid : ∀ s, L s → ValidInode device freeMap s
  disjoint : ∀ s s' x, L s → L s' → InFoot device s x → InFoot device s' x → s = s'

section

variable {device device' : Block} {freeMap freeMap' : Bitmap} {L L' : Nat → Prop} {s x : Nat}

theorem inodeAt_congr (h : device'.data s = device.data s) :
    inodeAt device' s = inodeAt device s := by
  rw [inodeAt, inodeAt, h]

theorem inFoot_congr (h : device'.data s = device.data s) :
    InFoot device' s x ↔ InFoot device s x := by
  rw [InFoot, InFoot, InData, InData, inodeAt_congr h]

theorem ValidInode.congr (h : ValidInode device freeMap s) (hsize : device'.size = device.size)
    (hsame : device'.data s = device.data s)
    (hbits : ∀ x, InFoot device s x → freeMap'.bit x = true) : ValidInode device' freeMap' s := by
  have hnode := inodeAt_congr hsame
  refine ⟨hsize ▸ h.sector, ?_, ?_, ?_, ?_, fun x hx ↦ hbits x ((inFoot_congr hsame).mp hx)⟩
  · rw [hnode]
    exact h.length
  · rw [hnode]
    exact h.room
  · rw [hnode, hsize]
    exact h.range
  · rw [InData, hnode]
    exact h.own

/-- The data sectors of a well-formed inode are on the device. -/
theorem ValidInode.onDevice (h : ValidInode device freeMap s) :
    Fs.OnDevice device.size (inodeAt device s) := by
  intro pos hpos
  have hroom := h.room
  have hrange := h.range
  simp only [byteToSector, blockSectorSize] at hroom ⊢
  omega

/-- A byte of the file is in a data sector. -/
theorem ValidInode.inData (h : ValidInode device freeMap s) {pos : Nat}
    (hpos : pos < (inodeAt device s).length.toNat) :
    InData device s (byteToSector (inodeAt device s) pos) := by
  have hroom := h.room
  simp only [InData, byteToSector, blockSectorSize] at hroom ⊢
  omega

/-- An inode that has been written to a sector, with sectors for its data. -/
theorem ValidInode.written {start : Nat} {length : Int} (hsmall : device.size < 2 ^ 32)
    (hs : s < device.size) (hnode : device.data s = (InodeDisk.mk start length inodeMagic).encode)
    (h0 : 0 ≤ length) (hlt : length < 2 ^ 31) (hrange : start + bytesToSectors length ≤ device.size)
    (hout : ¬ (start ≤ s ∧ s < start + bytesToSectors length)) (hmark : freeMap.bit s = true)
    (hset : ∀ x, start ≤ x → x < start + bytesToSectors length → freeMap.bit x = true) :
    ValidInode device freeMap s ∧ inodeAt device s = ⟨start, length, inodeMagic⟩ := by
  have hinode : inodeAt device s = ⟨start, length, inodeMagic⟩ := by
    rw [inodeAt, hnode]
    exact InodeDisk.decode_encode (show start < 2 ^ 32 by omega) (show -2 ^ 31 ≤ length by omega)
      hlt (show inodeMagic < 2 ^ 32 by decide)
  refine ⟨⟨hs, ?_, ?_, ?_, ?_, ?_⟩, hinode⟩
  · rwa [hinode]
  · rw [hinode]
    exact le_bytesToSectors h0 hlt
  · rwa [hinode]
  · rwa [InData, hinode]
  · rintro x (rfl | hx)
    · exact hmark
    · rw [InData, hinode] at hx
      exact hset x hx.1 hx.2

section

variable (h : DiskOk device freeMap L)

include h

theorem DiskOk.mono (hL : ∀ s, L' s → L s) :
    DiskOk device freeMap L' :=
  ⟨h.small, h.size, fun s hs ↦ h.valid s (hL s hs),
    fun s s' x hs hs' ↦ h.disjoint s s' x (hL s hs) (hL s' hs')⟩

/-- The live inodes are left alone, and their sectors stay marked. -/
theorem DiskOk.congr (hsize : device'.size = device.size)
    (hmap : freeMap'.size = freeMap.size) (hsame : ∀ s, L s → device'.data s = device.data s)
    (hbits : ∀ s x, L s → InFoot device s x → freeMap'.bit x = true) :
    DiskOk device' freeMap' L where
  small := hsize ▸ h.small
  size := by rw [hmap, h.size, hsize]
  valid s hs := (h.valid s hs).congr hsize (hsame s hs) fun x hx ↦ hbits s x hs hx
  disjoint s s' x hs hs' hx hx' := h.disjoint s s' x hs hs' ((inFoot_congr (hsame s hs)).mp hx)
    ((inFoot_congr (hsame s' hs')).mp hx')

/-- A live inode is not in a data sector of a live inode. -/
theorem DiskOk.not_inData {s' : Nat} (hs : L s) (hs' : L s') :
    ¬ InData device s s' := by
  intro hd
  obtain rfl : s = s' := h.disjoint s s' s' hs hs' (.inr hd) (.inl rfl)
  exact (h.valid s hs).own hd

/-- One more inode, whose sectors are in nobody's footprint. -/
theorem DiskOk.insert (hs : ValidInode device freeMap s)
    (hnew : ∀ s' x, L s' → InFoot device s x → ¬ InFoot device s' x) :
    DiskOk device freeMap fun s' ↦ s' = s ∨ L s' where
  small := h.small
  size := h.size
  valid s' := by
    rintro (rfl | hs')
    · exact hs
    · exact h.valid s' hs'
  disjoint s1 s2 x := by
    rintro (rfl | h1) (rfl | h2) hx1 hx2
    · rfl
    · exact absurd hx2 (hnew s2 x h2 hx1)
    · exact absurd hx1 (hnew s1 x h1 hx2)
    · exact h.disjoint s1 s2 x h1 h2 hx1 hx2

end

end

/-! ## The root directory -/

/-- Entry `k` of the root directory. -/
def rootEntry (device : Block) (k : Nat) : DirEntry :=
  .decode fun i ↦ Fs.fileByte device (inodeAt device rootDirSector) (dirEntrySize * k + i)

/-- An entry of the root directory names the inode in sector `s`. -/
def Listed (device : Block) (s : Nat) : Prop :=
  ∃ k < 16, (rootEntry device k).inUse = true ∧ (rootEntry device k).inodeSector = s

/-- The root directory has 16 entries, and those in use name different inodes, none of them the free
map or the root directory. -/
structure DirOk (device : Block) : Prop where
  length : (inodeAt device rootDirSector).length = 16 * dirEntrySize
  two_le : ∀ s, Listed device s → 2 ≤ s
  inj : ∀ k < 16, ∀ k' < 16, (rootEntry device k).inUse = true →
    (rootEntry device k').inUse = true →
    (rootEntry device k).inodeSector = (rootEntry device k').inodeSector → k = k'

section

variable {device device' : Block}

theorem rootEntry_congr (hroot : device'.data rootDirSector = device.data rootDirSector)
    (hdata : ∀ x, InData device rootDirSector x → device'.data x = device.data x) {k : Nat}
    (hin : ∀ pos < 16 * dirEntrySize,
      InData device rootDirSector (byteToSector (inodeAt device rootDirSector) pos))
    (hk : k < 16) : rootEntry device' k = rootEntry device k := by
  refine DirEntry.decode_congr fun i hi ↦ ?_
  rw [inodeAt_congr hroot, Fs.fileByte, Fs.fileByte, hdata _ (hin _ ?_)]
  simp only [dirEntrySize] at hi ⊢
  omega

end

end Pintos
