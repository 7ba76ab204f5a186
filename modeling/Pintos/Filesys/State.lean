import Pintos.Devices.Block

/-!
# The structures of the file system

What `filesys/` keeps on the device and in memory.  The structures on the device are bytes: an
inode is the 512 bytes of `struct inode_disk`, a directory entry the 20 bytes of
`struct dir_entry`, and `decode` and `encode` go from one to the other.  In memory, an object that
other objects point to — a `struct inode`, a `struct file` — has a number that stands for its
address.

Whether `malloc` and `calloc` find memory is not determined by the file system, so the state has a
list of the answers to come (`Fs.oracle`); where the list ends, there is memory.
-/

set_option autoImplicit false

namespace Pintos

open List

/-- Bytes in memory, by offset. -/
abbrev Buffer := Nat → UInt8

/-! ## Numbers in little-endian order -/

/-- The 32-bit number at offset `o`. -/
def le32 (b : Buffer) (o : Nat) : Nat :=
  (b o).toNat + 2 ^ 8 * (b (o + 1)).toNat + 2 ^ 16 * (b (o + 2)).toNat + 2 ^ 24 * (b (o + 3)).toNat

/-- Byte `i` of a 32-bit number. -/
def byteOf (v i : Nat) : UInt8 := (v / 2 ^ (8 * i)).toUInt8

/-- A 32-bit number as an `int`. -/
def toInt32 (v : Nat) : Int := (v : Int).bmod (2 ^ 32)

/-- An `int` as a 32-bit number. -/
def ofInt32 (v : Int) : Nat := (v % 2 ^ 32).toNat

theorem le32_lt (b : Buffer) (o : Nat) : le32 b o < 2 ^ 32 := by
  have h0 := (b o).toNat_lt
  have h1 := (b (o + 1)).toNat_lt
  have h2 := (b (o + 2)).toNat_lt
  have h3 := (b (o + 3)).toNat_lt
  unfold le32
  omega

theorem le32_byteOf {b : Buffer} {o v : Nat} (hv : v < 2 ^ 32)
    (h : ∀ i < 4, b (o + i) = byteOf v i) : le32 b o = v := by
  have h0 := h 0 (by omega)
  have h1 := h 1 (by omega)
  have h2 := h 2 (by omega)
  have h3 := h 3 (by omega)
  rw [Nat.add_zero] at h0
  simp only [le32, h0, h1, h2, h3, byteOf, Nat.toUInt8, UInt8.toNat_ofNat']
  omega

theorem le32_congr {b b' : Buffer} {o : Nat} (h : ∀ i < 4, b (o + i) = b' (o + i)) :
    le32 b o = le32 b' o := by
  have h0 := h 0 (by omega)
  have h1 := h 1 (by omega)
  have h2 := h 2 (by omega)
  have h3 := h 3 (by omega)
  rw [Nat.add_zero] at h0
  rw [le32, le32, h0, h1, h2, h3]

theorem toInt32_ofInt32 {v : Int} (h : -2 ^ 31 ≤ v) (h' : v < 2 ^ 31) :
    toInt32 (ofInt32 v) = v := by
  unfold toInt32 ofInt32
  rw [Int.toNat_of_nonneg (by omega)]
  simp only [Int.bmod]
  split <;> omega

theorem toInt32_of_lt {v : Nat} (h : v < 2 ^ 31) : toInt32 v = v := by
  have hbmod : (v : Int).bmod 4294967296 = v := Int.bmod_eq_of_le (by omega) (by omega)
  exact hbmod

theorem toInt32_neg {v : Nat} (h : 2 ^ 31 ≤ v) (h' : v < 2 ^ 32) : toInt32 v < 0 := by
  have hbmod : (v : Int).bmod 4294967296 = v - 4294967296 := by
    simp only [Int.bmod]
    split <;> omega
  have hto : toInt32 v = v - 4294967296 := hbmod
  omega

theorem ofInt32_lt (v : Int) : ofInt32 v < 2 ^ 32 := by
  unfold ofInt32
  omega

/-! ## Inodes -/

/-- `struct inode_disk`. -/
structure InodeDisk where
  start : Nat
  length : Int
  magic : Nat
  deriving DecidableEq, Repr

/-- The inode in a sector. -/
def InodeDisk.decode (s : Sector) : InodeDisk := ⟨le32 s 0, toInt32 (le32 s 4), le32 s 8⟩

/-- The sector of an inode. -/
def InodeDisk.encode (d : InodeDisk) : Sector := fun i ↦
  if i < 4 then byteOf d.start i
  else if i < 8 then byteOf (ofInt32 d.length) (i - 4)
  else if i < 12 then byteOf d.magic (i - 8)
  else 0

theorem InodeDisk.decode_encode {d : InodeDisk} (hstart : d.start < 2 ^ 32)
    (hlow : -2 ^ 31 ≤ d.length) (hhigh : d.length < 2 ^ 31) (hmagic : d.magic < 2 ^ 32) :
    decode d.encode = d := by
  have h0 : le32 d.encode 0 = d.start := le32_byteOf hstart fun i hi ↦ by
    rw [Nat.zero_add, encode, if_pos hi]
  have h4 : le32 d.encode 4 = ofInt32 d.length := le32_byteOf (ofInt32_lt _) fun i hi ↦ by
    rw [encode, if_neg (by omega), if_pos (by omega), Nat.add_sub_cancel_left]
  have h8 : le32 d.encode 8 = d.magic := le32_byteOf hmagic fun i hi ↦ by
    rw [encode, if_neg (by omega), if_neg (by omega), if_pos (by omega), Nat.add_sub_cancel_left]
  rw [decode, h0, h4, h8, toInt32_ofInt32 hlow hhigh]

/-- `INODE_MAGIC`. -/
def inodeMagic : Nat := 0x494e4f44

/-- `bytes_to_sectors`: the sum is an `int`, and the quotient becomes a `size_t`. -/
def bytesToSectors (size : Int) : Nat :=
  ofInt32 (((size + blockSectorSize - 1).bmod (2 ^ 32)).tdiv blockSectorSize)

theorem bytesToSectors_eq {size : Nat} (h : size + 511 < 2 ^ 31) :
    bytesToSectors size = (size + 511) / 512 := by
  have hadd : ((size : Int) + blockSectorSize - 1).bmod (2 ^ 32) = ((size + 511 : Nat) : Int) := by
    rw [Int.bmod_eq_of_le] <;> simp only [blockSectorSize] <;> omega
  rw [bytesToSectors, hadd, ofInt32, blockSectorSize, ← Int.ofNat_tdiv]
  omega

/-- There are enough sectors for the bytes, also where the sum overflows. -/
theorem le_bytesToSectors {length : Int} (h0 : 0 ≤ length) (h : length < 2 ^ 31) :
    length.toNat ≤ blockSectorSize * bytesToSectors length := by
  obtain ⟨n, rfl⟩ := Int.eq_ofNat_of_zero_le h0
  by_cases hn : n + 511 < 2 ^ 31
  · rw [bytesToSectors_eq hn, blockSectorSize]
    omega
  · -- The sum overflows, and the quotient is a huge number.
    have hadd : ((n : Int) + blockSectorSize - 1).bmod (2 ^ 32) =
        -((2 ^ 32 - (n + 511) : Nat) : Int) := by
      simp only [Int.bmod, blockSectorSize]
      split <;> omega
    rw [bytesToSectors, hadd, ofInt32, blockSectorSize, Int.neg_tdiv, ← Int.ofNat_tdiv]
    omega

/-- `chunk_size` in the loops of `inode_read_at` and `inode_write_at`: the bytes left in the sector
of `pos`, in the file and in the request. -/
def chunkSize (size pos length : Nat) : Nat :=
  min size (min (length - pos) (blockSectorSize - pos % blockSectorSize))

/-- `struct inode`. -/
structure Inode where
  sector : Nat
  openCnt : Nat
  removed : Bool
  denyWriteCnt : Nat
  data : InodeDisk
  deriving DecidableEq, Repr

/-! ## Directory entries -/

/-- `NAME_MAX`. -/
abbrev nameMax : Nat := 14

/-- `sizeof (struct dir_entry)`. -/
abbrev dirEntrySize : Nat := 20

/-- `struct dir_entry`; `name` has `NAME_MAX + 1` bytes. -/
structure DirEntry where
  inodeSector : Nat
  name : List UInt8
  inUse : Bool
  deriving DecidableEq, Repr

/-- The directory entry in a buffer. -/
def DirEntry.decode (b : Buffer) : DirEntry :=
  ⟨le32 b 0, (List.range (nameMax + 1)).map fun i ↦ b (4 + i), b 19 != 0⟩

/-- The bytes of a directory entry. -/
def DirEntry.encode (e : DirEntry) : Buffer := fun i ↦
  if i < 4 then byteOf e.inodeSector i
  else if i < 19 then e.name.getD (i - 4) 0
  else if e.inUse then 1 else 0

/-- Only the bytes of the entry matter. -/
theorem DirEntry.decode_congr {b b' : Buffer} (h : ∀ i < dirEntrySize, b i = b' i) :
    decode b = decode b' := by
  simp only [dirEntrySize] at h
  have hsector : le32 b 0 = le32 b' 0 := le32_congr fun i hi ↦ h _ (by omega)
  have hname : ((range (nameMax + 1)).map fun i ↦ b (4 + i)) =
      (range (nameMax + 1)).map fun i ↦ b' (4 + i) := by
    refine map_congr_left fun i hi ↦ h _ ?_
    simp only [nameMax, mem_range] at hi
    omega
  rw [decode, decode, hsector, hname, h 19 (by omega)]

theorem DirEntry.decode_encode {e : DirEntry} (hsector : e.inodeSector < 2 ^ 32)
    (hname : e.name.length = nameMax + 1) : decode e.encode = e := by
  have h0 : le32 e.encode 0 = e.inodeSector := le32_byteOf hsector fun i hi ↦ by
    rw [Nat.zero_add, encode, if_pos hi]
  have hbytes : ((range (nameMax + 1)).map fun i ↦ e.encode (4 + i)) = e.name := by
    refine ext_getElem (by simp [hname]) fun i hi hi' ↦ ?_
    have hlt : i < 15 := hi
    rw [getElem_map, getElem_range, encode, if_neg (by omega), if_pos (by omega),
      Nat.add_sub_cancel_left, getD_eq_getElem?_getD, getElem?_eq_getElem,
      Option.getD_some]
  have huse : (e.encode 19 != 0) = e.inUse := by
    rw [encode, if_neg (by decide), if_neg (by decide)]
    cases e.inUse <;> rfl
  rw [decode, h0, hbytes, huse]

/-- The string in an array of bytes. -/
def cString (bytes : List UInt8) : List UInt8 := bytes.takeWhile (· != 0)

/-- `strlcpy`, to an array that has room for the string. -/
def strlcpyTo (old name : List UInt8) : List UInt8 := name ++ 0 :: old.drop (name.length + 1)

/-! ## Open files, and the state -/

/-- `struct file`; `inode` stands for a pointer.  The position is never negative. -/
structure File where
  inode : Nat
  pos : Nat
  denyWrite : Bool
  deriving DecidableEq, Repr

/-- The file system. -/
structure Fs where
  /-- `fs_device`. -/
  device : Block
  /-- `free_map`. -/
  freeMap : Bitmap
  /-- `free_map_file`. -/
  freeMapFile : Option Nat
  /-- The `struct inode`s. -/
  inodes : Nat → Option Inode
  /-- `open_inodes`. -/
  openInodes : List Nat
  /-- The `struct file`s. -/
  files : Nat → Option File
  /-- The address of the next object. -/
  next : Nat
  /-- Whether the next calls of `malloc` and `calloc` succeed. -/
  oracle : List Bool
  /-- What a local variable holds before it is assigned. -/
  garbage : Buffer

namespace Fs

/-- Whether `malloc` or `calloc` succeeds. -/
def malloc (fs : Fs) : Bool × Fs :=
  match fs.oracle with
  | [] => (true, fs)
  | ok :: oracle => (ok, { fs with oracle })

/-- Store to a `struct inode`. -/
def setInode (fs : Fs) (id : Nat) (inode : Option Inode) : Fs :=
  { fs with inodes := Function.update fs.inodes id inode }

/-- Store to a `struct file`. -/
def setFile (fs : Fs) (id : Nat) (file : Option File) : Fs :=
  { fs with files := Function.update fs.files id file }

@[simp]
theorem inodes_setInode (fs : Fs) (id : Nat) (inode : Option Inode) :
    (fs.setInode id inode).inodes = Function.update fs.inodes id inode := rfl

@[simp]
theorem files_setFile (fs : Fs) (id : Nat) (file : Option File) :
    (fs.setFile id file).files = Function.update fs.files id file := rfl

@[simp]
theorem files_setInode (fs : Fs) (id : Nat) (inode : Option Inode) :
    (fs.setInode id inode).files = fs.files := rfl

@[simp]
theorem inodes_setFile (fs : Fs) (id : Nat) (file : Option File) :
    (fs.setFile id file).inodes = fs.inodes := rfl

/-- What is stored at an address after a store to another one, or to it. -/
theorem inodes_setInode_eq_some {fs : Fs} {id id' : Nat} {new : Option Inode} {inode : Inode} :
    (fs.setInode id new).inodes id' = some inode ↔
      id' = id ∧ new = some inode ∨ id' ≠ id ∧ fs.inodes id' = some inode := by
  by_cases h : id' = id <;> simp [h]

theorem malloc_cases (fs : Fs) : ∃ ok oracle, fs.malloc = (ok, { fs with oracle }) ∧
      (fs.oracle = [] → ok = true ∧ oracle = []) := by
  unfold malloc
  split
  · next h => exact ⟨true, [], by rw [← h], fun _ ↦ ⟨rfl, rfl⟩⟩
  · next ok oracle h => exact ⟨ok, oracle, rfl, fun h' ↦ nomatch h.symm.trans h'⟩

end Fs

end Pintos
