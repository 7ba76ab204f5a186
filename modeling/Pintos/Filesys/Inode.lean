import Pintos.Filesys.InodeIO

/-!
# The free map, inodes and open files

`filesys/free-map.c`, the rest of `filesys/inode.c`, and `filesys/file.c`.  The three depend on each
other: an inode takes its sectors from the free map, and the free map is a file.

A null pointer is `none`, and so is the result of code that follows one, fails an assertion, or
panics.
-/

set_option autoImplicit false

namespace Pintos

/-- `byte_cnt`: the bits are kept in 32-bit words. -/
def byteCnt (bitCnt : Nat) : Nat := 4 * ((bitCnt + 31) / 32)

/-- The bytes of a bitmap. -/
def Bitmap.bytes (b : Bitmap) : Buffer := fun j ↦
  ((List.range 8).map fun k ↦ if b.bit (8 * j + k) then 2 ^ k else 0).sum.toUInt8

/-- The bitmap in a buffer; the bits past the end are cleared. -/
def Bitmap.ofBytes (bitCnt : Nat) (buffer : Buffer) : Bitmap :=
  ⟨bitCnt, fun i ↦ i < bitCnt && (buffer (i / 8)).toNat.testBit (i % 8)⟩

/-- `FREE_MAP_SECTOR`. -/
abbrev freeMapSector : Nat := 0

/-- `ROOT_DIR_SECTOR`. -/
abbrev rootDirSector : Nat := 1

namespace Fs

/-! ## Access by position -/

/-- `file_read_at`. -/
def fileReadAt (fs : Fs) (file : Nat) (buffer : Buffer) (size : Int) (fileOfs : Nat) :
    Kernel (Nat × Buffer × Fs) := do
  let f ← fs.files file
  fs.inodeReadAt f.inode buffer size fileOfs

/-- `file_write_at`. -/
def fileWriteAt (fs : Fs) (file : Nat) (buffer : Buffer) (size : Int) (fileOfs : Nat) :
    Kernel (Nat × Fs) := do
  let f ← fs.files file
  fs.inodeWriteAt f.inode buffer size fileOfs

/-- `bitmap_write`, of the free map. -/
def bitmapWrite (fs : Fs) (file : Nat) : Kernel (Bool × Fs) := do
  let size := byteCnt fs.freeMap.size
  let (n, fs) ← fs.fileWriteAt file fs.freeMap.bytes size 0
  return (n = size, fs)

/-- `bitmap_read`, of the free map. -/
def bitmapRead (fs : Fs) (file : Nat) : Kernel (Bool × Fs) := do
  let size := byteCnt fs.freeMap.size
  if fs.freeMap.size = 0 then return (true, fs)
  let (n, buffer, fs) ← fs.fileReadAt file fs.freeMap.bytes size 0
  return (n = size, { fs with freeMap := .ofBytes fs.freeMap.size buffer })

/-! ## The free map -/

/-- `free_map_init`. -/
def freeMapInit (fs : Fs) : Kernel Fs := do
  let freeMap ← (Bitmap.create fs.device.size).set freeMapSector true
  let freeMap ← freeMap.set rootDirSector true
  return { fs with freeMap }

/-- `free_map_allocate`: the first sector, if there are enough. -/
def freeMapAllocate (fs : Fs) (cnt : Nat) : Kernel (Option Nat × Fs) := do
  let (sector, freeMap) ← fs.freeMap.scanAndFlip 0 cnt false
  let fs := { fs with freeMap }
  match sector, fs.freeMapFile with
  | some sector, some file =>
    let (written, fs) ← fs.bitmapWrite file
    if written then return (some sector, fs)
    let freeMap ← fs.freeMap.setMultiple sector cnt false
    return (none, { fs with freeMap })
  | sector, _ => return (sector, fs)

/-- `free_map_release`. -/
def freeMapRelease (fs : Fs) (sector cnt : Nat) : Kernel Fs := do
  assert (← fs.freeMap.all sector cnt)
  let freeMap ← fs.freeMap.setMultiple sector cnt false
  let (_, fs) ← bitmapWrite { fs with freeMap } (← fs.freeMapFile)
  return fs

/-! ## Inodes -/

/-- The zeros that `inode_create` writes to `cnt` sectors. -/
def writeZeros (device : Block) (start : Nat) : Nat → Kernel Block
  | 0 => some device
  | cnt + 1 => do
    let device ← writeZeros device start cnt
    device.write (start + cnt) fun _ ↦ 0

/-- `inode_create`. -/
def inodeCreate (fs : Fs) (sector : Nat) (length : Int) : Kernel (Bool × Fs) := do
  assert (0 ≤ length)
  match fs.malloc with
  | (false, fs) => return (false, fs)
  | (true, fs) =>
    let sectors := bytesToSectors length
    let (start, fs) ← fs.freeMapAllocate sectors
    match start with
    | none => return (false, fs)
    | some start =>
      let device ← fs.device.write sector (InodeDisk.mk start length inodeMagic).encode
      let device ← writeZeros device start sectors
      return (true, { fs with device })

/-- The open inode of a sector, if there is one. -/
def findInode (fs : Fs) (sector : Nat) : Option Nat :=
  fs.openInodes.find? fun id ↦ (fs.inodes id).any (·.sector == sector)

/-- `inode_reopen`. -/
def inodeReopen (fs : Fs) (id : Nat) : Kernel Fs := do
  let inode ← fs.inodes id
  return fs.setInode id (some { inode with openCnt := inode.openCnt + 1 })

/-- `inode_open`. -/
def inodeOpen (fs : Fs) (sector : Nat) : Kernel (Option Nat × Fs) := do
  match fs.findInode sector with
  | some id => return (some id, ← fs.inodeReopen id)
  | none =>
    match fs.malloc with
    | (false, fs) => return (none, fs)
    | (true, fs) =>
      let data ← fs.device.read sector
      let fs := { fs with openInodes := fs.next :: fs.openInodes, next := fs.next + 1 }
      return (some (fs.next - 1),
        fs.setInode (fs.next - 1) (some ⟨sector, 1, false, 0, .decode data⟩))

/-- `inode_close`, of an inode that is there.  The source frees the `struct inode` last, but nobody
looks at it after it has left `open_inodes`. -/
def inodeClose (fs : Fs) (id : Nat) : Kernel Fs := do
  let inode ← fs.inodes id
  if inode.openCnt ≠ 1 then
    return fs.setInode id (some { inode with openCnt := inode.openCnt - 1 })
  let fs := { fs with openInodes := fs.openInodes.erase id }.setInode id none
  if inode.removed then do
    let fs ← fs.freeMapRelease inode.sector 1
    fs.freeMapRelease inode.data.start (bytesToSectors inode.data.length)
  else return fs

/-- `inode_remove`. -/
def inodeRemove (fs : Fs) (id : Nat) : Kernel Fs := do
  let inode ← fs.inodes id
  return fs.setInode id (some { inode with removed := true })

/-- `inode_deny_write`. -/
def inodeDenyWrite (fs : Fs) (id : Nat) : Kernel Fs := do
  let inode ← fs.inodes id
  assert (inode.denyWriteCnt + 1 ≤ inode.openCnt)
  return fs.setInode id (some { inode with denyWriteCnt := inode.denyWriteCnt + 1 })

/-- `inode_allow_write`. -/
def inodeAllowWrite (fs : Fs) (id : Nat) : Kernel Fs := do
  let inode ← fs.inodes id
  assert (inode.denyWriteCnt > 0)
  assert (inode.denyWriteCnt ≤ inode.openCnt)
  return fs.setInode id (some { inode with denyWriteCnt := inode.denyWriteCnt - 1 })

/-! ## Files -/

/-- `file_open`. -/
def fileOpen (fs : Fs) (inode : Option Nat) : Kernel (Option Nat × Fs) := do
  match inode, fs.malloc with
  | some inode, (true, fs) =>
    let fs := { fs with next := fs.next + 1 }
    return (some (fs.next - 1), fs.setFile (fs.next - 1) (some ⟨inode, 0, false⟩))
  | some inode, (false, fs) => return (none, ← fs.inodeClose inode)
  | none, (_, fs) => return (none, fs)

/-- `file_reopen`. -/
def fileReopen (fs : Fs) (file : Nat) : Kernel (Option Nat × Fs) := do
  let f ← fs.files file
  let fs ← fs.inodeReopen f.inode
  fs.fileOpen (some f.inode)

/-- `file_allow_write`. -/
def fileAllowWrite (fs : Fs) (file : Nat) : Kernel Fs := do
  let f ← fs.files file
  if f.denyWrite then (fs.setFile file (some { f with denyWrite := false })).inodeAllowWrite f.inode
  else return fs

/-- `file_deny_write`. -/
def fileDenyWrite (fs : Fs) (file : Nat) : Kernel Fs := do
  let f ← fs.files file
  if f.denyWrite then return fs
  else (fs.setFile file (some { f with denyWrite := true })).inodeDenyWrite f.inode

/-- `file_close`; a null pointer is ignored.  The source frees the `struct file` after it has closed
the inode. -/
def fileClose (fs : Fs) : Option Nat → Kernel Fs
  | none => some fs
  | some file => do
    let fs ← fs.fileAllowWrite file
    let f ← fs.files file
    (fs.setFile file none).inodeClose f.inode

/-- `file_read`. -/
def fileRead (fs : Fs) (file : Nat) (buffer : Buffer) (size : Int) :
    Kernel (Nat × Buffer × Fs) := do
  let f ← fs.files file
  let (n, buffer, fs) ← fs.inodeReadAt f.inode buffer size f.pos
  return (n, buffer, fs.setFile file (some { f with pos := f.pos + n }))

/-- `file_write`. -/
def fileWrite (fs : Fs) (file : Nat) (buffer : Buffer) (size : Int) : Kernel (Nat × Fs) := do
  let f ← fs.files file
  let (n, fs) ← fs.inodeWriteAt f.inode buffer size f.pos
  return (n, fs.setFile file (some { f with pos := f.pos + n }))

/-- `file_length`. -/
def fileLength (fs : Fs) (file : Nat) : Kernel Int := do
  let f ← fs.files file
  let inode ← fs.inodes f.inode
  return inode.data.length

/-- `file_seek`. -/
def fileSeek (fs : Fs) (file : Nat) (newPos : Int) : Kernel Fs := do
  assert (0 ≤ newPos)
  let f ← fs.files file
  return fs.setFile file (some { f with pos := newPos.toNat })

/-- `file_tell`. -/
def fileTell (fs : Fs) (file : Nat) : Kernel Nat := do
  let f ← fs.files file
  return f.pos

end Fs

end Pintos
