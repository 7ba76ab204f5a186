import Pintos.Filesys.Inode

/-!
# The root directory and the functions of `filesys.c`

`filesys/directory.c` and `filesys/filesys.c`.  A `struct dir` only lives inside a function, so it
is its inode here.  A name is the bytes of the string, without the one that ends it.
-/

set_option autoImplicit false

namespace Pintos

namespace Fs

/-! ## Directories -/

/-- `dir_open`: the inode, if there is memory for a `struct dir`. -/
def dirOpen (fs : Fs) (inode : Option Nat) : Kernel (Option Nat × Fs) := do
  match inode, fs.malloc with
  | some inode, (true, fs) => return (some inode, fs)
  | some inode, (false, fs) => return (none, ← fs.inodeClose inode)
  | none, (_, fs) => return (none, fs)

/-- `dir_open_root`. -/
def dirOpenRoot (fs : Fs) : Kernel (Option Nat × Fs) := do
  let (inode, fs) ← fs.inodeOpen rootDirSector
  fs.dirOpen inode

/-- `dir_close`. -/
def dirClose (fs : Fs) : Option Nat → Kernel Fs
  | none => some fs
  | some inode => fs.inodeClose inode

/-- The number of entries that fit in the file of a directory. -/
def entryCnt (fs : Fs) (dir : Nat) : Nat :=
  match fs.inodes dir with
  | some inode => inode.data.length.toNat / dirEntrySize
  | none => 0

/-- The loop of `lookup`, from offset `ofs`: the entry with the name, and its offset. -/
def lookupLoop (dir : Nat) (name : List UInt8) :
    Nat → Fs → Buffer → Nat → Kernel (Option (DirEntry × Nat) × Fs)
  | 0, fs, _, _ => some (none, fs)
  | fuel + 1, fs, buffer, ofs => do
    let (n, buffer, fs) ← fs.inodeReadAt dir buffer dirEntrySize ofs
    if n ≠ dirEntrySize then return (none, fs)
    let e := DirEntry.decode buffer
    if e.inUse && cString e.name == name then return (some (e, ofs), fs)
    lookupLoop dir name fuel fs buffer (ofs + dirEntrySize)

/-- `lookup`.  After the last entry there is nothing to read. -/
def lookup (fs : Fs) (dir : Nat) (name : List UInt8) :
    Kernel (Option (DirEntry × Nat) × Fs) :=
  lookupLoop dir name (fs.entryCnt dir + 1) fs fs.garbage 0

/-- `dir_lookup`. -/
def dirLookup (fs : Fs) (dir : Nat) (name : List UInt8) : Kernel (Option Nat × Fs) := do
  let (found, fs) ← fs.lookup dir name
  match found with
  | some (e, _) => fs.inodeOpen e.inodeSector
  | none => return (none, fs)

/-- The second loop of `dir_add`: the offset of a slot that is not in use, or of the end, and what
the local variable holds then. -/
def freeSlotLoop (dir : Nat) : Nat → Fs → Buffer → Nat → Kernel (Nat × Buffer × Fs)
  | 0, fs, buffer, ofs => some (ofs, buffer, fs)
  | fuel + 1, fs, buffer, ofs => do
    let (n, buffer, fs) ← fs.inodeReadAt dir buffer dirEntrySize ofs
    if n ≠ dirEntrySize then return (ofs, buffer, fs)
    if !(DirEntry.decode buffer).inUse then return (ofs, buffer, fs)
    freeSlotLoop dir fuel fs buffer (ofs + dirEntrySize)

/-- `dir_add`. -/
def dirAdd (fs : Fs) (dir : Nat) (name : List UInt8) (inodeSector : Nat) :
    Kernel (Bool × Fs) := do
  if name = [] ∨ name.length > nameMax then return (false, fs)
  let (found, fs) ← fs.lookup dir name
  if found.isSome then return (false, fs)
  let (ofs, buffer, fs) ← freeSlotLoop dir (fs.entryCnt dir + 1) fs fs.garbage 0
  let e : DirEntry := ⟨inodeSector, strlcpyTo (DirEntry.decode buffer).name name, true⟩
  let (n, fs) ← fs.inodeWriteAt dir e.encode dirEntrySize ofs
  return (n = dirEntrySize, fs)

/-- `dir_remove`. -/
def dirRemove (fs : Fs) (dir : Nat) (name : List UInt8) : Kernel (Bool × Fs) := do
  let (found, fs) ← fs.lookup dir name
  match found with
  | none => return (false, fs)
  | some (e, ofs) =>
    let (inode, fs) ← fs.inodeOpen e.inodeSector
    match inode with
    | none => return (false, fs)
    | some inode =>
      let (n, fs) ← fs.inodeWriteAt dir { e with inUse := false }.encode dirEntrySize ofs
      if n ≠ dirEntrySize then return (false, ← fs.inodeClose inode)
      let fs ← fs.inodeRemove inode
      return (true, ← fs.inodeClose inode)

/-- The loop of `dir_readdir`, from position `pos`: the next name, and the position after it. -/
def readdirLoop (dir : Nat) : Nat → Fs → Buffer → Nat → Kernel (Option (List UInt8) × Nat × Fs)
  | 0, fs, _, pos => some (none, pos, fs)
  | fuel + 1, fs, buffer, pos => do
    let (n, buffer, fs) ← fs.inodeReadAt dir buffer dirEntrySize pos
    if n ≠ dirEntrySize then return (none, pos, fs)
    let e := DirEntry.decode buffer
    if e.inUse then return (some (cString e.name), pos + dirEntrySize, fs)
    readdirLoop dir fuel fs buffer (pos + dirEntrySize)

/-- `dir_readdir`, of a directory whose position is `pos`. -/
def dirReaddir (fs : Fs) (dir pos : Nat) : Kernel (Option (List UInt8) × Nat × Fs) :=
  readdirLoop dir (fs.entryCnt dir + 1) fs fs.garbage pos

/-- `dir_create`; the product is a `size_t` that becomes an `off_t`. -/
def dirCreate (fs : Fs) (sector entryCnt : Nat) : Kernel (Bool × Fs) :=
  fs.inodeCreate sector (toInt32 (entryCnt * dirEntrySize % 2 ^ 32))

/-! ## The file system -/

/-- `filesys_create`. -/
def filesysCreate (fs : Fs) (name : List UInt8) (initialSize : Int) : Kernel (Bool × Fs) := do
  let (dir, fs) ← fs.dirOpenRoot
  match dir with
  | none => return (false, fs)
  | some dir =>
    let (inodeSector, fs) ← fs.freeMapAllocate 1
    match inodeSector with
    | none => return (false, ← fs.dirClose dir)
    | some inodeSector =>
      let (created, fs) ← fs.inodeCreate inodeSector initialSize
      let (success, fs) ← if created then fs.dirAdd dir name inodeSector else some (false, fs)
      let fs ← if !success && inodeSector != 0 then fs.freeMapRelease inodeSector 1 else some fs
      return (success, ← fs.dirClose dir)

/-- `filesys_open`. -/
def filesysOpen (fs : Fs) (name : List UInt8) : Kernel (Option Nat × Fs) := do
  let (dir, fs) ← fs.dirOpenRoot
  let (inode, fs) ← match dir with
    | some dir => fs.dirLookup dir name
    | none => some (none, fs)
  let fs ← fs.dirClose dir
  fs.fileOpen inode

/-- `filesys_remove`. -/
def filesysRemove (fs : Fs) (name : List UInt8) : Kernel (Bool × Fs) := do
  let (dir, fs) ← fs.dirOpenRoot
  let (success, fs) ← match dir with
    | some dir => fs.dirRemove dir name
    | none => some (false, fs)
  return (success, ← fs.dirClose dir)

/-! ## Formatting -/

/-- `free_map_create`. -/
def freeMapCreate (fs : Fs) : Kernel Fs := do
  let (created, fs) ← fs.inodeCreate freeMapSector (byteCnt fs.freeMap.size)
  assert (created = true)
  let (inode, fs) ← fs.inodeOpen freeMapSector
  let (file, fs) ← fs.fileOpen inode
  let (written, fs) ← bitmapWrite { fs with freeMapFile := file } (← file)
  assert (written = true)
  return fs

/-- `free_map_open`. -/
def freeMapOpen (fs : Fs) : Kernel Fs := do
  let (inode, fs) ← fs.inodeOpen freeMapSector
  let (file, fs) ← fs.fileOpen inode
  let (readOk, fs) ← bitmapRead { fs with freeMapFile := file } (← file)
  assert (readOk = true)
  return fs

/-- `do_format`. -/
def doFormat (fs : Fs) : Kernel Fs := do
  let fs ← fs.freeMapCreate
  let (created, fs) ← fs.inodeCreate rootDirSector (16 * dirEntrySize : Nat)
  assert (created = true)
  fs.fileClose fs.freeMapFile

/-- Nothing is open. -/
abbrev atStart (device : Block) (oracle : List Bool) (garbage : Buffer) : Fs :=
  { device, freeMap := .create 0, freeMapFile := none, inodes := fun _ ↦ none, openInodes := [],
    files := fun _ ↦ none, next := 0, oracle, garbage }

/-- `filesys_init (true)` on a device, with the memory that is to come. -/
def filesysInit (device : Block) (oracle : List Bool) (garbage : Buffer) : Kernel Fs := do
  let fs ← (atStart device oracle garbage).freeMapInit
  let fs ← fs.doFormat
  fs.freeMapOpen

/-- `filesys_init (false)`: a device that has been formatted before. -/
def filesysMount (device : Block) (oracle : List Bool) (garbage : Buffer) : Kernel Fs := do
  let fs ← (atStart device oracle garbage).freeMapInit
  fs.freeMapOpen

end Fs

end Pintos
