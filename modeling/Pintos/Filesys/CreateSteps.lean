import Pintos.Filesys.Stores
import Pintos.Logic.Resumption

/-!
# `filesys_create`, step by step

`syscall_create` takes no lock, so another thread may run whenever `filesys_create` waits for the
disk, and between `bitmap_scan` and `bitmap_set_multiple`.  Here the functions it calls are cut into
steps: each access to the device, to the free map, to an inode in memory and each call of `malloc`
is one.  What a function reads again after it has waited, it reads from the state of that time: the
members of an inode in each round of a loop, and the bits of the free map while they are written.

If nobody interferes, the steps come to what the functions of `Pintos.Filesys.Inode` and
`Pintos.Filesys.Directory` do (`Steps.run_filesysCreate`).
-/

set_option autoImplicit false

namespace Pintos

open Function Option

variable {buffer : Buffer} {r : Bool × Fs}

namespace Fs

namespace Steps

/-! ## Single steps -/

/-- `block_read`. -/
def blockRead (sector : Nat) : Resumption Fs Sector :=
  .act fun fs ↦ (fs.device.read sector).map (·, fs)

/-- `block_write`, of what the buffer holds then. -/
def blockWrite (sector : Nat) (buffer : Fs → Sector) : Resumption Fs Unit :=
  .act fun fs ↦ (fs.device.write sector (buffer fs)).map fun device ↦ ((), { fs with device })

/-- `malloc` or `calloc`. -/
def malloc : Resumption Fs Bool := .act fun fs ↦ some fs.malloc

/-- The members of an inode in memory. -/
def theInode (id : Nat) : Resumption Fs Inode := .act fun fs ↦ (fs.inodes id).map (·, fs)

/-- There is a bounce buffer already, or `malloc` finds memory for one. -/
def getBounce (bounce : Bool) : Resumption Fs Bool := if bounce then pure true else malloc

/-! ## Access by position -/

/-- The loop of `inode_read_at`. -/
def readLoop (id : Nat) : Nat → Bool → Buffer → Nat → Nat → Nat → Resumption Fs (Nat × Buffer)
  | 0, _, buffer, _, _, bytesRead => pure (bytesRead, buffer)
  | fuel + 1, bounce, buffer, size, offset, bytesRead => do
    let inode ← theInode id
    let sectorOfs := offset % blockSectorSize
    let chunk := chunkSize size offset inode.data.length.toNat
    if chunk = 0 then pure (bytesRead, buffer)
    else if sectorOfs = 0 ∧ chunk = blockSectorSize then do
      let sector ← blockRead (byteToSector inode.data offset)
      readLoop id fuel bounce (memcpy buffer bytesRead sector 0 chunk) (size - chunk)
        (offset + chunk) (bytesRead + chunk)
    else do
      let ok ← getBounce bounce
      if ok then do
        let sector ← blockRead (byteToSector inode.data offset)
        readLoop id fuel true (memcpy buffer bytesRead sector sectorOfs chunk) (size - chunk)
          (offset + chunk) (bytesRead + chunk)
      else pure (bytesRead, buffer)

/-- `inode_read_at`. -/
def inodeReadAt (id : Nat) (buffer : Buffer) (size : Int) (offset : Nat) :
    Resumption Fs (Nat × Buffer) := do
  let _ ← theInode id
  readLoop id size.toNat false buffer size.toNat offset 0

/-- Fill the bounce buffer: the rest of the sector is kept. -/
def fillBounce (keep : Bool) (sector : Nat) : Resumption Fs Sector :=
  if keep then blockRead sector else pure fun _ ↦ 0

/-- The loop of `inode_write_at`. -/
def writeLoop (id : Nat) (buffer : Fs → Buffer) :
    Nat → Bool → Nat → Nat → Nat → Resumption Fs Nat
  | 0, _, _, _, bytesWritten => pure bytesWritten
  | fuel + 1, bounce, size, offset, bytesWritten => do
    let inode ← theInode id
    let sectorOfs := offset % blockSectorSize
    let chunk := chunkSize size offset inode.data.length.toNat
    if chunk = 0 then pure bytesWritten
    else if sectorOfs = 0 ∧ chunk = blockSectorSize then do
      blockWrite (byteToSector inode.data offset) fun fs i ↦ buffer fs (bytesWritten + i)
      writeLoop id buffer fuel bounce (size - chunk) (offset + chunk) (bytesWritten + chunk)
    else do
      let ok ← getBounce bounce
      if ok then do
        let old ← fillBounce (sectorOfs > 0 ∨ chunk < blockSectorSize - sectorOfs)
          (byteToSector inode.data offset)
        blockWrite (byteToSector inode.data offset) fun fs ↦
          memcpy old sectorOfs (buffer fs) bytesWritten chunk
        writeLoop id buffer fuel true (size - chunk) (offset + chunk) (bytesWritten + chunk)
      else pure bytesWritten

/-- `inode_write_at`. -/
def inodeWriteAt (id : Nat) (buffer : Fs → Buffer) (size : Int) (offset : Nat) :
    Resumption Fs Nat := do
  let inode ← theInode id
  if inode.denyWriteCnt ≠ 0 then pure 0
  else writeLoop id buffer size.toNat false size.toNat offset 0

/-! ## The free map -/

/-- `bitmap_write`, of the free map. -/
def bitmapWrite (file : Nat) : Resumption Fs Bool := do
  let (size, inode) ← .act fun fs ↦ do
    let f ← fs.files file
    return ((byteCnt fs.freeMap.size, f.inode), fs)
  let n ← inodeWriteAt inode (fun fs ↦ fs.freeMap.bytes) size 0
  return n = size

/-- `bitmap_set_multiple`, of the free map. -/
def setMultiple (sector cnt : Nat) (value : Bool) : Resumption Fs Unit := .act fun fs ↦
  (fs.freeMap.setMultiple sector cnt value).map fun freeMap ↦ ((), { fs with freeMap })

/-- `bitmap_scan_and_flip`, of the free map. -/
def scanAndFlip (cnt : Nat) : Resumption Fs (Option Nat) := do
  let idx ← .act fun fs ↦ (fs.freeMap.scan 0 cnt false).map (·, fs)
  match idx with
  | some i =>
    setMultiple i cnt true
    return some i
  | none => return none

/-- `free_map_allocate`. -/
def freeMapAllocate (cnt : Nat) : Resumption Fs (Option Nat) := do
  let sector ← scanAndFlip cnt
  let file ← .act fun fs ↦ some (fs.freeMapFile, fs)
  match sector, file with
  | some sector, some file =>
    let written ← bitmapWrite file
    if written then return some sector
    else
      setMultiple sector cnt false
      return none
  | sector, _ => return sector

/-- `free_map_release`. -/
def freeMapRelease (sector cnt : Nat) : Resumption Fs Unit := do
  let file ← .act fun fs ↦ do
    assert (← fs.freeMap.all sector cnt)
    return (fs.freeMapFile, fs)
  setMultiple sector cnt false
  match file with
  | some file =>
    let _ ← bitmapWrite file
    return ()
  | none => .stuck

/-! ## Inodes -/

/-- The zeros that `inode_create` writes to `cnt` sectors. -/
def writeZeros (start : Nat) : Nat → Resumption Fs Unit
  | 0 => pure ()
  | cnt + 1 => do
    writeZeros start cnt
    blockWrite (start + cnt) fun _ _ ↦ 0

/-- `inode_create`. -/
def inodeCreate (sector : Nat) (length : Int) : Resumption Fs Bool := do
  if 0 ≤ length then
    let ok ← malloc
    if ok then
      let sectors := bytesToSectors length
      let start ← freeMapAllocate sectors
      match start with
      | none => return false
      | some start =>
        blockWrite sector fun _ ↦ (InodeDisk.mk start length inodeMagic).encode
        writeZeros start sectors
        return true
    else return false
  else .stuck

/-- The first part of `inode_open`: the inode, and whether it has to be read from the device.  It is
on `open_inodes` before that. -/
def findOrAdd (sector : Nat) : Resumption Fs (Option (Nat × Bool)) := .act fun fs ↦
  match fs.findInode sector with
  | some id => do return (some (id, false), ← fs.inodeReopen id)
  | none =>
    match fs.malloc with
    | (false, fs) => some (none, fs)
    | (true, fs) =>
      some (some (fs.next, true), { fs with
        openInodes := fs.next :: fs.openInodes, next := fs.next + 1 }.setInode fs.next
          (some ⟨sector, 1, false, 0, .decode fs.garbage⟩))

/-- `inode_open`. -/
def inodeOpen (sector : Nat) : Resumption Fs (Option Nat) := do
  let found ← findOrAdd sector
  match found with
  | none => return none
  | some (id, false) => return some id
  | some (id, true) =>
    -- `block_read (fs_device, inode->sector, &inode->data)`
    .act fun fs ↦ do
      let data ← fs.device.read sector
      let inode ← fs.inodes id
      return (some id, fs.setInode id (some { inode with data := .decode data }))

/-- `inode_close`. -/
def inodeClose (id : Nat) : Resumption Fs Unit := do
  let (inode, last) ← .act fun fs ↦ do
    let inode ← fs.inodes id
    if inode.openCnt ≠ 1 then
      return ((inode, false), fs.setInode id (some { inode with openCnt := inode.openCnt - 1 }))
    else
      return ((inode, true), { fs with openInodes := fs.openInodes.erase id }.setInode id none)
  if last ∧ inode.removed then
    freeMapRelease inode.sector 1
    freeMapRelease inode.data.start (bytesToSectors inode.data.length)
  else return ()

/-! ## Directories -/

/-- `dir_open_root`. -/
def dirOpenRoot : Resumption Fs (Option Nat) := do
  let inode ← inodeOpen rootDirSector
  let ok ← malloc
  match inode with
  | none => return none
  | some inode =>
    if ok then return some inode
    else
      inodeClose inode
      return none

/-- An upper bound for the number of rounds of a loop over the entries of a directory: `ofs` is an
`off_t`. -/
abbrev maxEntries : Nat := 2 ^ 31 / dirEntrySize

/-- The loop of `lookup`: the entry with the name, and its offset. -/
def lookupLoop (dir : Nat) (name : List UInt8) :
    Nat → Buffer → Nat → Resumption Fs (Option (DirEntry × Nat))
  | 0, _, _ => pure none
  | fuel + 1, buffer, ofs => do
    let (n, buffer) ← inodeReadAt dir buffer dirEntrySize ofs
    if n ≠ dirEntrySize then pure none
    else
      let e := DirEntry.decode buffer
      if e.inUse && cString e.name == name then pure (some (e, ofs))
      else lookupLoop dir name fuel buffer (ofs + dirEntrySize)

/-- What a local variable holds before it is assigned. -/
def garbage : Resumption Fs Buffer := .act fun fs ↦ some (fs.garbage, fs)

/-- The second loop of `dir_add`. -/
def freeSlotLoop (dir : Nat) : Nat → Buffer → Nat → Resumption Fs (Nat × Buffer)
  | 0, buffer, ofs => pure (ofs, buffer)
  | fuel + 1, buffer, ofs => do
    let (n, buffer) ← inodeReadAt dir buffer dirEntrySize ofs
    if n ≠ dirEntrySize then pure (ofs, buffer)
    else if !(DirEntry.decode buffer).inUse then pure (ofs, buffer)
    else freeSlotLoop dir fuel buffer (ofs + dirEntrySize)

/-- `dir_add`. -/
def dirAdd (dir : Nat) (name : List UInt8) (inodeSector : Nat) : Resumption Fs Bool := do
  if name = [] ∨ name.length > nameMax then return false
  else
    let found ← lookupLoop dir name maxEntries (← garbage) 0
    if found.isSome then return false
    else
      let (ofs, buffer) ← freeSlotLoop dir maxEntries (← garbage) 0
      let e : DirEntry := ⟨inodeSector, strlcpyTo (DirEntry.decode buffer).name name, true⟩
      let n ← inodeWriteAt dir (fun _ ↦ e.encode) dirEntrySize ofs
      return n = dirEntrySize

/-- `filesys_create`. -/
def filesysCreate (name : List UInt8) (initialSize : Int) : Resumption Fs Bool := do
  let dir ← dirOpenRoot
  match dir with
  | none => return false
  | some dir =>
    let inodeSector ← freeMapAllocate 1
    match inodeSector with
    | none =>
      inodeClose dir
      return false
    | some inodeSector =>
      let created ← inodeCreate inodeSector initialSize
      let success ← if created then dirAdd dir name inodeSector else pure false
      if !success && inodeSector != 0 then freeMapRelease inodeSector 1
      inodeClose dir
      return success

/-! ## If there is memory -/

section

variable {fs : Fs} {cnt s : Nat}

theorem memory_writeLoop {data : InodeDisk} {fuel size offset bytes : Nat}
    {bounce : Bool} {r : Nat × Fs} (hmem : fs.oracle = [])
    (h : Fs.writeLoop data buffer fuel bounce fs size offset bytes = some r) : r.2.oracle = [] := by
  induction fuel generalizing fs bounce size offset bytes with
  | zero =>
    cases h
    exact hmem
  | succ fuel ih =>
    rw [Fs.writeLoop] at h
    split at h
    · cases h
      exact hmem
    split at h
    · simp only [bind_eq_bind, bind_eq_some_iff] at h
      obtain ⟨device, -, h⟩ := h
      exact ih (show ({ fs with device } : Fs).oracle = [] from hmem) h
    · obtain ⟨oracle, heq, hquiet⟩ | ⟨-, hne, -⟩ := fs.getBounce_cases bounce
      · simp only [heq, bind_eq_bind] at h
        split at h <;> simp only [bind_eq_some_iff] at h <;>
        · obtain ⟨_, -, device, -, h⟩ := h
          exact ih (show ({ fs with oracle, device } : Fs).oracle = [] from hquiet hmem) h
      · exact absurd hmem hne

theorem memory_bitmapWrite {f : Nat} (hmem : fs.oracle = [])
    (h : fs.bitmapWrite f = some r) : r.2.oracle = [] := by
  simp only [Fs.bitmapWrite, fileWriteAt, Fs.inodeWriteAt, bind_eq_bind,
    bind_eq_some_iff] at h
  obtain ⟨_, ⟨file, -, inode, -, h⟩, heq⟩ := h
  cases heq
  split at h
  · cases h
    exact hmem
  · exact memory_writeLoop hmem h

theorem memory_freeMapAllocate {r : Option Nat × Fs} (hmem : fs.oracle = [])
    (h : fs.freeMapAllocate cnt = some r) : r.2.oracle = [] := by
  simp only [Fs.freeMapAllocate, bind_eq_bind, bind_eq_some_iff] at h
  obtain ⟨⟨sector, b⟩, -, h⟩ := h
  split at h
  · simp only [bind_eq_some_iff] at h
    obtain ⟨⟨written, fs1⟩, hwrite, h⟩ := h
    have hmem1 : fs1.oracle = [] :=
      memory_bitmapWrite (show ({ fs with freeMap := b } : Fs).oracle = [] from hmem) hwrite
    split at h
    · cases h
      exact hmem1
    · simp only [bind_eq_some_iff] at h
      obtain ⟨_, -, heq⟩ := h
      cases heq
      exact hmem1
  · cases h
    exact hmem

theorem memory_inodeCreate {length : Int} (hmem : fs.oracle = [])
    (h : fs.inodeCreate s length = some r) : r.2.oracle = [] := by
  simp only [Fs.inodeCreate, malloc_memory hmem, bind_eq_bind, bind_eq_some_iff] at h
  obtain ⟨-, -, ⟨start, fs1⟩, hall, h⟩ := h
  have hmem1 := memory_freeMapAllocate hmem hall
  cases start with
  | none =>
    cases h
    exact hmem1
  | some start =>
    simp only [bind_eq_some_iff] at h
    obtain ⟨_, -, _, -, heq⟩ := h
    cases heq
    exact hmem1

end

/-! ## If nobody interferes -/

section

variable {fs : Fs} {id fuel size offset bytes : Nat} {bounce : Bool} {inode : Inode}
  {buffer : Buffer}

theorem run_getBounce : (getBounce bounce).run fs = some (fs.getBounce bounce) := by
  rw [getBounce, Fs.getBounce]
  cases bounce with
  | true => rfl
  | false => exact Resumption.run_act ..

theorem run_theInode (h : fs.inodes id = some inode) : (theInode id).run fs = some (inode, fs) := by
  rw [theInode, Resumption.run_act, h]
  rfl

theorem run_readLoop (h : fs.inodes id = some inode) :
    (readLoop id fuel bounce buffer size offset bytes).run fs =
      (Fs.readLoop inode.data fuel bounce fs buffer size offset bytes).map
        fun r ↦ ((r.1, r.2.1), r.2.2) := by
  induction fuel generalizing fs bounce buffer size offset bytes with
  | zero => rfl
  | succ fuel ih =>
    rw [readLoop, Fs.readLoop, Resumption.run_bind, run_theInode h, bind_some]
    rw [Resumption.run_ite, Resumption.run_ite]
    split
    · rfl
    split
    · rw [Resumption.run_bind, blockRead, Resumption.run_act]
      cases fs.device.read (byteToSector inode.data offset) with
      | none => rfl
      | some sector => exact ih h
    · rw [Resumption.run_bind, run_getBounce, bind_some, Resumption.run_ite]
      obtain ⟨oracle, heq, -⟩ | ⟨-, -, oracle, heq⟩ := fs.getBounce_cases bounce
      · rw [heq, if_pos rfl, Resumption.run_bind, blockRead, Resumption.run_act]
        dsimp only
        cases fs.device.read (byteToSector inode.data offset) with
        | none => rfl
        | some sector => exact ih h
      · rw [heq]
        rfl

theorem run_inodeReadAt (offset : Nat) (size : Int) : (inodeReadAt id buffer size offset).run fs =
      (fs.inodeReadAt id buffer size offset).map fun r ↦ ((r.1, r.2.1), r.2.2) := by
  rw [inodeReadAt, Fs.inodeReadAt, Resumption.run_bind, theInode, Resumption.run_act]
  cases h : fs.inodes id with
  | none => rfl
  | some inode => exact run_readLoop h

/-- Store a sector, and go on. -/
theorem run_blockWrite {α : Type} {sector : Nat} {buffer : Fs → Sector}
    {g : Unit → Resumption Fs α} : (blockWrite sector buffer >>= g).run fs =
      (fs.device.write sector (buffer fs)).bind fun device ↦ (g ()).run { fs with device } := by
  rw [Resumption.run_bind, blockWrite, Resumption.run_act, bind_map]
  rfl

theorem run_writeLoop {buffer : Fs → Buffer} (h : fs.inodes id = some inode)
    (hbuffer : ∀ device oracle, buffer { fs with device, oracle } = buffer fs) :
    (writeLoop id buffer fuel bounce size offset bytes).run fs =
      Fs.writeLoop inode.data (buffer fs) fuel bounce fs size offset bytes := by
  induction fuel generalizing fs bounce size offset bytes with
  | zero => rfl
  | succ fuel ih =>
    -- The next round, whatever has been stored and allocated in this one.
    have hnext {bounce : Bool} {size offset bytes : Nat} (device : Block) (oracle : List Bool) :
        (writeLoop id buffer fuel bounce size offset bytes).run { fs with device, oracle } =
          Fs.writeLoop inode.data (buffer fs) fuel bounce { fs with device, oracle } size offset
            bytes := by
      rw [← hbuffer device oracle]
      exact ih h fun _ _ ↦ (hbuffer ..).trans (hbuffer device oracle).symm
    rw [writeLoop, Fs.writeLoop, Resumption.run_bind, run_theInode h, bind_some]
    rw [Resumption.run_ite, Resumption.run_ite]
    split
    · rfl
    split
    · rw [run_blockWrite]
      exact bind_congr fun device _ ↦ hnext device fs.oracle
    · rw [Resumption.run_bind, run_getBounce, bind_some, Resumption.run_ite]
      obtain ⟨oracle, heq, -⟩ | ⟨-, -, oracle, heq⟩ := fs.getBounce_cases bounce
      · rw [heq, if_pos rfl, Resumption.run_bind]
        dsimp only
        split
        · next hkeep =>
          rw [fillBounce, decide_eq_true hkeep, if_pos rfl, blockRead, Resumption.run_act,
            bind_map]
          refine bind_congr fun old _ ↦ ?_
          rw [comp_apply, run_blockWrite]
          rw [hbuffer fs.device oracle]
          exact bind_congr fun device _ ↦ hnext device oracle
        · next hkeep =>
          rw [fillBounce, decide_eq_false hkeep, if_neg Bool.false_ne_true, Resumption.run_pure,
            bind_some, run_blockWrite]
          rw [hbuffer fs.device oracle]
          exact bind_congr fun device _ ↦ hnext device oracle
      · rw [heq]
        rfl

theorem run_inodeWriteAt {buffer : Fs → Buffer} (offset : Nat) (size : Int)
    (hbuffer : ∀ device oracle, buffer { fs with device, oracle } = buffer fs) :
    (inodeWriteAt id buffer size offset).run fs = fs.inodeWriteAt id (buffer fs) size offset := by
  rw [inodeWriteAt, Fs.inodeWriteAt, Resumption.run_bind, theInode, Resumption.run_act]
  cases h : fs.inodes id with
  | none => rfl
  | some inode =>
    dsimp only [map_some, bind_some, bind_eq_bind]
    rw [Resumption.run_ite]
    split
    · rfl
    · exact run_writeLoop h hbuffer

end

section

variable {fs : Fs} {sector cnt start id dir : Nat} {name : List UInt8} {size : Int}

theorem setInode_setInode {old new : Option Inode} :
    (fs.setInode id old).setInode id new = fs.setInode id new := by
  simp only [setInode, update_idem]

theorem run_bitmapWrite (file : Nat) : (bitmapWrite file).run fs = fs.bitmapWrite file := by
  rw [bitmapWrite, Fs.bitmapWrite, Fs.fileWriteAt, Resumption.run_bind, Resumption.run_act]
  cases fs.files file with
  | none => rfl
  | some f =>
    dsimp only [bind_eq_bind, bind_some, pure_def]
    rw [Resumption.run_bind, run_inodeWriteAt _ _ fun _ _ ↦ rfl]
    rfl

theorem run_setMultiple (value : Bool) : (setMultiple sector cnt value).run fs =
    (fs.freeMap.setMultiple sector cnt value).map fun freeMap ↦ ((), { fs with freeMap }) :=
  Resumption.run_act ..

theorem run_scanAndFlip : (scanAndFlip cnt).run fs =
    (fs.freeMap.scanAndFlip 0 cnt false).map fun r ↦ (r.1, { fs with freeMap := r.2 }) := by
  rw [scanAndFlip, Bitmap.scanAndFlip, Resumption.run_bind, Resumption.run_act]
  cases fs.freeMap.scan 0 cnt false with
  | none => rfl
  | some idx =>
    cases idx with
    | none => rfl
    | some i =>
      show (setMultiple i cnt true >>= _).run fs = Option.map _
        ((fs.freeMap.setMultiple i cnt true).bind fun freeMap ↦ some (some i, freeMap))
      rw [Resumption.run_bind, run_setMultiple]
      cases fs.freeMap.setMultiple i cnt true <;> rfl

theorem run_freeMapAllocate : (freeMapAllocate cnt).run fs = fs.freeMapAllocate cnt := by
  rw [freeMapAllocate, Fs.freeMapAllocate, Resumption.run_bind, run_scanAndFlip]
  cases fs.freeMap.scanAndFlip 0 cnt false with
  | none => rfl
  | some r =>
    obtain ⟨sector, freeMap⟩ := r
    dsimp only [map_some, bind_some, bind_eq_bind]
    rw [Resumption.run_bind, Resumption.run_act, bind_some]
    cases sector with
    | none => rfl
    | some sector =>
      cases fs.freeMapFile with
      | none => rfl
      | some file =>
        rw [Resumption.run_bind, run_bitmapWrite]
        refine bind_congr fun r _ ↦ ?_
        rw [Resumption.run_ite]
        split
        · rfl
        · rw [Resumption.run_bind, run_setMultiple, bind_map]
          rfl

theorem run_freeMapRelease : (freeMapRelease sector cnt).run fs =
    (fs.freeMapRelease sector cnt).map fun fs' ↦ ((), fs') := by
  rw [freeMapRelease, Fs.freeMapRelease, Resumption.run_bind, Resumption.run_act]
  cases fs.freeMap.all sector cnt with
  | none => rfl
  | some all =>
    dsimp only [bind_eq_bind, bind_some]
    cases assert (all = true) with
    | none => rfl
    | some _ =>
      dsimp only [bind_some, pure_def]
      rw [Resumption.run_bind, run_setMultiple]
      cases fs.freeMap.setMultiple sector cnt false with
      | none => rfl
      | some freeMap =>
        cases hfile : fs.freeMapFile with
        | none => rfl
        | some file =>
          dsimp only [map_some, bind_some]
          rw [Resumption.run_bind, run_bitmapWrite, map_bind]
          rfl

theorem run_writeZeros : (writeZeros start cnt).run fs =
    (Fs.writeZeros fs.device start cnt).map fun device ↦ ((), { fs with device }) := by
  induction cnt with
  | zero => rfl
  | succ cnt ih =>
    rw [writeZeros, Fs.writeZeros, Resumption.run_bind, ih]
    cases Fs.writeZeros fs.device start cnt with
    | none => rfl
    | some device =>
      show (blockWrite (start + cnt) fun _ _ ↦ 0).run { fs with device } =
        (device.write (start + cnt) fun _ ↦ 0).map fun device ↦ ((), { fs with device })
      exact Resumption.run_act ..

theorem run_inodeCreate : (inodeCreate sector size).run fs = fs.inodeCreate sector size := by
  rw [inodeCreate, Fs.inodeCreate, Resumption.run_ite, assert]
  split
  · rw [Resumption.run_bind, malloc, Resumption.run_act]
    dsimp only [bind_eq_bind, bind_some]
    obtain ⟨ok, oracle, heq, -⟩ := fs.malloc_cases
    rw [heq]
    cases ok with
    | false => rfl
    | true =>
      rw [if_pos rfl, Resumption.run_bind, run_freeMapAllocate]
      refine bind_congr fun r _ ↦ ?_
      obtain ⟨start, fs'⟩ := r
      cases start with
      | none => rfl
      | some start =>
        rw [run_blockWrite]
        refine bind_congr fun device _ ↦ ?_
        rw [Resumption.run_bind, run_writeZeros, bind_map]
        rfl
  · rfl

theorem run_inodeOpen : (inodeOpen sector).run fs = fs.inodeOpen sector := by
  rw [inodeOpen, Fs.inodeOpen, Resumption.run_bind, findOrAdd, Resumption.run_act]
  cases fs.findInode sector with
  | some id =>
    dsimp only [bind_eq_bind, pure_def]
    rw [bind_assoc]
    rfl
  | none =>
    obtain ⟨ok, oracle, heq, -⟩ := fs.malloc_cases
    rw [heq]
    cases ok with
    | false => rfl
    | true =>
      dsimp only [bind_some]
      rw [Resumption.run_act]
      dsimp only [bind_eq_bind, pure_def]
      refine bind_congr fun data _ ↦ ?_
      rw [inodes_setInode, update_self, bind_some, Nat.add_sub_cancel,
        setInode_setInode]

theorem run_inodeClose : (inodeClose id).run fs = (fs.inodeClose id).map fun fs' ↦ ((), fs') := by
  rw [inodeClose, Fs.inodeClose, Resumption.run_bind, Resumption.run_act]
  cases fs.inodes id with
  | none => rfl
  | some inode =>
    dsimp only [bind_eq_bind, bind_some, pure_def]
    split
    · rfl
    · dsimp only [bind_some]
      rw [Resumption.run_ite]
      simp only [true_and]
      split
      · rw [Resumption.run_bind, run_freeMapRelease, bind_map, map_bind]
        exact bind_congr fun fs' _ ↦ run_freeMapRelease
      · rfl

theorem run_dirOpenRoot : dirOpenRoot.run fs = fs.dirOpenRoot := by
  rw [dirOpenRoot, Fs.dirOpenRoot, Resumption.run_bind, run_inodeOpen]
  refine bind_congr fun r _ ↦ ?_
  obtain ⟨inode, fs'⟩ := r
  rw [Resumption.run_bind, malloc, Resumption.run_act, bind_some]
  dsimp only
  rw [Fs.dirOpen.eq_def]
  obtain ⟨ok, oracle, heq, -⟩ := fs'.malloc_cases
  rw [heq]
  cases inode with
  | none => rfl
  | some inode =>
    cases ok with
    | true => rfl
    | false =>
      dsimp only
      rw [if_neg Bool.false_ne_true, Resumption.run_bind, run_inodeClose, bind_map]
      rfl

theorem run_lookupLoop {fuel ofs : Nat} :
    (lookupLoop dir name fuel buffer ofs).run fs = Fs.lookupLoop dir name fuel fs buffer ofs := by
  induction fuel generalizing fs buffer ofs with
  | zero => rfl
  | succ fuel ih =>
    rw [lookupLoop, Fs.lookupLoop, Resumption.run_bind, run_inodeReadAt, bind_map]
    refine bind_congr fun r _ ↦ ?_
    dsimp only [comp_apply]
    rw [Resumption.run_ite, Resumption.run_ite, ih]
    rfl

theorem run_freeSlotLoop {fuel ofs : Nat} : (freeSlotLoop dir fuel buffer ofs).run fs =
      (Fs.freeSlotLoop dir fuel fs buffer ofs).map fun r ↦ ((r.1, r.2.1), r.2.2) := by
  induction fuel generalizing fs buffer ofs with
  | zero => rfl
  | succ fuel ih =>
    rw [freeSlotLoop, Fs.freeSlotLoop, Resumption.run_bind, run_inodeReadAt, bind_map,
      bind_eq_bind, map_bind]
    refine bind_congr fun r _ ↦ ?_
    dsimp only [comp_apply]
    rw [Resumption.run_ite, Resumption.run_ite, ih]
    split
    · rfl
    split <;> rfl

/-- More rounds than there are entries make no difference. -/
theorem freeSlotLoop_fuel {inode : Inode} {cnt k fuel fuel' : Nat}
    (h : DirFile fs dir inode cnt) (hfuel : cnt - k < fuel) (hfuel' : cnt - k < fuel') :
    Fs.freeSlotLoop dir fuel fs buffer (dirEntrySize * k) =
      Fs.freeSlotLoop dir fuel' fs buffer (dirEntrySize * k) := by
  induction fuel generalizing fuel' buffer k with
  | zero => omega
  | succ fuel ih =>
    cases fuel' with
    | zero => omega
    | succ fuel' =>
      obtain ⟨⟨n, buffer', fs'⟩, hread, hfs, -, hout⟩ := h.read_spec k buffer
      dsimp only at hfs hout
      subst hfs
      simp only [Fs.freeSlotLoop, hread, bind_eq_bind, bind_some]
      split
      · rfl
      next hn =>
        have hk : k < cnt := by
          by_contra hk
          rw [hout (Nat.not_lt.mp hk)] at hn
          exact hn (by decide)
        split
        · rfl
        · exact ih (k := k + 1) (by omega) (by omega)

theorem run_dirAdd {inode : Inode} {cnt : Nat} (h : DirFile fs dir inode cnt)
    (hcnt : cnt < maxEntries) : (dirAdd dir name sector).run fs = fs.dirAdd dir name sector := by
  have hgarbage : garbage.run fs = some (fs.garbage, fs) := Resumption.run_act ..
  have hlookup : Fs.lookupLoop dir name maxEntries fs fs.garbage 0 = fs.lookup dir name := by
    rw [h.lookup_eq name, List.range_eq_range']
    exact h.lookupLoop_eq (k := 0) hcnt
  have hslot : Fs.freeSlotLoop dir maxEntries fs fs.garbage 0 =
      Fs.freeSlotLoop dir (fs.entryCnt dir + 1) fs fs.garbage 0 := by
    rw [h.entryCnt_eq]
    exact freeSlotLoop_fuel (k := 0) h hcnt (Nat.lt_succ_self cnt)
  rw [dirAdd, Fs.dirAdd, Resumption.run_ite]
  split
  · rfl
  rw [Resumption.run_bind, hgarbage, bind_some, Resumption.run_bind, run_lookupLoop, hlookup,
    h.lookup_eq name]
  dsimp only [bind_some, bind_eq_bind]
  rw [Resumption.run_ite]
  split
  · rfl
  rw [Resumption.run_bind, hgarbage, bind_some, Resumption.run_bind, run_freeSlotLoop, hslot,
    bind_map]
  refine bind_congr fun r _ ↦ ?_
  dsimp only [comp_apply]
  rw [Resumption.run_bind, run_inodeWriteAt _ _ fun _ _ ↦ rfl]
  rfl

/-- `inode_create` in a sector that has just been allocated. -/
theorem created_of_allocate {s : Nat} {fs' : Fs} {refs : List (Nat × Nat)}
    {held : Nat → View → Prop} (h : Sound fs refs held) (hlt : size < 2 ^ 31)
    (hall : fs.freeMapAllocate 1 = some (some s, fs')) (hcreate : fs'.inodeCreate s size = some r) :
    fs.freeMap.bit s = false ∧ Same fs fs' ∧ Created fs' refs held s r.1 r.2 := by
  have hspec := (freeMapAllocate_spec h 1).of_eq hall
  have hclear := hspec.clear s rfl s (Nat.le_refl _) (Nat.lt_succ_self _)
  have h0 : 0 ≤ size := by
    by_contra hneg
    simp [Fs.inodeCreate, assert, hneg] at hcreate
  refine ⟨hclear, hspec.same, (inodeCreate_spec hspec.sound ?_ ?_ ?_ h0 hlt).of_eq hcreate⟩
  · exact hspec.same.size ▸ hspec.range s rfl
  · exact hspec.set s rfl s (Nat.le_refl _) (Nat.lt_succ_self _)
  · exact (hspec.same.fresh_iff h).mpr (h.fresh_of_unmarked hclear)

/-- The end of `filesys_create`. -/
theorem run_createDone {s : Nat} {success : Bool} :
    Resumption.run (do
      if !success && s != 0 then freeMapRelease s 1
      inodeClose dir
      return success) fs = (do
        let fs ← if !success && s != 0 then fs.freeMapRelease s 1 else some fs
        return (success, ← fs.dirClose dir)) := by
  have hclose {fs : Fs} : (inodeClose dir >>= fun _ ↦ pure success).run fs =
      (fs.dirClose dir).bind fun fs' ↦ some (success, fs') := by
    rw [Resumption.run_bind, run_inodeClose, bind_map]
    rfl
  rw [Resumption.run_ite]
  split
  · rw [Resumption.run_bind, run_freeMapRelease, bind_map]
    exact bind_congr fun _ _ ↦ hclose
  · exact hclose

/-- **The steps come to what `filesys_create` does**, if nobody interferes and there is memory. -/
theorem run_filesysCreate {refs : List (Nat × Nat)} {held : Nat → View → Prop}
    (h : Sound fs refs held) (hmem : fs.oracle = []) (hlt : size < 2 ^ 31) :
    (filesysCreate name size).run fs = fs.filesysCreate name size := by
  rw [filesysCreate, Fs.filesysCreate, Resumption.run_bind, run_dirOpenRoot]
  refine bind_congr fun r hopen ↦ ?_
  obtain ⟨dir, hdir, hquiet, h1⟩ := (dirOpenRoot_quiet h hmem).of_eq hopen
  obtain ⟨_, fs1⟩ := r
  subst hdir
  rw [Resumption.run_bind, run_freeMapAllocate]
  refine bind_congr fun r hall ↦ ?_
  have hmem2 := memory_freeMapAllocate (hquiet.oracle.trans hmem) hall
  obtain ⟨sector, fs2⟩ := r
  cases sector with
  | none =>
    rw [Resumption.run_bind, run_inodeClose, bind_map]
    rfl
  | some s =>
    rw [Resumption.run_bind, run_inodeCreate]
    refine bind_congr fun r hcreate ↦ ?_
    have hmem3 := memory_inodeCreate hmem2 hcreate
    have h3 := (created_of_allocate h1 hlt hall hcreate).2.2.sound
    obtain ⟨created, fs3⟩ := r
    obtain ⟨root, hroot, -⟩ := h3.rootFile (h3.ref _ List.mem_cons_self) hmem3
    cases created with
    | false => exact run_createDone
    | true =>
      rw [if_pos rfl, Resumption.run_bind, run_dirAdd hroot (by decide)]
      exact bind_congr fun _ _ ↦ run_createDone

end

end Steps

end Fs

end Pintos
