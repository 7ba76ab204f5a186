import Pintos.Vm.Page

/-!
# What system calls and page faults do to locks and user pages

Every system call runs through a piece of kernel code that takes and releases locks and touches
bytes of the caller.  Here such a piece of code is a list of instructions (`Instr`), of which only
these effects are kept: `readCode`, `writeCode` and so on follow `syscall_read`, `syscall_write`
and so on of `userprog/syscall.c` down to `ide_read` and `ide_write`.

A touched byte may belong to a page that is not in memory.  Then `page_fault` runs on top of the
code that touched it, so the code of the fault handler is put in front of the touch, which is
retried afterwards (`faultCode`, `stackGrowCode`); or the process is killed, wherever it is.

What the instructions leave open is decided by the scheduler of the machine that runs them
(`Choice`): whether `palloc_get_page` finds a page, which page is evicted, how many sectors a file
system function goes through.
-/

set_option autoImplicit false

namespace Pintos

/-- The locks: `_lock_for_file`, `list_LRU_lock`, `swap_lock`, and the lock of the IDE channel that
has both the file system and the swap partition. -/
inductive KLock where
  | file
  | lru
  | swap
  | chan
  deriving DecidableEq, Repr

/-- A user page of a process. -/
inductive PageState where
  /-- No page entry. -/
  | absent
  /-- An entry of type `VM_BIN`, not loaded. -/
  | bin (writable : Bool)
  /-- An entry of type `VM_ANON`, swapped out. -/
  | anon (writable : Bool)
  /-- In memory, with an entry of type `VM_ANON` if `isAnon` is true. -/
  | loaded (isAnon writable : Bool)
  deriving DecidableEq, Repr

/-- An effect of the kernel code. -/
inductive Instr where
  /-- `lock_acquire`. -/
  | acquire (l : KLock)
  /-- `lock_release`. -/
  | release (l : KLock)
  /-- `is_valid_userptr`, and `syscall_exit (-1)` if it returns false. -/
  | check (addr : Nat)
  /-- An access to a byte of the caller. -/
  | touch (addr : Nat) (write : Bool)
  /-- `syscall_exit`, or `thread_exit`. -/
  | die
  /-- The loop of `alloc_page`. -/
  | alloc
  /-- `get_victim` and what follows in `replacement_mem`. -/
  | evict
  /-- The page `page` of thread `t` leaves memory. -/
  | unmap (t page : Nat) (anon : Bool)
  /-- `load_file` or `swap_in`. -/
  | fill (page : Nat)
  /-- `install_page`. -/
  | map (page : Nat) (isAnon writable : Bool)
  /-- `thread_create`. -/
  | spawn
  deriving DecidableEq, Repr

/-! ## Building blocks -/

/-- `n` calls of `ide_read` or `ide_write` on buffers of the kernel. -/
def ioCode (n : Nat) : List Instr := (List.replicate n [.acquire .chan, .release .chan]).flatten

/-- Accesses to `n` bytes from `addr`. -/
def touchCode (addr n : Nat) (write : Bool) : List Instr :=
  (List.range n).map fun i ↦ .touch (addr + i) write

/-- `swap_in` and `swap_out`. -/
def swapCode : List Instr := .acquire .swap :: (ioCode 8 ++ [.release .swap])

/-- One round of the loop of `alloc_page` that finds no page. -/
def replacementCode : List Instr := [.acquire .lru, .evict, .release .lru]

/-- `add_page_to_list_LRU`. -/
def addPageCode : List Instr := [.acquire .lru, .release .lru]

/-- `handle_mm_fault`. -/
def faultCode (page : Nat) (isAnon writable : Bool) : List Instr :=
  [Instr.alloc, Instr.fill page, Instr.map page isAnon writable] ++ addPageCode

/-- `stack_grow`. -/
def stackGrowCode (page : Nat) : List Instr := .alloc :: (addPageCode ++ [.map page true true])

/-- The rest of `replacement_mem` for a victim that is written to swap or dropped. -/
def evictCode (t page : Nat) (write : Bool) : List Instr :=
  (if write then swapCode else []) ++ [Instr.unmap t page write]

/-- `process_exit`: `files` are the numbers of sectors that `file_close` reads and writes for each
file, and `entries` says for each page entry whether it has a swap slot. -/
def exitCode (files : List Nat) (entries : List Bool) : List Instr :=
  files.flatMap ioCode ++ entries.flatMap fun hasSlot ↦
    (if hasSlot then [Instr.acquire .swap, Instr.release .swap] else []) ++
      [Instr.acquire .lru, Instr.release .lru]

/-! ## The system calls -/

/-- What a descriptor stands for. -/
inductive FdKind where
  | stdin
  | stdout
  /-- `get_file` returns a null pointer. -/
  | unknown
  | file
  deriving DecidableEq, Repr

/-- The loop of `inode_read_at` and `inode_write_at`, at most `fuel` rounds.  `memory` says whether
there is memory for the bounce buffer: `before` sectors are read into it before the bytes are
copied, and `behind` sectors are written from it afterwards. -/
def transferCode (memory write : Bool) (before : Nat → Nat → Nat) (behind : Nat) :
    Nat → Nat → Nat → Nat → Nat → List Instr
  | 0, _, _, _, _ => []
  | fuel + 1, buffer, size, pos, length =>
    let sectorOfs := pos % blockSectorSize
    let chunk := min size (min (length - pos) (blockSectorSize - sectorOfs))
    let rest := transferCode memory write before behind fuel (buffer + chunk) (size - chunk)
      (pos + chunk) length
    if chunk = 0 then []
    else if sectorOfs = 0 ∧ chunk = blockSectorSize then
      -- `ide_read` and `ide_write` copy to and from the buffer of the caller.
      .acquire .chan :: (touchCode buffer chunk write ++ .release .chan :: rest)
    else if memory then
      ioCode (before sectorOfs chunk) ++ (touchCode buffer chunk write ++ (ioCode behind ++ rest))
    else []

/-- `inode_read_at` into a buffer of the caller. -/
def inodeReadAtCode (memory : Bool) : Nat → Nat → Nat → Nat → Nat → List Instr :=
  transferCode memory true (fun _ _ ↦ 1) 0

/-- `inode_write_at` from a buffer of the caller. -/
def inodeWriteAtCode (memory : Bool) : Nat → Nat → Nat → Nat → Nat → List Instr :=
  transferCode memory false
    (fun sectorOfs chunk ↦ if sectorOfs > 0 ∨ chunk < blockSectorSize - sectorOfs then 1 else 0) 1

/-- `size` as an `off_t`: what is 2^31 or more is negative, and nothing is transferred. -/
def transferSize (size : Nat) : Nat := if size < 2 ^ 31 then size else 0

/-- What `syscall_read` does under `_lock_for_file`. -/
def readBody (kind : FdKind) (buffer size pos length : Nat) (memory : Bool) : List Instr :=
  match kind with
  | .stdin => touchCode buffer size true
  | .stdout => []
  | .unknown => []
  | .file => inodeReadAtCode memory size buffer (transferSize size) pos length

/-- `syscall_read`. -/
def readCode (kind : FdKind) (buffer size pos length : Nat) (memory : Bool) : List Instr :=
  if buffer > physBase then [.die]
  else .acquire .file :: (readBody kind buffer size pos length memory ++ [.release .file])

/-- What `syscall_write` does under `_lock_for_file`; nothing is transferred to a file that is being
executed. -/
def writeBody (kind : FdKind) (buffer size pos length : Nat) (memory denyWrite : Bool) :
    List Instr :=
  match kind with
  | .stdout => touchCode buffer size false
  | .stdin => []
  | .unknown => []
  | .file =>
    if denyWrite then [] else inodeWriteAtCode memory size buffer (transferSize size) pos length

/-- `syscall_write`. -/
def writeCode (kind : FdKind) (buffer size pos length : Nat) (memory denyWrite : Bool) :
    List Instr :=
  .acquire .file :: (writeBody kind buffer size pos length memory denyWrite ++ [.release .file])

/-- `lookup` of a name of the caller: each directory entry is read, and `compares` are the numbers
of bytes that `strcmp` looks at. -/
def lookupCode (name : Nat) (compares : List Nat) : List Instr :=
  compares.flatMap fun n ↦ ioCode 1 ++ touchCode name n false

/-- `syscall_open`; `before` and `after` sectors are read for the inodes. -/
def openCode (name : Nat) (compares : List Nat) (before after : Nat) : List Instr :=
  if name = 0 then []
  else .acquire .file :: (ioCode before ++ (lookupCode name compares ++
    (ioCode after ++ [.release .file])))

/-- `syscall_create`, which takes no lock: `length` bytes of the name are read by `strlen`, and
`copied` by `strlcpy`. -/
def createCode (name length : Nat) (compares : List Nat) (copied before after : Nat) :
    List Instr :=
  if name = 0 then [.die]
  else ioCode before ++ (touchCode name length false ++ (lookupCode name compares ++
    (touchCode name copied false ++ ioCode after)))

/-- `syscall_remove`, which takes no lock. -/
def removeCode (name : Nat) (compares : List Nat) (before after : Nat) : List Instr :=
  if name = 0 then [.die] else ioCode before ++ (lookupCode name compares ++ ioCode after)

/-- `syscall_exec`: the `length` bytes of the command line are read by `process_execute` and once
more by `thread_create`. -/
def execCode (name length : Nat) : List Instr :=
  touchCode name length false ++ (touchCode name length false ++ [.spawn])

/-- What `load` comes across. -/
structure Image where
  /-- Sectors read by `filesys_open`. -/
  opened : Nat
  /-- Sectors read for the headers. -/
  headers : Nat
  success : Bool
  /-- Bytes written to the stack. -/
  length : Nat
  /-- The pages of the segments, and whether they are writable. -/
  segments : List (Nat × Bool)
  deriving DecidableEq, Repr

/-- The page entries made by `load_segment`: nothing is loaded yet. -/
def Image.pages (image : Image) (page : Nat) : PageState :=
  match image.segments.lookup page with
  | some writable => .bin writable
  | none => .absent

/-- `start_process`: `load` opens the executable, reads the headers, and sets up the stack. -/
def loadCode (image : Image) : List Instr :=
  .acquire .file :: (ioCode image.opened ++ .release .file :: (ioCode image.headers ++
    if image.success then
      stackGrowCode ((physBase - pgSize) / pgSize) ++
        touchCode (physBase - image.length) image.length true
    else [.die]))

/-- A system call, with the words found on the stack and what its file functions come across. -/
inductive Call where
  | read (kind : FdKind) (buffer size pos length : Nat) (memory : Bool)
  | write (kind : FdKind) (buffer size pos length : Nat) (memory denyWrite : Bool)
  | open (name : Nat) (compares : List Nat) (before after : Nat)
  | create (name length : Nat) (compares : List Nat) (copied before after : Nat)
  | remove (name : Nat) (compares : List Nat) (before after : Nat)
  | exec (name length : Nat)
  | exit
  | close (sectors : Nat)
  /-- `wait`, `filesize`, `seek`, `tell` and the two arithmetic calls. -/
  | plain
  deriving DecidableEq, Repr

/-- The body of a system call. -/
def Call.body : Call → List Instr
  | .read kind buffer size pos length memory => readCode kind buffer size pos length memory
  | .write kind buffer size pos length memory denyWrite =>
    writeCode kind buffer size pos length memory denyWrite
  | .open name compares before after => openCode name compares before after
  | .create name length compares copied before after =>
    createCode name length compares copied before after
  | .remove name compares before after => removeCode name compares before after
  | .exec name length => execCode name length
  | .exit => [.die]
  | .close sectors => ioCode sectors
  | .plain => []

/-- `syscall_handler` with `args` arguments, for the stack pointer `esp`. -/
def handlerCode (esp args : Nat) (call : Call) : List Instr :=
  .check esp :: (touchCode esp 4 false ++
    ((List.range args).map (fun i ↦ .check (esp + 4 * (i + 1))) ++
      (touchCode (esp + 4) (4 * args) false ++ call.body)))

end Pintos
