import Pintos.Logic.Run
import Pintos.Filesys.Format

/-!
# File descriptors, and the system calls on files

The descriptors of a process are indices into the array `fd_tab` of its `struct thread`, which has
128 elements and is followed by `exec_file` and `magic`.  `syscall_open` stores to `fd_tab[fd_num]`
without looking whether there is such an element, so the model of the table has the word after it
too (`FdTable.slots`).

`Calls` are the processes that use the file system, each system call as one step; what the processes
have been given and have closed is recorded beside the tables.
-/

set_option autoImplicit false

namespace Pintos

/-- The index of `exec_file`, counted in elements from the start of `fd_tab`. -/
abbrev execSlot : Nat := 128

/-- `fd_num`, `fd_tab` and `exec_file` of a `struct thread`. -/
structure FdTable where
  fdNum : Nat
  /-- The words from `fd_tab` on: 128 of them are `fd_tab`, the next one is `exec_file`. -/
  slots : Nat → Option Nat

namespace FdTable

/-- A new thread, whose executable is `exec_file`. -/
def init (execFile : Nat) : FdTable := ⟨2, Function.update (fun _ ↦ none) execSlot (some execFile)⟩

/-- The check of `get_file` and `syscall_close`. -/
def valid (t : FdTable) (fd : Int32) : Bool := 1 < fd.toInt && fd.toInt < t.fdNum

/-- `get_file`. -/
def getFile (t : FdTable) (fd : Int32) : Option Nat :=
  if t.valid fd then t.slots fd.toInt.toNat else none

/-- The stores of `syscall_open`.  The word after `exec_file` is `magic`; the kernel panics once it
is overwritten. -/
def add (t : FdTable) (fp : Nat) : Kernel FdTable := do
  assert (t.fdNum ≤ execSlot)
  return ⟨t.fdNum + 1, Function.update t.slots t.fdNum (some fp)⟩

/-- `fd_tab[fd] = NULL`. -/
def clear (t : FdTable) (fd : Nat) : FdTable := { t with slots := Function.update t.slots fd none }

@[simp]
theorem slots_clear (t : FdTable) (fd : Nat) :
    (t.clear fd).slots = Function.update t.slots fd none := rfl

/-- What `process_exit` closes, in this order. -/
def exitCloses (t : FdTable) : List (Option Nat) :=
  (List.range' 2 (t.fdNum - 2)).reverse.map t.slots ++ [t.slots execSlot]

end FdTable

/-! ## The system calls -/

section

variable (fs : Fs) (t : FdTable)

/-- `syscall_create`. -/
def syscallCreate (file : List UInt8) (initSize : UInt32) : Kernel (Bool × Fs) :=
  fs.filesysCreate file (toInt32 initSize.toNat)

/-- `syscall_remove`. -/
def syscallRemove (file : List UInt8) : Kernel (Bool × Fs) := fs.filesysRemove file

/-- `syscall_open`: the result, the file system, the file that was opened, and the table. -/
def syscallOpen (file : List UInt8) : Kernel (Int × Fs × Option Nat × FdTable) := do
  let (fp, fs) ← fs.filesysOpen file
  match fp with
  | none => return (-1, fs, none, t)
  | some fp => return (t.fdNum, fs, some fp, ← t.add fp)

/-- `syscall_filesize`. -/
def syscallFilesize (fd : Int32) : Kernel Int :=
  match t.getFile fd with
  | none => some (-1)
  | some fp => fs.fileLength fp

/-- `syscall_read`; `keys` is what is typed. -/
def syscallRead (fd : Int32) (buffer : Buffer) (size : UInt32) (keys : Buffer) :
    Kernel (Int × Buffer × Fs) :=
  if fd = 0 then some (toInt32 size.toNat, memcpy buffer 0 keys 0 size.toNat, fs)
  else if fd = 1 then some (-1, buffer, fs)
  else
    match t.getFile fd with
    | none => some (-1, buffer, fs)
    | some fp => do
      let (ret, buffer, fs) ← fs.fileRead fp buffer (toInt32 size.toNat)
      return (ret, buffer, fs)

/-- `syscall_write`. -/
def syscallWrite (fd : Int32) (buffer : Buffer) (size : UInt32) : Kernel (Int × Fs) :=
  if fd = 1 then some (toInt32 size.toNat, fs)
  else if fd = 0 then some (-1, fs)
  else
    match t.getFile fd with
    | none => some (0, fs)
    | some fp => do
      let (ret, fs) ← fs.fileWrite fp buffer (toInt32 size.toNat)
      return (ret, fs)

/-- `syscall_seek`. -/
def syscallSeek (fd : Int32) (pos : UInt32) : Kernel Fs :=
  match t.getFile fd with
  | none => some fs
  | some fp => fs.fileSeek fp (toInt32 pos.toNat)

/-- `syscall_tell`. -/
def syscallTell (fd : Int32) : Kernel Int :=
  match t.getFile fd with
  | none => some (-1)
  | some fp => do return ← fs.fileTell fp

/-- `syscall_close`. -/
def syscallClose (fd : Int32) : Kernel (Fs × FdTable) :=
  if t.valid fd then do
    let fs ← fs.fileClose (t.slots fd.toInt.toNat)
    return (fs, t.clear fd.toInt.toNat)
  else some (fs, t)

/-- The calls of `file_close` in `process_exit`. -/
def closeAll (fs : Fs) : List (Option Nat) → Kernel Fs
  | [] => some fs
  | file :: files => do
    let fs ← fs.fileClose file
    closeAll fs files

end

/-! ## Processes -/

/-- A system call on files, with its arguments; the names and buffers are those that have been read
from the memory of the process. -/
inductive FileCall where
  | create (file : List UInt8) (initSize : UInt32)
  | remove (file : List UInt8)
  | open (file : List UInt8)
  | filesize (fd : Int32)
  | read (fd : Int32) (buffer : Buffer) (size : UInt32) (keys : Buffer)
  | write (fd : Int32) (buffer : Buffer) (size : UInt32)
  | seek (fd : Int32) (pos : UInt32)
  | tell (fd : Int32)
  | close (fd : Int32)

/-- A process, and what has happened to its descriptors. -/
structure Process where
  table : FdTable
  /-- The descriptors that `syscall_open` has returned, each with its file. -/
  issued : List (Nat × Nat) := []
  /-- The descriptors that `syscall_close` has closed. -/
  closed : List Nat := []
  /-- The indices of `fd_tab` that have been read or written. -/
  touched : List Nat := []

/-- The file system and the processes. -/
structure Calls where
  fs : Fs
  procs : Nat → Option Process

/-- What happens: the kernel extracts a file at boot, a process starts with its executable, reads
from it (`load` and page faults), makes a system call, or exits. -/
inductive FileAct where
  | extract (name : List UInt8) (size : Int32) (data : Buffer)
  | exec (pid : Nat) (name : List UInt8)
  | load (pid : Nat) (pos : Nat) (buffer : Buffer) (size : Int32)
  | call (pid : Nat) (c : FileCall)
  | exit (pid : Nat)

namespace Calls

/-- A file system that nobody uses yet. -/
def boot (device : Block) (oracle : List Bool) (garbage : Buffer) : Option Calls := do
  return ⟨← Fs.filesysInit device oracle garbage, fun _ ↦ none⟩

/-- A change to one process, and to the file system. -/
def set (s : Calls) (pid : Nat) (fs : Fs) (p : Option Process) : Calls :=
  ⟨fs, Function.update s.procs pid p⟩

@[simp]
theorem procs_set (s : Calls) (pid : Nat) (fs : Fs) (p : Option Process) :
    (s.set pid fs p).procs = Function.update s.procs pid p := rfl

/-- The indices of `fd_tab` that a call with a descriptor reads or writes. -/
def index (t : FdTable) (fd : Int32) : List Nat := if t.valid fd then [fd.toInt.toNat] else []

/-- A process makes a system call. -/
def call (s : Calls) (pid : Nat) (p : Process) (fs : Fs) : FileCall → Kernel Calls
  | .create file initSize => do
    let (_, fs) ← syscallCreate fs file initSize
    return s.set pid fs (some p)
  | .remove file => do
    let (_, fs) ← syscallRemove fs file
    return s.set pid fs (some p)
  | .open file => do
    let (_, fs, fp, table) ← syscallOpen fs p.table file
    match fp with
    | none => return s.set pid fs (some p)
    | some fp =>
      return s.set pid fs (some { p with
        table
        issued := (p.table.fdNum, fp) :: p.issued
        touched := p.table.fdNum :: p.touched })
  | .filesize fd => do
    let _ ← syscallFilesize fs p.table fd
    return s.set pid fs (some { p with touched := index p.table fd ++ p.touched })
  | .read fd buffer size keys => do
    let (_, _, fs) ← syscallRead fs p.table fd buffer size keys
    return s.set pid fs (some { p with touched := index p.table fd ++ p.touched })
  | .write fd buffer size => do
    let (_, fs) ← syscallWrite fs p.table fd buffer size
    return s.set pid fs (some { p with touched := index p.table fd ++ p.touched })
  | .seek fd pos => do
    let fs ← syscallSeek fs p.table fd pos
    return s.set pid fs (some { p with touched := index p.table fd ++ p.touched })
  | .tell fd => do
    let _ ← syscallTell fs p.table fd
    return s.set pid fs (some { p with touched := index p.table fd ++ p.touched })
  | .close fd => do
    let (fs, table) ← syscallClose fs p.table fd
    return s.set pid fs (some { p with
      table
      closed := index p.table fd ++ p.closed
      touched := index p.table fd ++ p.touched })

/-- One step, with the answers of `malloc` while it runs.  Only a panic has no result: what a
process does that is not there does not happen. -/
def step (s : Calls) (a : List Bool × FileAct) : Option Calls :=
  let fs := { s.fs with oracle := a.1 }
  match a.2 with
  | .extract name size data =>
    if size.toInt < 0 then some s
    else do
      let (_, fs) ← fs.filesysCreate name size.toInt
      let (file, fs) ← fs.filesysOpen name
      match file with
      | none => return { s with fs }
      | some file =>
        let (_, fs) ← fs.fileWrite file data size.toInt
        return { s with fs := ← fs.fileClose (some file) }
  | .exec pid name =>
    match s.procs pid with
    | some _ => some s
    | none => do
      let (file, fs) ← fs.filesysOpen name
      match file with
      | none => return { s with fs }
      | some file =>
        let fs ← fs.fileDenyWrite file
        return s.set pid fs (some { table := .init file })
  | .load pid pos buffer size =>
    match s.procs pid with
    | none => some s
    | some p =>
      match p.table.slots execSlot with
      | none => some s
      | some file => do
        let fs ← fs.fileSeek file pos
        let (_, _, fs) ← fs.fileRead file buffer size.toInt
        return { s with fs }
  | .call pid c =>
    match s.procs pid with
    | none => some s
    | some p => s.call pid p fs c
  | .exit pid =>
    match s.procs pid with
    | none => some s
    | some p => do
      let fs ← closeAll fs p.table.exitCloses
      return s.set pid fs none

end Calls

end Pintos
