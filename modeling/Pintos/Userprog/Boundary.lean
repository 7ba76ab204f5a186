import Pintos.Userprog.KernelPaths

/-!
# What system calls touch through addresses of the caller

`syscall_handler` reads the system call number and the arguments from the stack of the caller, and
most calls then follow an argument that is an address.  `Env.serve` runs the code of
`Pintos.Userprog.KernelPaths` for the words found in memory, and collects the bytes it touches on
the way.  It stops when the process is ended with status -1: by the handler, because
`is_valid_userptr` refuses an address, or by `page_fault`, because a touched byte is not there.

`Env.Isolated` says that no touched byte is at `PHYS_BASE` or above, and that a call whose words,
buffer or string get there ends the process.  The handler checks where the words start, but not
where the last one ends; `read` only checks where the buffer starts, and allows `PHYS_BASE` itself;
nothing checks the other addresses.  `Env.Safe` is what is needed of the caller instead.
-/

set_option autoImplicit false

namespace Pintos

/-- `is_valid_stack`; the second comparison is made in 32-bit integers, the third in unsigned
ones. -/
def isValidStack (addr esp : Nat) : Bool :=
  addr < physBase && ((esp : Int) - addr).bmod (2 ^ 32) ≤ 32 &&
    (physBase + 2 ^ 32 - addr) % 2 ^ 32 ≤ 8 * 1024 * 1024

namespace Syscall

/-- An open file, as far as `read` and `write` ask. -/
structure OpenFile where
  pos : Nat
  length : Nat
  /-- Writing is denied. -/
  denyWrite : Bool
  deriving DecidableEq, Repr

/-- What the kernel comes across while it serves a system call. -/
structure Env where
  /-- The bytes of the address space. -/
  mem : Nat → UInt8
  /-- An access to this address, for writing or not, is a page fault that ends the process. -/
  fatal : Nat → Bool → Bool
  /-- `get_pge` finds a page entry for the address. -/
  hasEntry : Nat → Bool
  /-- What `is_valid_userptr` returns when control reaches its end. -/
  undef : Nat → Bool
  /-- `get_file`. -/
  file : Nat → Option OpenFile
  /-- There is memory for a bounce buffer. -/
  memory : Bool
  /-- The names in the root directory, if `dir_open_root` opens it. -/
  names : Option (List (List UInt8))
  /-- `dir_open_root`, `free_map_allocate` and `inode_create` succeed for a new file. -/
  allocated : Bool
  /-- `palloc_get_page` finds a page for the copy of the command line. -/
  page : Bool

/-- The bytes touched on the way, and whether the process has been ended with status -1. -/
structure Served where
  touched : List Nat
  killed : Bool
  deriving DecidableEq, Repr

/-! ## Strings -/

/-- The number of bytes that `strlen` reads. -/
def strlenBytes (mem : Nat → UInt8) : Nat → Nat → Nat
  | 0, _ => 0
  | fuel + 1, a => if mem a = 0 then 1 else strlenBytes mem fuel (a + 1) + 1

/-- The number of bytes that `strcmp` reads from `a` to compare it with a string. -/
def strcmpBytes (mem : Nat → UInt8) : Nat → List UInt8 → Nat
  | _, [] => 0
  | a, c :: cs => if mem a = c ∧ c ≠ 0 then strcmpBytes mem (a + 1) cs + 1 else 1

/-- Whether `strcmp` finds that they are equal. -/
def strcmpEq (mem : Nat → UInt8) : Nat → List UInt8 → Bool
  | _, [] => true
  | a, c :: cs => mem a = c && (c = 0 || strcmpEq mem (a + 1) cs)

/-- The numbers of bytes that the calls of `strcmp` in `lookup` read. -/
def compares (mem : Nat → UInt8) (name : Nat) : List (List UInt8) → List Nat
  | [] => []
  | e :: es =>
    strcmpBytes mem name (e ++ [0]) ::
      if strcmpEq mem name (e ++ [0]) then [] else compares mem name es

/-- The number of arguments that `syscall_handler` takes from the stack. -/
def argCount : Nat → Nat
  -- `SYS_EXIT`, `SYS_EXEC`, `SYS_WAIT`
  | 1 => 1
  | 2 => 1
  | 3 => 1
  -- `SYS_CREATE`, `SYS_REMOVE`, `SYS_OPEN`, `SYS_FILESIZE`
  | 4 => 2
  | 5 => 1
  | 6 => 1
  | 7 => 1
  -- `SYS_READ`, `SYS_WRITE`
  | 8 => 3
  | 9 => 3
  -- `SYS_SEEK`, `SYS_TELL`, `SYS_CLOSE`
  | 10 => 2
  | 11 => 1
  | 12 => 1
  -- `SYS_FIBO`, `SYS_SUM4`
  | 13 => 1
  | 14 => 4
  | _ => 0

namespace Env

variable (env : Env)

/-- A 32-bit word in memory. -/
def word (a : Nat) : Nat :=
  (env.mem a).toNat + 2 ^ 8 * (env.mem (a + 1)).toNat + 2 ^ 16 * (env.mem (a + 2)).toNat +
    2 ^ 24 * (env.mem (a + 3)).toNat

/-- `is_valid_userptr`.  It has no `return` for an address with a page entry. -/
def isValidUserptr (ptr esp : Nat) : Bool :=
  if ptr = 0 then false
  else if !(ptr < physBase && 0x08048000 ≤ ptr) then false
  else if !env.hasEntry ptr then isValidStack ptr esp
  else env.undef ptr

/-- The code is run until the process is ended. -/
def runCode (esp : Nat) : List Instr → Served
  | [] => ⟨[], false⟩
  | .check addr :: code =>
    if env.isValidUserptr addr esp then runCode esp code else ⟨[], true⟩
  | .touch addr write :: code =>
    if env.fatal addr write then ⟨[], true⟩
    else ⟨addr :: (runCode esp code).touched, (runCode esp code).killed⟩
  | .die :: _ => ⟨[], true⟩
  | _ :: code => runCode esp code

/-- What a descriptor stands for. -/
def kind (fd : Nat) : FdKind :=
  if fd = 0 then .stdin
  else if fd = 1 then .stdout
  else if (env.file fd).isSome then .file else .unknown

/-- The number of bytes of the string at `a`, with the one that ends it. -/
def strBytes (a : Nat) : Nat := strlenBytes env.mem (2 ^ 32) a

/-- What `lookup` reads of a name. -/
def lookups (name : Nat) : List Nat := compares env.mem name (env.names.getD [])

/-- `dir_add` gets to `strlcpy`: the name is neither empty nor too long, and it is new. -/
def addable (name : Nat) : Bool :=
  1 < env.strBytes name && env.strBytes name ≤ 15 &&
    !(env.names.getD []).any fun e ↦ strcmpEq env.mem name (e ++ [0])

/-- The system call, for the number and the arguments found in memory.  Calls that do not follow an
address are left out: they touch no more than their arguments. -/
def call (esp : Nat) : Call :=
  let name := env.word (esp + 4)
  let file := (env.file (env.word (esp + 4))).getD ⟨0, 0, false⟩
  match env.word esp with
  -- `SYS_EXEC`; a null pointer is a failed assertion in `strlcpy`.
  | 2 => if env.page ∧ name ≠ 0 then .exec name (env.strBytes name) else .plain
  -- `SYS_CREATE`
  | 4 =>
    if name ≠ 0 ∧ ¬ env.allocated then .plain
    else .create name (env.strBytes name)
      (if 1 < env.strBytes name ∧ env.strBytes name ≤ 15 then env.lookups name else [])
      (if env.addable name then env.strBytes name else 0) 0 0
  -- `SYS_REMOVE`
  | 5 => .remove name (env.lookups name) 0 0
  -- `SYS_OPEN`
  | 6 => .open name (env.lookups name) 0 0
  -- `SYS_READ`
  | 8 =>
    .read (env.kind (env.word (esp + 4))) (env.word (esp + 8)) (env.word (esp + 12)) file.pos
      file.length env.memory
  -- `SYS_WRITE`
  | 9 =>
    .write (env.kind (env.word (esp + 4))) (env.word (esp + 8)) (env.word (esp + 12)) file.pos
      file.length env.memory file.denyWrite
  | _ => .plain

/-- `syscall_handler`. -/
def serve (esp : Nat) : Served :=
  env.runCode esp (handlerCode esp (argCount (env.word esp)) (env.call esp))

end Env

/-! ## Isolation -/

/-- The `n` bytes from `a` get to `PHYS_BASE` or above. -/
def Crosses (a n : Nat) : Prop := 0 < n ∧ physBase < a + n

instance (a n : Nat) : Decidable (Crosses a n) := inferInstanceAs (Decidable (_ ∧ _))

/-- The number of bytes that are transferred if there are `n` bytes to transfer from position `pos`
of a file: without a bounce buffer, only whole sectors. -/
def whole (memory : Bool) (n pos : Nat) : Nat :=
  if memory then n
  else if pos % blockSectorSize = 0 then n / blockSectorSize * blockSectorSize else 0

namespace Env

variable (env : Env)

/-- The string at `a` gets to `PHYS_BASE` or above: it does not end before. -/
def StringCrosses (a : Nat) : Prop := a ≠ 0 ∧ ∀ x, a ≤ x → x < physBase → env.mem x ≠ 0

/-- The buffer or the string of the call gets to `PHYS_BASE` or above. -/
def ArgReaches (esp : Nat) : Prop :=
  match env.word esp with
  | 2 => env.StringCrosses (env.word (esp + 4))
  | 4 => env.StringCrosses (env.word (esp + 4))
  | 5 => env.StringCrosses (env.word (esp + 4))
  | 6 => env.StringCrosses (env.word (esp + 4))
  | 8 => Crosses (env.word (esp + 8)) (env.word (esp + 12))
  | 9 => Crosses (env.word (esp + 8)) (env.word (esp + 12))
  | _ => False

/-- The words of the call, its buffer, or its string get to `PHYS_BASE` or above. -/
def Reaches (esp : Nat) : Prop :=
  Crosses esp (4 * (argCount (env.word esp) + 1)) ∨ env.ArgReaches esp

/-- Nothing at `PHYS_BASE` or above is touched, and a call that would have to get there ends the
process with status -1. -/
def Isolated (esp : Nat) : Prop :=
  (∀ a ∈ (env.serve esp).touched, a < physBase) ∧ (env.Reaches esp → (env.serve esp).killed = true)

/-- An address among the words on the stack that `is_valid_userptr` accepts: it is a user address
above the first one of a program, and if there is no page entry, the stack may grow there. -/
def Accepts (ptr : Nat) : Prop :=
  0x08048000 ≤ ptr ∧ ptr < physBase ∧
    if env.hasEntry ptr then env.undef ptr = true else physBase - ptr ≤ 8 * 1024 * 1024

/-- A page fault ends the process at one of the `n` bytes from `a`, when nothing at `PHYS_BASE` or
above has been touched yet. -/
def StopsBefore (a n : Nat) (write : Bool) : Prop :=
  ∃ x, a ≤ x ∧ x < a + n ∧ x ≤ max a physBase ∧ env.fatal x write = true

/-- None of the `n` bytes from `a` ends the process. -/
def Present (a n : Nat) (write : Bool) : Prop := ∀ x, a ≤ x → x < a + n → env.fatal x write = false

/-- The string at `a` goes like `e` up to `x`. -/
def Agrees (a x : Nat) (e : List UInt8) : Prop :=
  ∀ y, a ≤ y → y < x → env.mem y ≠ 0 ∧ e[y - a]? = some (env.mem y)

/-- The number of bytes that `inode_read_at` and `inode_write_at` transfer. -/
def transferred (size pos length : Nat) : Nat :=
  whole env.memory (min (transferSize size) (length - pos)) pos

/-- The number of bytes of its buffer that `read` stores. -/
def readBytes (fd size : Nat) : Nat :=
  if fd = 0 then size
  else if fd = 1 then 0
  else match env.file fd with
    | some file => env.transferred size file.pos file.length
    | none => 0

/-- The number of bytes of its buffer that `write` reads. -/
def writeBytes (fd size : Nat) : Nat :=
  if fd = 0 then 0
  else if fd = 1 then size
  else match env.file fd with
    | some file => if file.denyWrite then 0 else env.transferred size file.pos file.length
    | none => 0

/-- What is needed of the address among the arguments. -/
def ArgSafe (esp : Nat) : Prop :=
  let name := env.word (esp + 4)
  let buffer := env.word (esp + 8)
  let size := env.word (esp + 12)
  -- A page fault in the string before it gets to `PHYS_BASE`.
  let stops := ∃ x, name ≤ x ∧ x ≤ max name physBase ∧ env.fatal x false = true
  -- The same, at a byte that is looked at to compare the string with a name of the directory.
  let stopsLookup := ∃ x, name ≤ x ∧ x ≤ max name physBase ∧ env.fatal x false = true ∧
    ∃ e ∈ env.names.getD [], env.Agrees name x e
  match env.word esp with
  | 2 => env.StringCrosses name → env.page = true ∧ stops
  | 4 => env.StringCrosses name → env.allocated = true ∧ stops
  | 5 => env.StringCrosses name → stopsLookup
  | 6 => env.StringCrosses name → stopsLookup
  | 8 => buffer ≤ physBase → Crosses buffer size →
      env.StopsBefore buffer (env.readBytes (env.word (esp + 4)) size) true
  | 9 => Crosses buffer size →
      env.StopsBefore buffer (env.writeBytes (env.word (esp + 4)) size) false
  | _ => True

/-- What is needed of the caller: unless the handler refuses the stack pointer or the address of an
argument, the words end below `PHYS_BASE`, and so do the buffer or the string that an argument
points to; or a page fault ends the process before. -/
def Safe (esp : Nat) : Prop :=
  let n := argCount (env.word esp)
  env.Accepts esp →
    (Crosses esp 4 → env.StopsBefore esp 4 false) ∧
    (env.Present esp 4 false → (∀ i < n, env.Accepts (esp + 4 * (i + 1))) →
      (Crosses (esp + 4) (4 * n) → env.StopsBefore (esp + 4) (4 * n) false) ∧
      (env.Present (esp + 4) (4 * n) false → env.ArgSafe esp))

end Env

end Syscall

end Pintos
