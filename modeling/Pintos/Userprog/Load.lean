import Pintos.Vm.Page

/-!
# The page entries an executable asks for

`load` of `userprog/process.c` reads no page of the program: for every `PT_LOAD` header it lets
`load_segment` put one page entry per page into `sup_page_tab`, and the pages come in later through
`handle_mm_fault`.  Here `loadEntries` is the list of the entries, in the order in which they are
made, and `Vm.loadPages` puts them into the tables of a process.
-/

set_option autoImplicit false

namespace Pintos

/-- `struct Elf32_Phdr`: the fields `load` looks at, all of them 32-bit words. -/
structure Phdr where
  pType : Nat
  pOffset : Nat
  pVaddr : Nat
  pFilesz : Nat
  pMemsz : Nat
  pFlags : Nat
  deriving DecidableEq, Repr

/-- `validate_segment`; the end of the segment is computed in 32 bits. -/
def validateSegment (phdr : Phdr) (fileLength : Nat) : Bool :=
  let stop := (phdr.pVaddr + phdr.pMemsz) % 2 ^ 32
  phdr.pOffset % pgSize == phdr.pVaddr % pgSize
    && !decide (phdr.pOffset > fileLength)
    && !decide (phdr.pMemsz < phdr.pFilesz)
    && !decide (phdr.pMemsz = 0)
    && decide (phdr.pVaddr < physBase)
    && decide (stop < physBase)
    && !decide (stop < phdr.pVaddr)
    && !decide (phdr.pVaddr < pgSize)

/-- `load_segment`: one entry per page, at most `fuel` of them. -/
def loadSegment (file ofs upage readBytes zeroBytes : Nat) (writable : Bool) :
    Nat → List PageEntry
  | 0 => []
  | fuel + 1 =>
    if readBytes > 0 ∨ zeroBytes > 0 then
      let pageReadBytes := if readBytes < pgSize then readBytes else pgSize
      let pageZeroBytes := pgSize - pageReadBytes
      { type := .bin, vaddr := upage, writable, isLoaded := false, file, offset := ofs,
        readBytes := pageReadBytes, zeroBytes := pageZeroBytes, swapSlot := 0 } ::
        loadSegment file (ofs + pageReadBytes) (upage + pgSize) (readBytes - pageReadBytes)
          (zeroBytes - pageZeroBytes) writable fuel
    else []

/-- The body of the `PT_LOAD` case of `load`. -/
def segmentEntries (file : Nat) (phdr : Phdr) : List PageEntry :=
  let writable := decide (phdr.pFlags / 2 % 2 ≠ 0)
  let filePage := phdr.pOffset / pgSize * pgSize
  let memPage := phdr.pVaddr / pgSize * pgSize
  let pageOffset := phdr.pVaddr % pgSize
  let total := (pageOffset + phdr.pMemsz + pgSize - 1) / pgSize * pgSize
  let readBytes := if phdr.pFilesz > 0 then pageOffset + phdr.pFilesz else 0
  loadSegment file filePage memPage readBytes (total - readBytes) writable (total / pgSize)

/-- The loop of `load` over the program headers: the entries made, and whether it came through. -/
def loadEntries (file fileLength : Nat) : List Phdr → List PageEntry × Bool
  | [] => ([], true)
  | phdr :: rest =>
    -- `PT_DYNAMIC`, `PT_INTERP` and `PT_SHLIB` are refused, `PT_LOAD` is 1, all others are skipped.
    if phdr.pType = 2 ∨ phdr.pType = 3 ∨ phdr.pType = 5 then ([], false)
    else if phdr.pType = 1 then
      if validateSegment phdr fileLength then
        let (entries, success) := loadEntries file fileLength rest
        (segmentEntries file phdr ++ entries, success)
      else ([], false)
    else loadEntries file fileLength rest

/-- What `load_segment` makes: a page of the file that is not in memory. -/
def PageEntry.Fresh (entry : PageEntry) : Prop :=
  entry.type = .bin ∧ entry.isLoaded = false ∧ entry.swapSlot = 0

theorem fresh_of_mem_loadSegment {file : Nat} {writable : Bool} {entry : PageEntry} {fuel : Nat} :
    ∀ {ofs upage readBytes zeroBytes : Nat},
      entry ∈ loadSegment file ofs upage readBytes zeroBytes writable fuel → entry.Fresh := by
  induction fuel with
  | zero => intro _ _ _ _ h; simp [loadSegment] at h
  | succ fuel ih =>
    intro ofs upage readBytes zeroBytes h
    rw [loadSegment] at h
    split at h
    · rcases List.mem_cons.mp h with rfl | h
      · exact ⟨rfl, rfl, rfl⟩
      · exact ih h
    · simp at h

/-- **Every entry `load` makes is an unloaded page of the file.** -/
theorem fresh_of_mem_loadEntries {file fileLength : Nat} {entry : PageEntry} {phdrs : List Phdr}
    (h : entry ∈ (loadEntries file fileLength phdrs).1) : entry.Fresh := by
  induction phdrs with
  | nil => simp [loadEntries] at h
  | cons phdr rest ih =>
    rw [loadEntries] at h
    split at h
    · simp at h
    · split at h
      · split at h
        · rcases List.mem_append.mp h with h | h
          · exact fresh_of_mem_loadSegment h
          · exact ih h
        · simp at h
      · exact ih h

namespace Vm

/-- Put the entries of an executable into `sup_page_tab` of thread `t`, each at an address that
`malloc` returns.  When `malloc` fails, `load` gives up and the addresses run out early. -/
def loadPages (s : Vm) (t : Nat) : List Nat → List PageEntry → Vm
  | pge :: ptrs, entry :: entries =>
    ((s.setPge pge (some entry)).insertPge t entry.vaddr pge).loadPages t ptrs entries
  | _, _ => s

/-- `load` in thread `t`: whether it succeeds, and what it stores to `*esp`.  `ptrs` are the
addresses `malloc` returns for the entries of the segments, `stack` the one it returns for the
entry of the stack page. -/
def load (s : Vm) (t file fileLength : Nat) (phdrs : List Phdr) (ptrs : List Nat)
    (stack : Option Nat) (memory : Bool) (vict : Page) (table : Bool) :
    Kernel (Bool × Option Nat × Vm) :=
  let (entries, success) := loadEntries file fileLength phdrs
  let s := (s.setPagedir t ∅).loadPages t ptrs entries
  if success ∧ entries.length ≤ ptrs.length then
    s.setupStack t stack memory vict table
  else some (false, none, s)

end Vm

end Pintos
