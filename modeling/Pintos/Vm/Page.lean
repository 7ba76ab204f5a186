import Pintos.Vm.Swap
import Pintos.Threads.Palloc

/-!
# Pages, page entries and the four tables that describe them

The data of `vm/page.h`, `vm/frame.c` and `userprog/pagedir.c`, and the functions that move a user
page in and out of memory: `alloc_page`, `replacement_mem` and `__free_page` of `vm/page.c`, and
`setup_stack`, `handle_mm_fault` and `stack_grow` of `userprog/process.c`.

A `struct page_entry` lives on the heap and is known by its address; the supplemental page table
of a process maps user pages to such addresses, a `struct page` on `list_LRU` points to one, and
`free (pge)` takes it off the heap.  A frame is known by its index in the user pool, a user page by
its address.  The hash table `sup_page_tab` and the two-level page directory are finite maps here.

What the code does not decide itself is an argument: the addresses `malloc` returns (`none` for a
null pointer), the page `get_victim` picks, and whether `lookup_page` gets the page table it may
have to allocate.

The failure branches of `setup_stack`, `stack_grow` and `handle_mm_fault` pass the `struct page`
itself to `free_page_kaddr`, which expects the address of a frame.  A block handed out by `malloc`
never starts on a page boundary, so `ASSERT (pg_ofs (kaddr) == 0)` in `find_page_from_list_LRU`
panics there, and so do these branches.
-/

set_option autoImplicit false

namespace Pintos

/-- `enum vm_type`. -/
inductive VmType where
  | anon
  | bin
  deriving DecidableEq, Repr

/-- `struct page_entry`. -/
structure PageEntry where
  type : VmType
  vaddr : Nat
  writable : Bool
  isLoaded : Bool
  file : Nat
  offset : Nat
  readBytes : Nat
  zeroBytes : Nat
  swapSlot : Nat
  deriving DecidableEq, Repr

/-- `struct page`, without its list element. -/
structure Page where
  kaddr : Nat
  pge : Nat
  thread : Nat
  deriving DecidableEq, Repr

/-- A page table entry: the frame it names and the flag bits `PTE_P`, `PTE_W`, `PTE_A`, `PTE_D`. -/
structure Pte where
  kpage : Nat
  present : Bool
  writable : Bool
  accessed : Bool
  dirty : Bool
  deriving DecidableEq, Repr

/-! ## Page directories -/

/-- A page directory, as the map from user pages to page table entries. -/
abbrev PageDir := AList fun _ : Nat ↦ Pte

namespace PageDir

/-- `pagedir_get_page`, on a page address. -/
def getPage (pd : PageDir) (uaddr : Nat) : Option Nat :=
  match pd.lookup uaddr with
  | some pte => if pte.present then some pte.kpage else none
  | none => none

/-- `pagedir_set_page`, once `lookup_page` has found or made the page table. -/
def setPage (pd : PageDir) (upage kpage : Nat) (writable : Bool) : PageDir :=
  pd.insert upage ⟨kpage, true, writable, false, false⟩

/-- `pagedir_clear_page`. -/
def clearPage (pd : PageDir) (upage : Nat) : Kernel PageDir := do
  assert (pgOfs upage = 0)
  assert (upage < physBase)
  return match pd.lookup upage with
  | some pte => if pte.present then pd.insert upage { pte with present := false } else pd
  | none => pd

/-- `pagedir_is_dirty`. -/
def isDirty (pd : PageDir) (vpage : Nat) : Bool :=
  match pd.lookup vpage with
  | some pte => pte.dirty
  | none => false

/-- `PTE_W` of a page. -/
def isWritable (pd : PageDir) (vpage : Nat) : Bool :=
  match pd.lookup vpage with
  | some pte => pte.writable
  | none => false

/-- An access of the processor to a present page: it sets the accessed bit, and a write sets the
dirty bit as well. -/
def access (pd : PageDir) (upage : Nat) (write : Bool) : PageDir :=
  match pd.lookup upage with
  | some pte =>
    if pte.present then pd.insert upage { pte with accessed := true, dirty := pte.dirty || write }
    else pd
  | none => pd

variable {pd pd' : PageDir} {u v f : Nat} {w : Bool}

theorem getPage_setPage :
    (pd.setPage u f w).getPage v = if v = u then some f else pd.getPage v := by
  unfold setPage getPage
  by_cases h : v = u
  · subst h
    simp [AList.lookup_insert]
  · simp [AList.lookup_insert_ne h, h]

theorem getPage_clearPage (h : pd.clearPage u = some pd') :
    pd'.getPage v = if v = u then none else pd.getPage v := by
  simp only [clearPage, bind_eq_some, assert_eq_some, pure_eq_some] at h
  obtain ⟨-, -, -, -, rfl⟩ := h
  by_cases h : v = u
  · subst h
    rw [if_pos rfl]
    cases hl : pd.lookup v with
    | none => simp [getPage, hl]
    | some pte =>
      cases hp : pte.present <;> simp [getPage, hl, hp, AList.lookup_insert]
  · rw [if_neg h]
    cases hl : pd.lookup u with
    | none => rfl
    | some pte =>
      cases hp : pte.present
      · simp [hp]
      · simp [getPage, hp, AList.lookup_insert_ne h]

theorem getPage_access : (pd.access u w).getPage v = pd.getPage v := by
  unfold access
  cases hl : pd.lookup u with
  | none => rfl
  | some pte =>
    cases hp : pte.present
    · simp [hp]
    · by_cases h : v = u
      · subst h
        simp [getPage, AList.lookup_insert, hl, hp]
      · simp [getPage, hp, AList.lookup_insert_ne h]

end PageDir

/-! ## The state -/

/-- The memory of a process: `pagedir` and `sup_page_tab` of `struct thread`. -/
structure Proc where
  /-- `pagedir`; `none` before `load` has made it and after `process_exit` has destroyed it. -/
  pagedir : Option PageDir
  /-- `sup_page_tab`: the address of the page entry of each user page. -/
  spt : AList fun _ : Nat ↦ Nat

/-- The contents of an executable, which no one can write while a process runs it. -/
structure FileImage where
  length : Nat
  data : Nat → UInt8

/-- Files without any bytes. -/
def noFiles : Nat → FileImage := fun _ ↦ ⟨0, fun _ ↦ 0⟩

/-- The state of the virtual memory system. -/
structure Vm where
  /-- `all_list`: the processes there are. -/
  threads : List Nat
  /-- The page entries on the heap. -/
  heap : Nat → Option PageEntry
  /-- The memory of each process, by thread. -/
  procs : Nat → Proc
  /-- `list_LRU`. -/
  listLRU : List Page
  /-- `used_map` of the user pool. -/
  userPool : Bitmap
  /-- The contents of the frames of the user pool. -/
  mem : Nat → PageData
  swap : Swap

namespace Vm

/-- What a frame holds. -/
def setMem (s : Vm) (kaddr : Nat) (page : PageData) : Vm :=
  { s with mem := Function.update s.mem kaddr page }

/-- Store to a page entry, or take it off the heap. -/
def setPge (s : Vm) (pge : Nat) (entry : Option PageEntry) : Vm :=
  { s with heap := Function.update s.heap pge entry }

/-- Store to a process. -/
def setProc (s : Vm) (t : Nat) (proc : Proc) : Vm :=
  { s with procs := Function.update s.procs t proc }

/-- Store to the page directory of a process. -/
def setPagedir (s : Vm) (t : Nat) (pd : PageDir) : Vm :=
  s.setProc t { s.procs t with pagedir := some pd }

/-- The processor reads a byte of the page `upage` for thread `t`, or stores one there; `none` when
the access faults. -/
def access (s : Vm) (t upage : Nat) (store : Option (Nat × UInt8)) : Option Vm := do
  let pd ← (s.procs t).pagedir
  let kaddr ← pd.getPage upage
  assert (store.isSome → pd.isWritable upage)
  let s := s.setPagedir t (pd.access upage store.isSome)
  match store with
  | none => return s
  | some (ofs, byte) => return s.setMem kaddr (Function.update (s.mem kaddr) ofs byte)

/-! ## The user pool -/

/-- `palloc_get_page (PAL_USER)`. -/
def pallocGetPage (s : Vm) : Kernel (Option Nat × Vm) := do
  let (idx, used) ← s.userPool.scanAndFlip 0 1 false
  return (idx, { s with userPool := used })

/-- `palloc_free_page`, on a frame of the user pool. -/
def pallocFreePage (s : Vm) (kaddr : Nat) : Kernel Vm := do
  let used ← s.userPool.all kaddr 1
  assert (used = true)
  let used ← s.userPool.setMultiple kaddr 1 false
  return { s.setMem kaddr (fun _ ↦ 0xcc) with userPool := used }

/-! ## `vm/frame.c` -/

/-- `add_page_to_list_LRU`. -/
def addPageToListLRU (s : Vm) (page : Page) : Vm := { s with listLRU := s.listLRU ++ [page] }

/-- `find_page_from_list_LRU`. -/
def findPageFromListLRU (s : Vm) (kaddr : Nat) : Option Page :=
  s.listLRU.find? fun page ↦ page.kaddr == kaddr

/-- `del_page_from_list_LRU`. -/
def delPageFromListLRU (s : Vm) (page : Page) : Vm := { s with listLRU := s.listLRU.erase page }

/-! ## `vm/page.c` -/

/-- `get_pge` for the page `vaddr` of thread `t`. -/
def getPge (s : Vm) (t vaddr : Nat) : Option Nat := (s.procs t).spt.lookup vaddr

/-- `insert_pge` into the table of thread `t`: an entry for the same page stays. -/
def insertPge (s : Vm) (t vaddr pge : Nat) : Vm :=
  match s.getPge t vaddr with
  | some _ => s
  | none => s.setProc t { s.procs t with spt := (s.procs t).spt.insert vaddr pge }

/-- `__free_page`. -/
def freePage (s : Vm) (page : Page) : Kernel Vm := do
  let pd ← (s.procs page.thread).pagedir
  let pge ← s.heap page.pge
  let s := s.setPagedir page.thread (← pd.clearPage pge.vaddr)
  let s := s.delPageFromListLRU page
  s.pallocFreePage page.kaddr

/-- The `switch` of `replacement_mem`: write the victim to swap if it may not be dropped. -/
def writeBack (s : Vm) (vict : Page) (pge : PageEntry) (dirty : Bool) : Kernel (Vm × PageEntry) :=
  match pge.type, dirty with
  | .bin, false => some (s, pge)
  | .bin, true => do
    let (swap, slot) ← s.swap.swapOut (s.mem vict.kaddr)
    return ({ s with swap }, { pge with swapSlot := slot, type := .anon })
  | .anon, _ => do
    let (swap, slot) ← s.swap.swapOut (s.mem vict.kaddr)
    return ({ s with swap }, { pge with swapSlot := slot })

/-- `replacement_mem`, when `get_victim` returns `vict`. -/
def replacementMem (s : Vm) (vict : Page) : Kernel Vm := do
  assert (vict ∈ s.listLRU)
  let pd ← (s.procs vict.thread).pagedir
  let pge ← s.heap vict.pge
  let (s, pge) ← s.writeBack vict pge (pd.isDirty pge.vaddr)
  let s := s.setPge vict.pge (some { pge with isLoaded := false })
  s.freePage vict

/-- `alloc_page`: the frame it finds, or `none` if there is no memory for the `struct page`
(`memory` is false).  The loop runs at most once, since nothing else takes the frame that
`replacement_mem` has freed. -/
def allocPage (s : Vm) (memory : Bool) (vict : Page) : Kernel (Option Nat × Vm) :=
  if memory then do
    match ← s.pallocGetPage with
    | (some kaddr, s) => return (some kaddr, s)
    | (none, s) =>
      let s ← s.replacementMem vict
      let (kaddr, s) ← s.pallocGetPage
      return (some (← kaddr), s)
  else some (none, s)

/-- `free_page_kaddr`; `none` is the null pointer `pagedir_get_page` returns for a page that is
not mapped. -/
def freePageKaddr (s : Vm) (kaddr : Option Nat) : Kernel Vm :=
  match kaddr.bind s.findPageFromListLRU with
  | some page => s.freePage page
  | none => some s

/-- `free_page_vaddr`, run by thread `t`. -/
def freePageVaddr (s : Vm) (t vaddr : Nat) : Kernel Vm := do
  let pd ← (s.procs t).pagedir
  s.freePageKaddr (pd.getPage vaddr)

/-- `spt_destroy_func`, run by thread `t` on the entry that `hash_clear` has just taken out of
`sup_page_tab`. -/
def sptDestroyFunc (s : Vm) (t pge : Nat) : Kernel Vm := do
  let entry ← s.heap pge
  let swap ← s.swap.swapClear entry.swapSlot
  let s ← { s with swap }.freePageVaddr t entry.vaddr
  return s.setPge pge none

/-- `spt_destroy`, one entry after the other. -/
def sptDestroy (s : Vm) (t : Nat) : List (Nat × Nat) → Kernel Vm
  | [] => some s
  | (vaddr, pge) :: rest => do
    let s := s.setProc t { s.procs t with spt := (s.procs t).spt.erase vaddr }
    let s ← s.sptDestroyFunc t pge
    s.sptDestroy t rest

/-! ## `userprog/process.c` and `userprog/pagedir.c` -/

/-- `pagedir_destroy`: give back the frames of the pages that are still present. -/
def pagedirDestroy (s : Vm) : List Pte → Kernel Vm
  | [] => some s
  | pte :: rest => do
    let s ← if pte.present then s.pallocFreePage pte.kpage else some s
    s.pagedirDestroy rest

/-- The part of `process_exit` that concerns memory.  `order` is the order in which `hash_clear`
goes through the table. -/
def processExit (s : Vm) (t : Nat) (order : List (Nat × Nat)) : Kernel Vm := do
  let s ← s.sptDestroy t order
  match (s.procs t).pagedir with
  | none => return s
  | some pd =>
    let s := s.setProc t { s.procs t with pagedir := none }
    s.pagedirDestroy (pd.entries.map Sigma.snd)

/-- `install_page` in the address space of thread `t`.  `table` says whether `lookup_page` finds or
gets the page table for `upage`. -/
def installPage (s : Vm) (t upage kpage : Nat) (writable table : Bool) : Kernel (Bool × Vm) := do
  let pd ← (s.procs t).pagedir
  if pd.getPage upage = none ∧ table then
    return (true, s.setPagedir t (pd.setPage upage kpage writable))
  else
    return (false, s)

/-- `load_file`: the contents the page gets, or `none` if the file is too short. -/
def loadFile (file : FileImage) (pge : PageEntry) : Option PageData :=
  if pge.readBytes = 0 ∨ pge.offset + pge.readBytes ≤ file.length then
    some fun o ↦ if o < pge.readBytes then file.data (pge.offset + o) else 0
  else none

/-- The `switch` of `handle_mm_fault`: what a frame that holds `page` is filled with, from the file
or from swap. -/
def fetch (files : Nat → FileImage) (swap : Swap) (entry : PageEntry) (page : PageData) :
    Kernel (Swap × PageData) :=
  match entry.type with
  | .bin => do
    let page ← loadFile (files entry.file) entry
    return (swap, page)
  | .anon => swap.swapIn entry.swapSlot page

/-- Fill the frame `kaddr`. -/
def pageIn (files : Nat → FileImage) (s : Vm) (entry : PageEntry) (kaddr : Nat) : Kernel Vm := do
  let (swap, page) ← fetch files s.swap entry (s.mem kaddr)
  return { s.setMem kaddr page with swap }

/-- `handle_mm_fault` on the page entry at `pge`, called by thread `t`.  It returns true, since
its other branches panic. -/
def handleMmFault (files : Nat → FileImage) (s : Vm) (t pge : Nat) (memory : Bool) (vict : Page)
    (table : Bool) : Kernel Vm := do
  let (kaddr, s) ← s.allocPage memory vict
  -- `ASSERT (kpage != NULL)`
  let kaddr ← kaddr
  let entry ← s.heap pge
  let s ← pageIn files s entry kaddr
  let (installed, s) ← s.installPage t entry.vaddr kaddr entry.writable table
  assert (installed = true)
  let s := s.setPge pge (some { entry with isLoaded := true })
  return s.addPageToListLRU ⟨kaddr, pge, t⟩

/-- The page entry that `setup_stack` and `stack_grow` write. -/
def stackEntry (upage : Nat) : PageEntry :=
  { type := .anon, vaddr := upage, writable := true, isLoaded := true, file := 0, offset := 0,
    readBytes := 0, zeroBytes := 0, swapSlot := 0 }

/-- What `setup_stack` and `stack_grow` have in common: map a zeroed page at `upage` in thread
`t`.  `pge` is the address `malloc` returns for the page entry.  The result says whether the page
was mapped. -/
def mapStackPage (s : Vm) (t upage : Nat) (pge : Option Nat) (memory : Bool) (vict : Page)
    (table : Bool) : Kernel (Bool × Vm) :=
  match pge with
  | none => some (false, s)
  | some pge => do
    match ← s.allocPage memory vict with
    | (none, s) => return (false, s)
    | (some kaddr, s) =>
      let s := s.setMem kaddr fun _ ↦ 0
      let s := s.addPageToListLRU ⟨kaddr, pge, t⟩
      let (installed, s) ← s.installPage t upage kaddr true table
      assert (installed = true)
      let s := s.setPge pge (some (stackEntry upage))
      return (true, s.insertPge t upage pge)

/-- `setup_stack`: whether it returns true, and what it stores to `*esp`.  It returns true also
when `alloc_page` has failed. -/
def setupStack (s : Vm) (t : Nat) (pge : Option Nat) (memory : Bool) (vict : Page) (table : Bool) :
    Kernel (Bool × Option Nat × Vm) := do
  let (mapped, s) ← s.mapStackPage t (physBase - pgSize) pge memory vict table
  return (pge.isSome, if mapped then some (physBase - 12) else none, s)

/-- `stack_grow`. -/
def stackGrow (s : Vm) (t addr : Nat) (pge : Option Nat) (memory : Bool) (vict : Page)
    (table : Bool) : Kernel Vm := do
  let (_, s) ← s.mapStackPage t (addr / pgSize * pgSize) pge memory vict table
  return s

end Vm

end Pintos
