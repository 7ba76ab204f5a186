import Pintos.Vm.SwapOwnership

/-!
# The paging functions, step by step

`Pintos.Vm.Page` runs each function from its beginning to its end.  Here any number of processes
are inside them at the same time, each at a place of its own (`Pc`), and one step is what a function
does between two points where another thread can get in its way:

* what is done under `list_LRU_lock` without waiting is one step, which needs the lock to be free;
* `replacement_mem` waits for the disk in `swap_out`, so it is three steps: it takes the lock and
  chooses a victim, writes it back, and frees it and gives up the lock;
* `swap_in`, `swap_out` and `swap_clear` are one step each, under `swap_lock`;
* `setup_stack`, `stack_grow` and `handle_mm_fault` touch the page entry, the page directory,
  `sup_page_tab` and `list_LRU` one after the other, and each of that is a step;
* `process_exit` takes an entry out of `sup_page_tab`, calls `swap_clear`, looks the frame up, and
  only then waits for the lock.

`World.history` is what nobody reads: who has taken and given back which frame, which pages an
exiting process has freed, and for whom a swap slot has been marked.
-/

set_option autoImplicit false

namespace Pintos

namespace Vm

/-- What a frame is wanted for. -/
inductive Job where
  /-- `setup_stack` or `stack_grow` for the page `upage`, with the block of its page entry. -/
  | stack (upage pge : Nat)
  /-- `handle_mm_fault (pge)`. -/
  | fault (pge : Nat)
  deriving DecidableEq, Repr

/-- Where a thread is. -/
inductive Pc where
  /-- There is no such process. -/
  | gone
  /-- In none of the functions. -/
  | user
  /-- `alloc_page`, before `malloc`. -/
  | mallocPage (job : Job)
  /-- `alloc_page`, before `palloc_get_page`. -/
  | getPage (job : Job)
  /-- `alloc_page`, before `replacement_mem`. -/
  | replace (job : Job)
  /-- `replacement_mem`, after `get_victim`. -/
  | chosen (job : Job) (vict : Page)
  /-- `replacement_mem`, after the `switch`. -/
  | saved (job : Job) (vict : Page)
  /-- `alloc_page` has returned. -/
  | allocated (job : Job) (kaddr : Nat)
  /-- `setup_stack` or `stack_grow`, after `add_page_to_list_LRU`. -/
  | added (upage pge kaddr : Nat)
  /-- `setup_stack` or `stack_grow`, after `install_page`. -/
  | installed (upage pge kaddr : Nat)
  /-- `setup_stack` or `stack_grow`, before `insert_pge`. -/
  | filled (upage pge kaddr : Nat)
  /-- `handle_mm_fault`, after `load_file` or `swap_in`. -/
  | pagedIn (pge kaddr : Nat)
  /-- `handle_mm_fault`, after `install_page`. -/
  | mapped (pge kaddr : Nat)
  /-- `handle_mm_fault`, before `add_page_to_list_LRU`. -/
  | loaded (pge kaddr : Nat)
  /-- `spt_destroy`, between two entries. -/
  | exiting
  /-- `spt_destroy_func`, before `swap_clear`. -/
  | popped (pge : Nat)
  /-- `free_page_vaddr`, before `pagedir_get_page`. -/
  | cleared (pge : Nat)
  /-- `free_page_kaddr`, before `lock_acquire`. -/
  | lookedUp (pge : Nat) (kaddr : Option Nat)
  /-- `spt_destroy_func`, before `free`. -/
  | unlisted (pge : Nat)
  deriving DecidableEq, Repr

/-- What has happened. -/
structure History where
  /-- How often a thread has taken a frame. -/
  taken : Nat → Nat → Nat
  /-- How often a frame of a thread has been given back. -/
  freed : Nat → Nat → Nat
  /-- The pages that `free_page_kaddr` has freed, and who has called it. -/
  exitFreed : List (Nat × Page)
  /-- The thread whose page was the last to be written to a slot, by slot number. -/
  slotOwner : Nat → Option Nat

namespace History

def take (h : History) (t kaddr : Nat) : History :=
  { h with taken := fun u f ↦ if u = t ∧ f = kaddr then h.taken u f + 1 else h.taken u f }

def free (h : History) (t kaddr : Nat) : History :=
  { h with freed := fun u f ↦ if u = t ∧ f = kaddr then h.freed u f + 1 else h.freed u f }

end History

/-- The memory, and the threads that work on it. -/
structure World where
  vm : Vm
  /-- The holder of `list_LRU_lock`. -/
  holder : Option Nat
  pc : Nat → Pc
  history : History

/-- What a thread does next, with what it does not decide itself: the blocks that `malloc` returns
and what they hold, the page that `get_victim` picks, whether `lookup_page` gets a page table, and
the order of the hash table. -/
inductive Act where
  /-- A process comes into being. -/
  | create
  /-- A round of the loop of `load_segment`. -/
  | loadPage (entry : PageEntry) (pge : Nat)
  /-- The processor accesses a page that is present. -/
  | access (upage : Nat) (store : Option (Nat × UInt8))
  | setupStack (pge : Nat) (garbage : PageEntry)
  | stackGrow (addr pge : Nat) (garbage : PageEntry)
  | pageFault (addr : Nat)
  | mallocPage (memory : Bool)
  | getPage
  | getVictim (vict : Page)
  | writeBack
  | freeVictim
  | addPage
  | installPage (table : Bool)
  | fill
  | insert
  | pageIn
  | setLoaded
  | exit
  | pop (vaddr : Nat)
  | swapClear
  | lookup
  | freeFound
  | freeEntry
  | destroy
  deriving DecidableEq, Repr

instance (entry : PageEntry) : Decidable entry.Fresh := inferInstanceAs (Decidable (_ ∧ _ ∧ _))

namespace World

/-- The thread goes on. -/
def goto (w : World) (t : Nat) (pc : Pc) : World := { w with pc := Function.update w.pc t pc }

/-- `setup_stack` and `stack_grow` begin with `malloc`. -/
def mallocEntry (w : World) (t upage pge : Nat) (garbage : PageEntry) : Kernel World := do
  assert (w.vm.heap pge = none)
  return { w with vm := w.vm.setPge pge (some garbage) }.goto t (.mallocPage (.stack upage pge))

/-- `palloc_get_page` in `alloc_page`. -/
def getPage (w : World) (t : Nat) (job : Job) : Kernel World := do
  let (kaddr, vm) ← w.vm.pallocGetPage
  match kaddr with
  | none => return { w with vm }.goto t (.replace job)
  | some kaddr =>
    -- `PAL_ZERO`
    let vm := match job with
      | .stack .. => vm.setMem kaddr fun _ ↦ 0
      | .fault _ => vm
    return { w with vm, history := w.history.take t kaddr }.goto t (.allocated job kaddr)

/-- The `switch` of `replacement_mem`. -/
def writeBack (w : World) (t : Nat) (job : Job) (vict : Page) : Kernel World := do
  let pd ← (w.vm.procs vict.thread).pagedir
  let pge ← w.vm.heap vict.pge
  let dirty := pd.isDirty pge.vaddr
  let (vm, pge') ← w.vm.writeBack vict pge dirty
  let history := if pge.type = .bin ∧ dirty = false then w.history
    else { w.history with
      slotOwner := Function.update w.history.slotOwner pge'.swapSlot (some vict.thread) }
  return { w with vm := vm.setPge vict.pge (some pge'), history }.goto t (.saved job vict)

/-- The rest of `replacement_mem`. -/
def freeVictim (w : World) (t : Nat) (job : Job) (vict : Page) : Kernel World := do
  let pge ← w.vm.heap vict.pge
  let vm ← (w.vm.setPge vict.pge (some { pge with isLoaded := false })).freePage vict
  return { w with vm, holder := none, history := w.history.free vict.thread vict.kaddr }.goto t
    (.getPage job)

/-- `add_page_to_list_LRU`. -/
def addPage (w : World) (t pge kaddr : Nat) (pc : Pc) : Kernel World := do
  assert (w.holder = none)
  return { w with vm := w.vm.addPageToListLRU ⟨kaddr, pge, t⟩ }.goto t pc

/-- `install_page`; if it fails, the failure branch panics. -/
def installPage (w : World) (t upage kaddr : Nat) (writable table : Bool) (pc : Pc) :
    Kernel World := do
  let (installed, vm) ← w.vm.installPage t upage kaddr writable table
  assert (installed = true)
  return { w with vm }.goto t pc

/-- `free_page_kaddr`, under the lock. -/
def freeFound (w : World) (t pge : Nat) (kaddr : Option Nat) : Kernel World := do
  assert (w.holder = none)
  match kaddr.bind w.vm.findPageFromListLRU with
  | none => return w.goto t (.unlisted pge)
  | some page =>
    let vm ← w.vm.freePage page
    let history := w.history.free page.thread page.kaddr
    return { w with vm, history := { history with exitFreed := (t, page) :: history.exitFreed }
      }.goto t (.unlisted pge)

/-- The end of `process_exit`. -/
def destroy (w : World) (t : Nat) : Kernel World := do
  assert (w.vm.tableOf t = [])
  match (w.vm.procs t).pagedir with
  | none => return w.goto t .gone
  | some pd =>
    let ptes := pd.entries.map Sigma.snd
    let vm ← (w.vm.setProc t { w.vm.procs t with pagedir := none }).pagedirDestroy ptes
    let history := (ptes.filter Pte.present).foldl (fun h pte ↦ h.free t pte.kpage) w.history
    return { w with vm, history }.goto t .gone

variable (files : Nat → FileImage)

/-- One step of thread `t`.  There is no next state if the thread is elsewhere, has to wait, or
panics. -/
def step (w : World) (t : Nat) (act : Act) : Kernel World :=
  match w.pc t, act with
  | .gone, .create =>
    some ({ w with vm := (w.vm.initThread t).setPagedir t ∅ }.goto t .user)
  | .user, .loadPage entry pge => do
    assert (entry.Fresh ∧ w.vm.heap pge = none)
    return { w with vm := (w.vm.setPge pge (some entry)).insertPge t entry.vaddr pge }
  | .user, .access upage store => do
    return { w with vm := ← w.vm.access t upage store }
  | .user, .setupStack pge garbage => w.mallocEntry t (physBase - pgSize) pge garbage
  | .user, .stackGrow addr pge garbage => do
    -- `page_fault` and `is_valid_userptr` have called `get_pge`.
    assert (w.vm.getPge t (addr / pgSize * pgSize) = none)
    w.mallocEntry t (addr / pgSize * pgSize) pge garbage
  | .user, .pageFault addr => do
    let pge ← w.vm.getPge t (addr / pgSize * pgSize)
    -- `not_present`
    assert (w.vm.frameOf t (addr / pgSize * pgSize) = none)
    return w.goto t (.mallocPage (.fault pge))
  | .mallocPage job, .mallocPage true => some (w.goto t (.getPage job))
  -- `setup_stack` and `stack_grow` return; in `handle_mm_fault` an assertion fails.
  | .mallocPage (.stack ..), .mallocPage false => some (w.goto t .user)
  | .getPage job, .getPage => w.getPage t job
  | .replace job, .getVictim vict => do
    assert (w.holder = none ∧ vict ∈ w.vm.listLRU)
    return { w with holder := some t }.goto t (.chosen job vict)
  | .chosen job vict, .writeBack => w.writeBack t job vict
  | .saved job vict, .freeVictim => w.freeVictim t job vict
  | .allocated (.stack upage pge) kaddr, .addPage =>
    w.addPage t pge kaddr (.added upage pge kaddr)
  | .added upage pge kaddr, .installPage table =>
    w.installPage t upage kaddr true table (.installed upage pge kaddr)
  | .installed upage pge kaddr, .fill =>
    some ({ w with vm := w.vm.setPge pge (some (stackEntry upage)) }.goto t
      (.filled upage pge kaddr))
  | .filled _ pge _, .insert => do
    let entry ← w.vm.heap pge
    return { w with vm := w.vm.insertPge t entry.vaddr pge }.goto t .user
  | .allocated (.fault pge) kaddr, .pageIn => do
    let entry ← w.vm.heap pge
    return { w with vm := ← pageIn files w.vm entry kaddr }.goto t (.pagedIn pge kaddr)
  | .pagedIn pge kaddr, .installPage table => do
    let entry ← w.vm.heap pge
    w.installPage t entry.vaddr kaddr entry.writable table (.mapped pge kaddr)
  | .mapped pge kaddr, .setLoaded => do
    let entry ← w.vm.heap pge
    return { w with vm := w.vm.setPge pge (some { entry with isLoaded := true }) }.goto t
      (.loaded pge kaddr)
  | .loaded pge kaddr, .addPage => w.addPage t pge kaddr .user
  | .user, .exit => some (w.goto t .exiting)
  | .exiting, .pop vaddr => do
    let pge ← w.vm.getPge t vaddr
    return { w with vm := w.vm.popPge t vaddr }.goto t (.popped pge)
  | .popped pge, .swapClear => do
    let entry ← w.vm.heap pge
    let swap ← w.vm.swap.swapClear entry.swapSlot
    return { w with vm := { w.vm with swap } }.goto t (.cleared pge)
  | .cleared pge, .lookup => do
    let entry ← w.vm.heap pge
    let pd ← (w.vm.procs t).pagedir
    return w.goto t (.lookedUp pge (pd.getPage entry.vaddr))
  | .lookedUp pge kaddr, .freeFound => w.freeFound t pge kaddr
  | .unlisted pge, .freeEntry =>
    some ({ w with vm := w.vm.setPge pge none }.goto t .exiting)
  | .exiting, .destroy => w.destroy t
  | _, _ => none

/-- A step of some thread. -/
def move (w : World) (a : Nat × Act) : Kernel World := w.step files a.1 a.2

end World

/-- The machine after boot. -/
def World.boot (frames slots : Nat) (block : Block) : World :=
  ⟨Vm.boot frames slots block, none, fun _ ↦ .gone, ⟨fun _ _ ↦ 0, fun _ _ ↦ 0, [], fun _ ↦ none⟩⟩

end Vm

end Pintos
