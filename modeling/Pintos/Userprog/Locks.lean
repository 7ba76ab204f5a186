import Pintos.Logic.Discipline
import Pintos.Userprog.KernelPaths

/-!
# Processes that hold locks when a page fault comes

The processes run the code of `Pintos.Userprog.KernelPaths` side by side, one instruction at a
time.  Two things can go wrong because a page fault may come while a process holds a lock.

A fault that kills the process leaves the lock behind: nobody releases `_lock_for_file` when the
faulting access was made by `syscall_read` on a bad buffer (`Pintos.Userprog.FileLock`).

A fault that is handled takes locks itself.  Under `_lock_for_file` this is harmless, since the
fault handler never takes it; under the lock of the IDE channel, which `ide_read` and `ide_write`
hold while they copy whole sectors from and to the buffer of the caller, the handler waits for the
very lock its own thread holds (`Pintos.Userprog.LockRanks`).

`lock_acquire` and `lock_release` are one step each here.  In the kernel the store to `holder` comes
a little after `sema_down`, and a little before `sema_up`; in between the thread neither waits nor
touches a user page.
-/

set_option autoImplicit false

namespace Pintos

/-- What there is of a thread. -/
inductive Status where
  /-- It has not been created yet. -/
  | unborn
  | alive
  /-- It is in `thread_exit`. -/
  | dying
  /-- Its `struct thread` has been freed. -/
  | freed
  deriving DecidableEq, Repr

/-- A thread: the kernel code it has to run before it returns to the user program, and its user
pages. -/
structure KThread where
  status : Status
  code : List Instr
  pages : Nat → PageState

/-- The threads and the locks. -/
structure KState where
  holder : KLock → Option Nat
  threads : Nat → KThread

/-- What an instruction leaves open. -/
inductive Choice where
  /-- Go on: the pointer is valid, the access does not fault, `palloc_get_page` finds a page. -/
  | ok
  /-- The access faults on a page that has an entry. -/
  | fault
  /-- The address is below the stack: `stack_grow`. -/
  | grow
  /-- The process has to die: the pointer is bad, or the access is; `files` and `entries` are what
  `process_exit` has to give back. -/
  | kill (files : List Nat) (entries : List Bool)
  /-- `palloc_get_page` finds no page. -/
  | full
  /-- `install_page` finds no memory for the page table. -/
  | fail
  /-- `get_victim` picks the page `page` of thread `t`. -/
  | victim (t page : Nat) (dirty : Bool)
  /-- `load_file` reads `n` sectors. -/
  | sectors (n : Nat)
  /-- The new thread, and what its `load` comes across. -/
  | child (t : Nat) (image : Image)
  deriving DecidableEq, Repr

variable {code : List Instr} {choice : Choice} {i : Instr}

namespace KState

/-- Store to a thread. -/
def set (s : KState) (t : Nat) (th : KThread) : KState :=
  { s with threads := fun u ↦ if u = t then th else s.threads u }

/-- Thread `t` goes on with `code`. -/
def goto (s : KState) (t : Nat) (code : List Instr) : KState :=
  s.set t { s.threads t with code }

/-- The state of a page of thread `t`. -/
def setPage (s : KState) (t page : Nat) (st : PageState) : KState :=
  s.set t { s.threads t with
    pages := fun v ↦ if v = page then st else (s.threads t).pages v }

/-- `lock->holder = t`, or `NULL`. -/
def setHolder (s : KState) (l : KLock) (t : Option Nat) : KState :=
  { s with holder := fun k ↦ if k = l then t else s.holder k }

/-- Thread `t` enters `thread_exit`. -/
def exit (s : KState) (t : Nat) (files : List Nat) (entries : List Bool) : KState :=
  s.set t { s.threads t with status := .dying, code := exitCode files entries }

/-- The access neither faults nor is it a store to a page that is only readable. -/
def accessible (s : KState) (t addr : Nat) (write : Bool) : Bool :=
  match (s.threads t).pages (addr / pgSize) with
  | .loaded _ writable => !write || writable
  | _ => false

/-- `page_fault` kills a process for this access if there is no page entry, or the page is there but
may not be written. -/
def badAccess (s : KState) (t addr : Nat) (write : Bool) : Bool :=
  match (s.threads t).pages (addr / pgSize) with
  | .absent => true
  | .loaded _ writable => write && !writable
  | _ => false

/-- The byte that thread `t` touches next, and whether it is a store. -/
def touches (s : KState) (t : Nat) : Option (Nat × Bool) :=
  match (s.threads t).code with
  | .touch addr write :: _ => some (addr, write)
  | _ => none

/-- The code that takes the place of an instruction of thread `t`: none if it is done. -/
def expand (s : KState) (t : Nat) : Instr → Choice → Option (List Instr)
  | .check _, .ok => some []
  | .check addr, .grow => some (stackGrowCode (addr / pgSize))
  | .touch addr write, .ok => if s.accessible t addr write then some [] else none
  | .touch addr write, .fault =>
    match (s.threads t).pages (addr / pgSize) with
    | .bin writable => some (faultCode (addr / pgSize) false writable ++ [.touch addr write])
    | .anon writable => some (faultCode (addr / pgSize) true writable ++ [.touch addr write])
    | _ => none
  | .touch addr write, .grow =>
    match (s.threads t).pages (addr / pgSize) with
    | .absent => some (stackGrowCode (addr / pgSize) ++ [.touch addr write])
    | _ => none
  | .alloc, .ok => some []
  | .alloc, .full => some (replacementCode ++ [.alloc])
  | .evict, .victim u page dirty =>
    match (s.threads u).pages page with
    | .loaded isAnon _ => some (evictCode u page (isAnon || dirty))
    | _ => none
  | .unmap _ _ _, .ok => some []
  | .fill page, .sectors n =>
    match (s.threads t).pages page with
    | .bin _ => some (ioCode n)
    | .anon _ => some swapCode
    | _ => none
  | .map _ _ _, .ok => some []
  | .map page _ _, .fail =>
    match (s.threads t).pages page with
    -- `free_page_kaddr` does not find the page that `handle_mm_fault` gives back, and panics; so it
    -- does if `load_file` fails.
    | .bin _ | .anon _ => none
    -- `stack_grow` gives the page back and returns.
    | _ => some addPageCode
  | .spawn, .child u _ => if (s.threads u).status = .unborn then some [] else none
  | _, _ => none

/-- What an instruction does to the pages, and the new thread. -/
def effect (s : KState) (t : Nat) : Instr → Choice → KState
  | .unmap u page anon, .ok =>
    match (s.threads u).pages page with
    | .loaded _ writable => s.setPage u page (if anon then .anon writable else .bin writable)
    -- The owner has died in the meantime.
    | _ => s
  | .map page isAnon writable, .ok => s.setPage t page (.loaded isAnon writable)
  | .spawn, .child u image => s.set u ⟨.alive, loadCode image, image.pages⟩
  | _, _ => s

/-- Thread `t` executes the instruction `i`, after which comes `rest`.  There is no next state when
the thread has to wait for a lock, and none when an assertion fails. -/
def exec (s : KState) (t : Nat) (i : Instr) (rest : List Instr) (choice : Choice) :
    Option KState :=
  match i, choice with
  | .acquire l, .ok =>
    if s.holder l = none then some ((s.setHolder l (some t)).goto t rest) else none
  | .release l, .ok =>
    if s.holder l = some t then some ((s.setHolder l none).goto t rest) else none
  | .check _, .kill files entries => some (s.exit t files entries)
  | .touch addr write, .kill files entries =>
    if s.badAccess t addr write then some (s.exit t files entries) else none
  | .die, .kill files entries => some (s.exit t files entries)
  | i, choice =>
    (s.expand t i choice).map fun code ↦ (s.effect t i choice).goto t (code ++ rest)

/-- What may happen next. -/
inductive Act where
  /-- The user program makes a system call. -/
  | call (t esp args : Nat) (call : Call)
  /-- The user program accesses a byte of its own. -/
  | access (t addr : Nat) (write : Bool)
  /-- The user program causes an exception other than a page fault: `kill`. -/
  | crash (t : Nat) (files : List Nat) (entries : List Bool)
  /-- The next instruction of thread `t`. -/
  | run (t : Nat) (choice : Choice)
  /-- The `struct thread` of `t` is freed. -/
  | free (t : Nat)
  deriving DecidableEq, Repr

/-- One action. -/
def step (s : KState) : Act → Option KState
  | .call t esp args call =>
    if (s.threads t).status = .alive ∧ (s.threads t).code = [] then
      some (s.goto t (handlerCode esp args call))
    else none
  | .access t addr write =>
    if (s.threads t).status = .alive ∧ (s.threads t).code = [] then
      some (s.goto t [.touch addr write])
    else none
  | .crash t files entries =>
    if (s.threads t).status = .alive ∧ (s.threads t).code = [] then some (s.exit t files entries)
    else none
  | .run t choice =>
    match (s.threads t).code with
    | i :: rest => s.exec t i rest choice
    | [] => none
  | .free t =>
    if (s.threads t).status = .dying ∧ (s.threads t).code = [] then
      some (s.set t { s.threads t with status := .freed })
    else none

/-- After boot: no lock is held, and one process is about to load its executable. -/
def boot (image : Image) : KState :=
  { holder := fun _ ↦ none
    threads := fun t ↦
      if t = 0 then ⟨.alive, loadCode image, image.pages⟩ else ⟨.unborn, [], fun _ ↦ .absent⟩ }

@[simp] theorem setHolder_threads (s : KState) (l : KLock) (o : Option Nat) :
    (s.setHolder l o).threads = s.threads := rfl

@[simp] theorem effect_holder (s : KState) (t : Nat) (i : Instr) (choice : Choice) :
    (s.effect t i choice).holder = s.holder := by
  unfold effect
  split
  · split <;> rfl
  all_goals rfl

/-- What may take the place of an instruction. -/
inductive Expansion (s : KState) (t : Nat) : Instr → Choice → List Instr → Prop where
  | done {i : Instr} {choice : Choice} (hacquire : ∀ l, i ≠ .acquire l)
      (hrelease : ∀ l, i ≠ .release l) : Expansion s t i choice []
  | check (addr : Nat) : Expansion s t (.check addr) .grow (stackGrowCode (addr / pgSize))
  | fault {addr : Nat} {write : Bool} (isAnon writable : Bool)
      (h : s.accessible t addr write = false) :
      Expansion s t (.touch addr write) .fault
        (faultCode (addr / pgSize) isAnon writable ++ [.touch addr write])
  | grow {addr : Nat} {write : Bool} (h : s.accessible t addr write = false) :
      Expansion s t (.touch addr write) .grow
        (stackGrowCode (addr / pgSize) ++ [.touch addr write])
  | replace : Expansion s t .alloc .full (replacementCode ++ [.alloc])
  | evict (u page : Nat) (dirty write : Bool) :
      Expansion s t .evict (.victim u page dirty) (evictCode u page write)
  | loadFile (page n : Nat) : Expansion s t (.fill page) (.sectors n) (ioCode n)
  | swapIn (page n : Nat) : Expansion s t (.fill page) (.sectors n) swapCode
  | growFailed (page : Nat) (isAnon writable : Bool) :
      Expansion s t (.map page isAnon writable) .fail addPageCode

theorem expansion_of_expand {s : KState} {t : Nat}
    (h : s.expand t i choice = some code) : Expansion s t i choice code := by
  unfold expand at h
  split at h
  · cases h
    exact .done nofun nofun
  · cases h
    exact .check _
  · split at h <;> cases h
    exact .done nofun nofun
  · split at h <;> cases h
    all_goals
      refine .fault _ _ ?_
      simp [accessible, *]
  · split at h <;> cases h
    refine .grow ?_
    simp [accessible, *]
  · cases h
    exact .done nofun nofun
  · cases h
    exact .replace
  · split at h <;> cases h
    exact .evict _ _ _ _
  · cases h
    exact .done nofun nofun
  · split at h <;> cases h
    · exact .loadFile _ _
    · exact .swapIn _ _
  · cases h
    exact .done nofun nofun
  · split at h <;> cases h
    exact .growFailed _ _ _
  · split at h <;> cases h
    exact .done nofun nofun
  · cases h

/-! ## Invariants that look at each thread apart -/

/-- A property of the status and the code of thread `t`, and of the locks it holds. -/
def Each (P : (KLock → Option Nat) → Nat → Status → List Instr → Prop) (s : KState) : Prop :=
  ∀ t, P s.holder t (s.threads t).status (s.threads t).code

section Each

variable {P : (KLock → Option Nat) → Nat → Status → List Instr → Prop} {s : KState} {t : Nat}

theorem Each.set {th : KThread} (h : Each P s) (ht : P s.holder t th.status th.code) :
    Each P (s.set t th) := by
  intro u
  by_cases hu : u = t
  · subst hu
    simpa [KState.set] using ht
  · simpa [KState.set, hu] using h u

theorem Each.goto (h : Each P s) (ht : P s.holder t (s.threads t).status code) :
    Each P (s.goto t code) :=
  h.set ht

/-- Thread `t` takes or releases the lock `l`. -/
theorem Each.setHolder_goto {l : KLock} {o : Option Nat} (h : Each P s)
    (hother : ∀ u status code, u ≠ t → P s.holder u status code →
      P (s.setHolder l o).holder u status code)
    (ht : P (s.setHolder l o).holder t (s.threads t).status code) :
    Each P ((s.setHolder l o).goto t code) := by
  intro u
  by_cases hu : u = t
  · subst hu
    simpa [KState.goto, KState.set] using ht
  · simpa [KState.goto, KState.set, hu] using hother u _ _ hu (h u)

theorem Each.setPage {u page : Nat} {st : PageState} (h : Each P s) :
    Each P (s.setPage u page st) :=
  h.set (h u)

/-- The page tables do not matter, and a new thread is as `P` wants it. -/
theorem Each.effect (h : Each P s) (hnew : ∀ u image, P s.holder u .unborn (s.threads u).code →
      P s.holder u .alive (loadCode image))
    (hx : s.expand t i choice = some code) : Each P (s.effect t i choice) := by
  unfold KState.effect
  split
  · split
    · exact h.setPage
    · exact h
  · exact h.setPage
  · next u image =>
    have hu : (s.threads u).status = .unborn := by
      simp only [expand] at hx
      split at hx
      · assumption
      · cases hx
    exact h.set (hnew u image (hu ▸ h u))
  · exact h

/-- An instruction changes neither the status nor the code of the thread itself. -/
theorem effect_threads
    (ht : (s.threads t).status ≠ .unborn) (hx : s.expand t i choice = some code) :
    ((s.effect t i choice).threads t).status = (s.threads t).status ∧
      ((s.effect t i choice).threads t).code = (s.threads t).code := by
  unfold KState.effect
  split
  · split
    · simp only [KState.setPage, KState.set]
      split <;> simp_all
    · exact ⟨rfl, rfl⟩
  · simp [KState.setPage, KState.set]
  · next u image =>
    have hu : t ≠ u := by
      rintro rfl
      simp [expand, ht] at hx
    simp [KState.set, hu]
  · exact ⟨rfl, rfl⟩

end Each

/-- The code with which a thread begins, in user mode or when it is created. -/
inductive Entered : List Instr → Prop where
  | call (esp args : Nat) (call : Call) : Entered (handlerCode esp args call)
  | access (addr : Nat) (write : Bool) : Entered [.touch addr write]
  | load (image : Image) : Entered (loadCode image)

/-- An instruction that may end the process. -/
inductive Kills (s : KState) (t : Nat) : Instr → Prop where
  | check (addr : Nat) : Kills s t (.check addr)
  | touch {addr : Nat} {write : Bool} (h : s.badAccess t addr write = true) :
      Kills s t (.touch addr write)
  | die : Kills s t .die

/-- What is to be shown of a property of each thread for it to be an invariant of the runs whose
actions meet `C`. -/
structure Preserved (P : (KLock → Option Nat) → Nat → Status → List Instr → Prop)
    (C : KState → Act → Prop) : Prop where
  unborn : ∀ {holder t code}, P holder t .unborn code → code = []
  freed : ∀ {holder t}, P holder t .dying [] → P holder t .freed []
  start : ∀ {holder t status code}, P holder t status [] → status = .alive ∨ status = .unborn →
    Entered code → P holder t .alive code
  crash : ∀ {holder t}, P holder t .alive [] → ∀ files entries,
    P holder t .dying (exitCode files entries)
  /-- The locks of the other threads do not matter. -/
  congr : ∀ {holder holder' t status code}, P holder t status code →
    (∀ l, holder' l = some t ↔ holder l = some t) → P holder' t status code
  acquire : ∀ {s : KState} {t status l rest}, P s.holder t status (.acquire l :: rest) →
    s.holder l = none → P (s.setHolder l (some t)).holder t status rest
  release : ∀ {s : KState} {t status l rest}, P s.holder t status (.release l :: rest) →
    s.holder l = some t → P (s.setHolder l none).holder t status rest
  kill : ∀ {s t status i rest files entries}, P s.holder t status (i :: rest) →
    (s.threads t).code = i :: rest → C s (.run t (.kill files entries)) → Kills s t i →
    P s.holder t .dying (exitCode files entries)
  expand : ∀ {s t status i rest choice code}, P s.holder t status (i :: rest) →
    (s.threads t).code = i :: rest → C s (.run t choice) → Expansion s t i choice code →
    P s.holder t status (code ++ rest)

namespace Preserved

variable {P : (KLock → Option Nat) → Nat → Status → List Instr → Prop} {C : KState → Act → Prop}
  {s s' : KState} {t : Nat} {rest : List Instr} (hP : Preserved P C)

include hP

/-- **One instruction.** -/
theorem exec (h : Each P s) (hcode : (s.threads t).code = i :: rest) (hC : C s (.run t choice))
    (hs : s.exec t i rest choice = some s') : Each P s' := by
  have ht := h t
  rw [hcode] at ht
  have hborn : (s.threads t).status ≠ .unborn := by
    intro hu
    rw [hu] at ht
    cases hP.unborn ht
  unfold KState.exec at hs
  split at hs
  · split at hs <;> cases hs
    next l hl =>
    refine h.setHolder_goto (fun u _ _ hu hk ↦ hP.congr hk fun k ↦ ?_) (hP.acquire ht hl)
    by_cases hkl : k = l <;> simp [setHolder, hkl, hl, hu.symm]
  · split at hs <;> cases hs
    next l hl =>
    refine h.setHolder_goto (fun u _ _ hu hk ↦ hP.congr hk fun k ↦ ?_) (hP.release ht hl)
    by_cases hkl : k = l <;> simp [setHolder, hkl, hl, hu.symm]
  · cases hs
    exact h.set (hP.kill ht hcode hC (.check _))
  · split at hs <;> cases hs
    next hbad => exact h.set (hP.kill ht hcode hC (.touch hbad))
  · cases hs
    exact h.set (hP.kill ht hcode hC .die)
  · obtain ⟨code, hx, rfl⟩ := Option.map_eq_some_iff.mp hs
    refine (h.effect (fun u image hu ↦ ?_) hx).goto ?_
    · have hnil := hP.unborn hu
      rw [hnil] at hu
      exact hP.start hu (.inr rfl) (.load image)
    · rw [(effect_threads hborn hx).1, effect_holder]
      exact hP.expand ht hcode hC (expansion_of_expand hx)

theorem step {a : Act} (h : Each P s) (hC : C s a) (hs : s.step a = some s') : Each P s' := by
  cases a with
  | call t _ _ _ | access t _ _ =>
    simp only [KState.step] at hs
    split at hs <;> cases hs
    next hidle =>
    have ht := h t
    rw [hidle.1, hidle.2] at ht
    refine h.goto ?_
    rw [hidle.1]
    exact hP.start ht (.inl rfl) (by constructor)
  | crash t files entries =>
    simp only [KState.step] at hs
    split at hs <;> cases hs
    next hidle =>
    have ht := h t
    rw [hidle.1, hidle.2] at ht
    exact h.set (hP.crash ht files entries)
  | run t choice =>
    simp only [KState.step] at hs
    split at hs
    · next hcode => exact hP.exec h hcode hC hs
    · cases hs
  | free t =>
    simp only [KState.step] at hs
    split at hs <;> cases hs
    next hidle =>
    have ht := h t
    rw [hidle.1, hidle.2] at ht
    refine h.set ?_
    rw [hidle.2]
    exact hP.freed ht

end Preserved

end KState

end Pintos
