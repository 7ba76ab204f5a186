import Pintos.Logic.Run
import Pintos.Kernel.Bitmap
import Pintos.Kernel.FixedPoint

/-!
# Threads

`threads/thread.c` and `threads/synch.c`, with the system calls that start a process and wait for
it.

A thread that is inside one of these functions has a list of `Frame`s, the innermost one first: what
it will do when it goes on.  Every frame is a piece of code that runs with interrupts off, or a
single access to shared memory, so that another thread can run between any two of them.  What a
thread does to the list of its children, and `init_thread` with its `list_push_back` to `all_list`,
is one step too, although interrupts are on there.  When a thread has no frame left, it is outside
these functions, and calls any of them.

The scheduler is deterministic (`Sched.step`).  What does not depend on its choices is proved for a
scheduler that may choose any thread that is ready, at any time (`Sched.freeStep`).

A `struct thread` is a number here, and its members are functions of that number.  The lists that
`elem` may be in are one function too (`Sched.queue`).  Threads and calls of `cond_wait` are
numbered in the order they come up, and the numbers are not used again.
-/

set_option autoImplicit false

namespace Pintos

open Function

/-! ## The data -/

/-- `enum thread_status`, and `gone` where there is no `struct thread` (any more). -/
inductive ThreadStatus where
  | gone
  | running
  | ready
  | blocked
  | dying
  deriving DecidableEq, Repr

/-- `tid_lock`, and the locks of the threads. -/
inductive LockId where
  | tid
  | lock (n : Nat)
  deriving DecidableEq, Repr

/-- The semaphores. -/
inductive SemaId where
  /-- `start_idle` of `thread_start`. -/
  | startIdle
  | sema (n : Nat)
  /-- The semaphore of a lock. -/
  | lock (l : LockId)
  /-- The semaphore of a call of `cond_wait`. -/
  | waiter (call : Nat)
  /-- `sema_wait` of a thread. -/
  | wait (t : Nat)
  /-- `sema_load` of a thread. -/
  | load (t : Nat)
  /-- `sema_elim` of a thread. -/
  | elim (t : Nat)
  deriving DecidableEq, Repr

/-- The `struct thread` that a semaphore is a member of. -/
def SemaId.owner : SemaId → Option Nat
  | .wait t | .load t | .elim t => some t
  | .startIdle | .sema _ | .lock _ | .waiter _ => none

/-- Where a thread that is not running may be. -/
inductive Queue where
  /-- `ready_list`. -/
  | ready
  /-- `sleeping_list`. -/
  | sleeping
  /-- `waiters` of a semaphore. -/
  | waiters (σ : SemaId)
  /-- In no list: blocked by `thread_block` itself, as in `devices/intq.c`. -/
  | parked
  /-- Made by `init_thread`, and not yet unblocked by `thread_create`. -/
  | embryo
  deriving DecidableEq, Repr

/-- The function that a new thread executes. -/
inductive Entry where
  | thread
  /-- `start_process`, with the result of `load`. -/
  | process (success : Bool)
  deriving DecidableEq, Repr

/-- What a thread does next in the functions it is in. -/
inductive Frame where
  /-- `thread_yield`. -/
  | yield
  /-- `thread_block`. -/
  | block
  /-- `thread_unblock`, called by a thread itself. -/
  | unblock (t : Nat)
  /-- The store of `thread_set_priority`. -/
  | setPriority (newPriority : Int)
  /-- `thread_set_nice`. -/
  | setNice (nice : Int)
  /-- `thread_sleep`. -/
  | sleep (wakeUpTick : Int)
  /-- The loop of `sema_down`, when it is entered. -/
  | down (σ : SemaId)
  /-- The loop of `sema_down`, after `thread_block`: interrupts are still off. -/
  | redown (σ : SemaId)
  /-- `sema_try_down`. -/
  | tryDown (σ : SemaId)
  /-- `sema_up`, up to `thread_yield`. -/
  | up (σ : SemaId)
  /-- `lock_acquire`, up to `sema_down`. -/
  | acquire (l : LockId)
  /-- `lock->holder = thread_current ()`. -/
  | holder (l : LockId)
  /-- `lock_try_acquire`, up to the store to `holder`. -/
  | tryAcquire (l : LockId)
  /-- `lock_release`, up to `sema_up`. -/
  | release (l : LockId)
  /-- `cond_wait`, up to `lock_release`. -/
  | condWait (c : Nat)
  /-- `cond_signal`, up to `sema_up`. -/
  | condSignal (c : Nat)
  /-- The loop of `cond_broadcast`. -/
  | condBroadcast (c : Nat)
  /-- `init_thread`, called by `syscall_exec` if `exec` is true. -/
  | initThread (priority : Int) (entry : Entry) (exec : Bool)
  /-- `tid = next_tid++` in `allocate_tid`. -/
  | allocateTid (t : Nat) (exec : Bool)
  /-- `list_push_back` in `thread_create`. -/
  | addChild (t : Nat)
  /-- `thread_unblock` in `thread_create`. -/
  | launch (t : Nat)
  /-- `thread_get_child` in `syscall_exec`. -/
  | execGetChild (tid : Int)
  /-- The read of `is_loaded` in `syscall_exec`. -/
  | execRead (child : Nat)
  /-- `thread_get_child` in `process_wait`. -/
  | waitGetChild (tid : Int)
  /-- `list_remove` in `process_wait`. -/
  | removeChild (child : Nat)
  /-- The read of `exit_status` in `process_wait`. -/
  | readStatus (child : Nat)
  /-- `start_process`, up to `sema_up`. -/
  | startProcess (success : Bool)
  /-- The loop of `thread_exit`. -/
  | exitLoop
  /-- The end of `thread_exit`. -/
  | die
  deriving DecidableEq, Repr

/-- What a new thread begins with. -/
def Entry.code : Entry → List Frame
  | .thread => []
  | .process success => [.startProcess success]

instance neZeroLevels : NeZero 64 := ⟨by decide⟩

/-- The calls of a thread. -/
inductive ThreadCall where
  /-- `thread_create`; `memory` says whether there is a page. -/
  | create (memory : Bool) (priority : Fin 64) (entry : Entry)
  /-- `syscall_exec`; `success` is the result of `load`. -/
  | exec (memory success : Bool)
  /-- `process_wait`. -/
  | wait (tid : Int32)
  | exit
  | block
  | unblock (t : Nat)
  | yield
  | setPriority (newPriority : Int32)
  | setNice (nice : Int32)
  | sleep (wakeUpTick : Int)
  | semaDown (n : Nat)
  | semaTryDown (n : Nat)
  | semaUp (n : Nat)
  | lockAcquire (n : Nat)
  | lockTryAcquire (n : Nat)
  | lockRelease (n : Nat)
  | condWait (c : Nat)
  | condSignal (c : Nat)
  | condBroadcast (c : Nat)
  deriving DecidableEq, Repr

/-- What a frame ends with. -/
inductive Request where
  | stay
  /-- `thread_unblock`. -/
  | unblock (t : Nat)
  /-- `thread_yield`. -/
  | yield
  /-- `thread_block`. -/
  | block
  /-- The thread is dying: `schedule`. -/
  | exit
  deriving DecidableEq, Repr

abbrev priMin : Int := 0
abbrev priDefault : Int := 31
abbrev priMax : Int := 63

/-- `TIME_SLICE`. -/
abbrev timeSlice : Nat := 4

/-- `TIMER_FREQ`. -/
abbrev timerFreq : Nat := 100

/-- What a call begins with. -/
def ThreadCall.code : ThreadCall → List Frame
  | .create memory priority entry => if memory then [.initThread priority.val entry false] else []
  | .exec memory success => if memory then [.initThread priDefault (.process success) true] else []
  | .wait tid => [.waitGetChild tid.toInt]
  | .exit => [.exitLoop]
  | .block => [.block]
  | .unblock t => [.unblock t]
  | .yield => [.yield]
  | .setPriority newPriority => [.setPriority newPriority.toInt, .yield]
  | .setNice nice => [.setNice nice.toInt]
  | .sleep wakeUpTick => [.sleep wakeUpTick]
  | .semaDown n => [.down (.sema n)]
  | .semaTryDown n => [.tryDown (.sema n)]
  | .semaUp n => [.up (.sema n)]
  | .lockAcquire n => [.acquire (.lock n)]
  | .lockTryAcquire n => [.tryAcquire (.lock n)]
  | .lockRelease n => [.release (.lock n)]
  | .condWait c => [.condWait c]
  | .condSignal c => [.condSignal c]
  | .condBroadcast c => [.condBroadcast c]

/-- How the kernel is built and started, and which lock goes with a condition variable. -/
structure Config where
  /-- `USERPROG`. -/
  userprog : Bool
  /-- `thread_mlfqs`. -/
  mlfqs : Bool
  /-- `thread_prior_aging`. -/
  aging : Bool
  lockOf : Nat → Nat

/-- `initial_thread`. -/
abbrev initialThread : Nat := 0

/-- `idle_thread`. -/
abbrev idleThread : Nat := 1

/-- What the scheduler does not touch. -/
structure Data where
  /-- The frames of a thread. -/
  code : Nat → List Frame
  tid : Nat → Int
  childTlist : Nat → List Nat
  /-- The number of the next thread. -/
  next : Nat
  nextTid : Int
  value : SemaId → Nat
  holder : LockId → Option Nat
  /-- `waiters` of a condition variable: the calls of `cond_wait`. -/
  cond : Nat → List Nat
  /-- The number of the next call of `cond_wait`. -/
  nextCall : Nat
  /-- Recorded: how often a semaphore has been raised. -/
  ups : SemaId → Nat
  /-- Recorded: how often a semaphore has been lowered. -/
  downs : SemaId → Nat
  /-- Recorded: a thread has acquired the lock and not begun to release it. -/
  has : LockId → Nat → Bool
  /-- Recorded: the thread that has called `cond_wait`. -/
  caller : Nat → Nat
  /-- Recorded: who created a thread. -/
  parent : Nat → Option Nat
  /-- Recorded: the threads that have been taken off the list of their parent. -/
  removed : List Nat
  /-- Recorded: the condition variable of a call of `cond_wait`. -/
  callOn : Nat → Nat
  /-- Recorded: the calls of `cond_wait` on a condition variable that have been signalled, the last
  one first. -/
  signalled : Nat → List Nat

/-- The threads. -/
structure Sched extends Data where
  status : Nat → ThreadStatus
  priority : Nat → Int
  nice : Nat → Int
  recentCpu : Nat → Int
  wakeUpTick : Nat → Int
  /-- The thread whose stack is in use. -/
  running : Nat
  queue : Queue → List Nat
  allList : List Nat
  ticks : Nat
  threadTicks : Nat
  agingTicks : Nat
  loadAvg : Int
  /-- Recorded: when a thread was put into the list it is in. -/
  stamp : Nat → Nat
  clock : Nat

namespace Sched

/-! ## Lists -/

section

variable (s : Sched)

/-- `cmp_priority_thread`. -/
def cmpPriorityThread (a b : Nat) : Bool := s.priority b < s.priority a

/-- `cmp_sleeping_thread`. -/
def cmpSleepingThread (a b : Nat) : Bool := s.wakeUpTick a < s.wakeUpTick b

/-- The function that a list is ordered by. -/
def less : Queue → Nat → Nat → Bool
  | .ready | .waiters _ => s.cmpPriorityThread
  | .sleeping => s.cmpSleepingThread
  | .parked | .embryo => fun _ _ ↦ true

/-- `list_insert_ordered`. -/
def insert (q : Queue) (t : Nat) : Sched :=
  { s with
    queue := update s.queue q ((s.queue q).orderedInsert (fun a b ↦ s.less q a b) t)
    stamp := update s.stamp t s.clock
    clock := s.clock + 1 }

/-- A thread leaves a list. -/
def remove (q : Queue) (t : Nat) : Sched :=
  { s with queue := update s.queue q ((s.queue q).erase t) }

/-- A thread has more to do before what it has to do. -/
def push (t : Nat) (frames : List Frame) : Sched :=
  { s with code := update s.code t (frames ++ s.code t) }

/-- The running thread takes up its next frame. -/
def pop : Sched :=
  { s with code := update s.code s.running (s.code s.running).tail }

@[simp]
theorem queue_insert (q : Queue) (t : Nat) : (s.insert q t).queue =
    update s.queue q ((s.queue q).orderedInsert (fun a b ↦ s.less q a b) t) := rfl

@[simp]
theorem queue_remove (q : Queue) (t : Nat) :
    (s.remove q t).queue = update s.queue q ((s.queue q).erase t) := rfl

@[simp]
theorem code_push (t : Nat) (frames : List Frame) :
    (s.push t frames).code = update s.code t (frames ++ s.code t) := rfl

@[simp]
theorem code_pop : s.pop.code = update s.code s.running (s.code s.running).tail := rfl

/-! ## Scheduling -/

def setStatus (t : Nat) (status : ThreadStatus) : Sched :=
  { s with status := update s.status t status }

/-- `thread_unblock`. -/
def threadUnblock (t : Nat) : Kernel Sched := do
  assert (s.status t = .blocked)
  return (s.insert .ready t).setStatus t .ready

/-- `next_thread_to_run`, or any thread that is ready. -/
def nextThreadToRun (pick : Option Nat) : Nat × Sched :=
  match pick with
  | some t => if t ∈ s.queue .ready then (t, s.remove .ready t) else next
  | none => next
where
  next : Nat × Sched :=
    match s.queue .ready with
    | [] => (idleThread, s)
    | t :: _ => (t, s.remove .ready t)

/-- `switch_threads`, and what `thread_schedule_tail` does first. -/
def switchTo (next : Nat) : Sched :=
  { s.setStatus next .running with running := next, threadTicks := 0 }

/-- The end of `thread_schedule_tail`: `prev` is freed if it is dying. -/
def threadScheduleTail (prev : Nat) : Sched :=
  if prev ≠ s.running ∧ s.status prev = .dying ∧ prev ≠ initialThread then s.setStatus prev .gone
  else s

/-- `schedule`. -/
def schedule (pick : Option Nat) : Kernel Sched := do
  let cur := s.running
  let (next, s) := s.nextThreadToRun pick
  assert (s.status cur ≠ .running)
  assert (s.status next ≠ .gone)
  return (s.switchTo next).threadScheduleTail cur

/-- `thread_block`. -/
def threadBlock (pick : Option Nat) : Kernel Sched := (s.setStatus s.running .blocked).schedule pick

/-- `thread_yield`. -/
def threadYield (pick : Option Nat) : Kernel Sched :=
  let cur := s.running
  let s := if cur = idleThread then s else s.insert .ready cur
  (s.setStatus cur .ready).schedule pick

/-- What is asked of the scheduler. -/
def perform (pick : Option Nat) : Request → Kernel Sched
  | .stay => some s
  | .unblock t => s.threadUnblock t
  | .yield => s.threadYield pick
  | .block => s.threadBlock pick
  | .exit => (s.setStatus s.running .dying).schedule pick

/-- The loop of `thread_wake_up`, over what is left of `sleeping_list`. -/
def wakeUpLoop (nowTick : Int) : List Nat → Sched → Kernel Sched
  | [], s => some s
  | t :: rest, s =>
    if nowTick < s.wakeUpTick t then some s
    else do
      let s ← (s.remove .sleeping t).threadUnblock t
      wakeUpLoop nowTick rest s

/-- `thread_wake_up`. -/
def threadWakeUp (nowTick : Int) : Kernel Sched := wakeUpLoop nowTick (s.queue .sleeping) s

/-! ## Semaphores -/

/-- The semaphore is not part of a `struct thread` that is gone. -/
def live (σ : SemaId) : Bool := σ.owner.all fun t ↦ s.status t ≠ .gone

/-- `sema->value--`. -/
def lower (σ : SemaId) : Sched :=
  { s with
    value := update s.value σ (s.value σ - 1)
    downs := update s.downs σ (s.downs σ + 1) }

/-- `sema->value++`. -/
def raise (σ : SemaId) : Sched :=
  { s with
    value := update s.value σ ((s.value σ + 1) % 2 ^ 32)
    ups := update s.ups σ (s.ups σ + 1) }

/-- The loop of `sema_down`: the thread goes on, or blocks. -/
def semaDown (cur : Nat) (σ : SemaId) : Request × Sched :=
  if s.value σ = 0 then (.block, (s.push cur [.redown σ]).insert (.waiters σ) cur)
  else (.stay, s.lower σ)

/-- `sema_up`, without `thread_yield`: a thread that waits is unblocked. -/
def semaUp (σ : SemaId) : Request × Sched :=
  match s.queue (.waiters σ) with
  | [] => (.stay, s.raise σ)
  | t :: _ => (.unblock t, (s.remove (.waiters σ) t).raise σ)

/-! ## Children -/

/-- `thread_get_child`. -/
def threadGetChild (cur : Nat) (tid : Int) : Option Nat :=
  (s.childTlist cur).find? fun c ↦ s.tid c = tid

/-- `init_thread`, of the next thread. -/
def initThread (priority : Int) (entry : Entry) : Sched :=
  let t := s.next
  { s.insert .embryo t with
    status := update s.status t .blocked
    priority := update s.priority t priority
    nice := update s.nice t (s.nice s.running)
    recentCpu := update s.recentCpu t (s.recentCpu s.running)
    childTlist := update s.childTlist t []
    code := update s.code t entry.code
    allList := s.allList ++ [t]
    next := t + 1
    parent := update s.parent t (some s.running) }

end

/-! ## The timer -/

/-- `g` with `f` applied to its value for each thread of a list. -/
def forEach (f : Nat → Int → Int) (l : List Nat) (g : Nat → Int) : Nat → Int :=
  l.foldl (fun g t ↦ update g t (f t (g t))) g

/-- The priority of a ready thread after `thread_aging`. -/
def aged (priority : Int) : Int := min (int32 (priority + 1)) priMax

/-- The value that `recent_cpu` decays to. -/
def decayed (doubleLoadAvg recentCpu nice : Int) : Int :=
  addFp (mulFp (divFp doubleLoadAvg (addFp doubleLoadAvg (intToFp 1))) recentCpu) (intToFp nice)

/-- The priority that is calculated from `recent_cpu` and `nice`. -/
def calculatedPriority (recentCpu nice : Int) : Int :=
  let priority := subFp (intToFp priMax) (divFp recentCpu (intToFp 4))
  let priority := subFp priority (intToFp (int32 (nice * 2)))
  let priority := fpToIntRoundOff priority
  max (min priority priMax) priMin

section

variable (cfg : Config) (s : Sched)

/-- The calculation of `load_avg` and `recent_cpu` in `thread_tick`, once a second. -/
def everySecond : Sched :=
  let readyThreads := s.allList.countP fun t ↦
    t ≠ idleThread && (s.status t = .ready || s.status t = .running)
  let loadAvg := mulFp (divFp (intToFp 59) (intToFp 60)) s.loadAvg
  let loadAvg := addFp loadAvg (mulFp (divFp (intToFp 1) (intToFp 60)) (intToFp readyThreads))
  let doubleLoadAvg := mulFp loadAvg (intToFp 2)
  { s with
    loadAvg
    recentCpu := forEach (fun t r ↦ decayed doubleLoadAvg r (s.nice t)) s.allList s.recentCpu }

/-- The calculation of the priorities in `thread_tick`, once a time slice. -/
def everySlice : Sched :=
  { s with priority :=
      forEach (fun t _ ↦ calculatedPriority (s.recentCpu t) (s.nice t)) s.allList s.priority }

/-- The part of `thread_tick` for `thread_mlfqs`. -/
def mlfqsTick : Sched :=
  let cur := s.running
  let s := if cur = idleThread then s
    else { s with
      recentCpu := update s.recentCpu cur (addFp (s.recentCpu cur) (intToFp 1)) }
  let s := if s.ticks % timerFreq = 0 then s.everySecond else s
  if s.ticks % timeSlice = 0 then s.everySlice else s

/-- `thread_aging`. -/
def threadAging : Sched :=
  if s.agingTicks + 1 = timeSlice * 100 then
    { s with
      priority := forEach (fun _ p ↦ aged p) (s.queue .ready) s.priority
      agingTicks := 0 }
  else { s with agingTicks := s.agingTicks + 1 }

/-- `thread_tick`; the result says whether `intr_yield_on_return` has been called. -/
def threadTick : Bool × Sched :=
  let s := if cfg.mlfqs then s.mlfqsTick else s
  let s := { s with threadTicks := s.threadTicks + 1 }
  let yield := decide (timeSlice ≤ s.threadTicks)
  (yield, if !cfg.userprog && cfg.aging then s.threadAging else s)

/-- `timer_interrupt`, and the end of `intr_handler`. -/
def timerInterrupt (pick : Option Nat) : Kernel Sched := do
  let s := { s with ticks := s.ticks + 1 }
  assert (s.status s.running = .running)
  let (yield, s) := s.threadTick cfg
  let s ← s.threadWakeUp s.ticks
  if yield then s.threadYield pick else return s

/-! ## Steps -/

/-- No thread of a list is gone. -/
def present (threads : List Nat) : Bool := threads.all fun t ↦ s.status t ≠ .gone

/-- The assertions of a frame hold, and it does not go through a pointer to a thread that is gone,
nor through a null pointer. -/
def safe (cur : Nat) : Frame → Bool
  | .down σ | .redown σ | .up σ => s.live σ
  | .acquire l | .tryAcquire l => s.holder l ≠ some cur
  | .release l => s.holder l = some cur
  | .condWait c | .condSignal c => s.holder (.lock (cfg.lockOf c)) = some cur
  | .addChild _ | .waitGetChild _ | .exitLoop => s.present (s.childTlist cur)
  | .execGetChild tid => s.present (s.childTlist cur) && (s.threadGetChild cur tid).isSome
  | .execRead child | .readStatus child => s.status child ≠ .gone
  | .removeChild child => s.present (s.childTlist cur) && child ∈ s.childTlist cur
  | _ => true

/-- What the running thread, with number `cur`, does in a frame, and what it asks of the scheduler
then. -/
def effect (cur : Nat) : Frame → Request × Sched
  | .yield => (.yield, s)
  | .block => (.block, if cur = idleThread then s else s.insert .parked cur)
  | .unblock t => (.unblock t, s.remove .parked t)
  | .setPriority newPriority =>
    (.stay, { s with priority := update s.priority cur newPriority })
  | .setNice nice => (.stay, { s with nice := update s.nice cur nice })
  | .sleep wakeUpTick =>
    (.block,
      { s with wakeUpTick := update s.wakeUpTick cur wakeUpTick }.insert .sleeping cur)
  | .down σ | .redown σ => s.semaDown cur σ
  | .tryDown σ => (.stay, if 0 < s.value σ then s.lower σ else s)
  | .up σ =>
    let (request, s) := s.semaUp σ
    (request, s.push cur (if cfg.userprog then [] else [.yield]))
  | .acquire l => (.stay, s.push cur [.down (.lock l), .holder l])
  | .holder l =>
    (.stay, { s with
      holder := update s.holder l (some cur)
      has := update s.has l (update (s.has l) cur true) })
  | .tryAcquire l =>
    (.stay, if 0 < s.value (.lock l) then (s.lower (.lock l)).push cur [.holder l] else s)
  | .release l =>
    (.stay, { s.push cur [.up (.lock l)] with
      holder := update s.holder l none
      has := update s.has l (update (s.has l) cur false) })
  | .condWait c =>
    let l := .lock (cfg.lockOf c)
    let call := s.nextCall
    (.stay, { s.push cur [.release l, .down (.waiter call), .acquire l] with
      cond := update s.cond c (s.cond c ++ [call])
      nextCall := call + 1
      caller := update s.caller call cur
      callOn := update s.callOn call c })
  | .condSignal c =>
    (.stay, match s.cond c with
      | [] => s
      | call :: rest =>
        { s.push cur [.up (.waiter call)] with
          cond := update s.cond c rest
          signalled := update s.signalled c (call :: s.signalled c) })
  | .condBroadcast c =>
    (.stay, if s.cond c = [] then s else s.push cur [.condSignal c, .condBroadcast c])
  | .initThread priority entry exec =>
    (.stay, (s.initThread priority entry).push cur [.acquire .tid, .allocateTid s.next exec])
  | .allocateTid t exec =>
    let tid := s.nextTid
    (.stay, { s with
      tid := update s.tid t tid
      nextTid := int32 (tid + 1) }.push cur (.release .tid :: .addChild t :: .launch t :: .yield ::
        if exec && tid ≠ -1 then [.execGetChild tid] else []))
  | .addChild t =>
    (.stay, { s with childTlist := update s.childTlist cur (s.childTlist cur ++ [t]) })
  | .launch t => (.unblock t, s.remove .embryo t)
  | .execGetChild tid =>
    (.stay, match s.threadGetChild cur tid with
      | none => s
      | some child => s.push cur [.down (.load child), .execRead child])
  | .waitGetChild tid =>
    (.stay, match s.threadGetChild cur tid with
      | none => s
      | some child => s.push cur [.down (.wait child), .removeChild child, .readStatus child,
        .up (.elim child)])
  | .removeChild child =>
    (.stay, { s with
      childTlist := update s.childTlist cur ((s.childTlist cur).erase child)
      removed := child :: s.removed })
  | .execRead _ | .readStatus _ => (.stay, s)
  | .startProcess success =>
    (.stay, s.push cur (.up (.load cur) :: if success then [] else [.exitLoop]))
  | .exitLoop =>
    (.stay, match s.childTlist cur with
      | child :: rest =>
        { s.push cur [.up (.elim child), .exitLoop] with
          childTlist := update s.childTlist cur rest
          removed := child :: s.removed }
      | [] => s.push cur [.up (.wait cur), .down (.elim cur), .die])
  | .die => (.exit, { s with allList := s.allList.erase cur })

/-- A frame, and what it asks of the scheduler. -/
def exec (cur : Nat) (f : Frame) : Kernel (Request × Sched) := do
  assert (s.safe cfg cur f)
  return s.effect cfg cur f

/-- The running thread goes on with `f`. -/
abbrev Next (f : Frame) : Prop := (s.code s.running).head? = some f

/-- Interrupts are off between two steps. -/
def intrOff : Bool :=
  match s.code s.running with
  | .redown _ :: _ => true
  | _ => false

end

/-- What happens to the running thread. -/
inductive Event where
  /-- It calls a function. -/
  | call (c : ThreadCall)
  /-- It goes on in the function it is in. -/
  | go
  /-- It is interrupted by the timer. -/
  | timer
  deriving DecidableEq, Repr

/-- One event, with the choice of the scheduler.  Only a failed assertion, or an access to a thread
that is gone, has no result: what cannot happen does nothing. -/
def react (cfg : Config) (s : Sched) (pick : Option Nat) : Event → Option Sched
  | .call c =>
    if s.code s.running = [] ∧ (s.running = idleThread → c = .block) then
      some (s.push s.running c.code)
    else some s
  | .go =>
    match s.code s.running with
    | [] => some s
    | frame :: _ => do
      assert (s.status s.running = .running)
      let (request, s) ← s.pop.exec cfg s.running frame
      s.perform pick request
  | .timer => if s.intrOff then some s else s.timerInterrupt cfg pick

/-- One event, with the scheduler as it is. -/
def step (cfg : Config) (s : Sched) (e : Event) : Option Sched := s.react cfg none e

/-- What may happen with a scheduler that chooses any thread at any time. -/
inductive FreeAct where
  | event (e : Event) (pick : Option Nat)
  | preempt (pick : Option Nat)
  deriving DecidableEq, Repr

/-- One step with a scheduler that chooses any thread at any time. -/
def freeStep (cfg : Config) (s : Sched) : FreeAct → Option Sched
  | .event e pick => s.react cfg pick e
  | .preempt pick => if s.intrOff then some s else s.threadYield pick

/-- `idle_thread` has just been set: the idle thread is about to raise `start_idle`, for which the
main thread waits in `thread_start`. -/
def boot (value : Nat → Nat) : Sched where
  status t := if t = initialThread then .blocked else if t = idleThread then .running else .gone
  priority t := if t = initialThread then priDefault else priMin
  nice _ := 0
  recentCpu _ := 0
  wakeUpTick _ := 0
  tid t := if t = initialThread then 1 else if t = idleThread then 2 else 0
  childTlist t := if t = initialThread then [idleThread] else []
  code t := if t = initialThread then [.redown .startIdle]
    else if t = idleThread then [.up .startIdle] else []
  running := idleThread
  queue q := if q = .waiters .startIdle then [initialThread] else []
  allList := [initialThread, idleThread]
  next := 2
  nextTid := 3
  ticks := 0
  threadTicks := 0
  agingTicks := 0
  loadAvg := 0
  value σ := match σ with
    | .sema n => value n
    | .lock _ => 1
    | _ => 0
  holder _ := none
  cond _ := []
  nextCall := 0
  ups _ := 0
  downs _ := 0
  has _ _ := false
  caller _ := 0
  parent t := if t = idleThread then some initialThread else none
  removed := []
  callOn _ := 0
  signalled _ := []
  stamp _ := 0
  clock := 1

end Sched

end Pintos
