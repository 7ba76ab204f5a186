import Pintos.Kernel.Bitmap
import Pintos.Logic.Run

/-!
# Interrupt queues

`devices/intq.c`.  A queue is a circular buffer of 64 bytes that kernel threads share with interrupt
handlers.  A thread that finds it empty, or full, sleeps until that has changed; a lock lets one
thread at a time do so.

* `Intq.contents` — the bytes in the queue, in order (`Intq.contents_put`, `Intq.contents_get`).
* `IntqSys` — the queue with its lock and its two slots for waiting threads, and where each thread
  is in the code.  Interrupts are off while a thread is in the code, so that other threads and
  interrupt handlers get their turn only where it sleeps.
* `IntqSys.Sane` — what holds in every run: the lock, the slots and the list of those that sleep for
  the lock say where the threads are.
* `IntqSys.asserts_hold` — no assertion fails, as long as no thread has to sleep for the lock.
  If one has to, the condition that it waits for may be there by the time it gets the lock, and the
  assertion in `wait` fails (`IntqSys.wait_fails`).
* `IntqSys.queue_is_fifo` — calls that need not wait return the bytes in the order they were put in.
-/

set_option autoImplicit false

namespace Pintos

open Function List Option

/-! ## The circular buffer -/

/-- `INTQ_BUFSIZE`. -/
abbrev intqBufsize : Nat := 64

/-- The buffer of a `struct intq`, and the positions in it. -/
structure Intq where
  buf : Fin intqBufsize → UInt8
  head : Fin intqBufsize
  tail : Fin intqBufsize

namespace Intq

/-- The position `i` bytes behind another one. -/
def pos (p : Fin intqBufsize) (i : Nat) : Fin intqBufsize :=
  ⟨(p + i) % intqBufsize, Nat.mod_lt _ (by decide)⟩

/-- `next`. -/
def next (p : Fin intqBufsize) : Fin intqBufsize := pos p 1

/-- `intq_empty`. -/
def empty (q : Intq) : Bool := q.head = q.tail

/-- `intq_full`. -/
def full (q : Intq) : Bool := next q.head = q.tail

/-- A byte is added, in `intq_putc`. -/
def put (q : Intq) (byte : UInt8) : Intq :=
  { q with buf := update q.buf q.head byte, head := next q.head }

/-- A byte is removed, in `intq_getc`. -/
def get (q : Intq) : UInt8 × Intq := (q.buf q.tail, { q with tail := next q.tail })

/-- The number of bytes in the queue. -/
def count (q : Intq) : Nat := (intqBufsize + q.head - q.tail) % intqBufsize

/-- The bytes in the queue, in the order in which they have been added. -/
def contents (q : Intq) : List UInt8 := (List.range q.count).map fun i ↦ q.buf (pos q.tail i)

variable {q : Intq}

theorem lt_bufsize (q : Intq) : q.head.val < 64 ∧ q.tail.val < 64 := ⟨q.head.isLt, q.tail.isLt⟩

theorem empty_iff : q.empty = true ↔ q.contents = [] := by
  have hlt := q.lt_bufsize
  simp only [empty, contents, count, decide_eq_true_eq, map_eq_nil_iff, range_eq_nil,
    Fin.ext_iff, intqBufsize]
  omega

theorem full_iff : q.full = true ↔ q.count = intqBufsize - 1 := by
  have hlt := q.lt_bufsize
  simp only [full, next, pos, count, decide_eq_true_eq, Fin.ext_iff, intqBufsize]
  omega

theorem contents_put (byte : UInt8) (h : q.full = false) :
    (q.put byte).contents = q.contents ++ [byte] := by
  have hlt := q.lt_bufsize
  have hroom : q.count ≠ intqBufsize - 1 := fun hc ↦ by simp [full_iff.mpr hc] at h
  have hcount : (q.put byte).count = q.count + 1 := by
    simp only [count, put, next, pos, intqBufsize] at hroom ⊢
    omega
  have hlast : pos q.tail q.count = q.head := by
    simp only [pos, count, Fin.ext_iff, intqBufsize]
    omega
  rw [contents, hcount, range_succ, map_append, contents]
  congr 1
  · refine map_congr_left fun i hi ↦ ?_
    have hi := mem_range.mp hi
    have hne : pos q.tail i ≠ q.head := by
      simp only [pos, count, ne_eq, Fin.ext_iff, intqBufsize] at hi ⊢
      omega
    exact update_of_ne hne ..
  · simp only [map_cons, map_nil, put, hlast, update_self]

theorem contents_get (h : q.empty = false) : q.contents = q.get.1 :: q.get.2.contents := by
  have hlt := q.lt_bufsize
  have hne : q.head ≠ q.tail := by simpa [empty] using h
  have hcount : q.count = q.get.2.count + 1 := by
    simp only [count, get, next, pos, ne_eq, Fin.ext_iff, intqBufsize] at hne ⊢
    omega
  rw [contents, hcount, range_succ_eq_map, map_cons, List.map_map]
  congr 1
  · refine congrArg q.buf (Fin.ext ?_)
    simp only [pos, intqBufsize]
    omega
  · refine map_congr_left fun i _ ↦ congrArg q.buf (Fin.ext ?_)
    simp only [pos, get, next, Nat.succ_eq_add_one, intqBufsize]
    omega

theorem length_contents (q : Intq) : q.contents.length = q.count := by simp [contents]

/-- A queue that a byte has been added to is not empty. -/
theorem empty_put (byte : UInt8) (h : q.full = false) : (q.put byte).empty = false := by
  by_contra he
  have hnil := empty_iff.mp (by simpa using he)
  rw [contents_put byte h] at hnil
  simp at hnil

/-- A queue that a byte has been removed from is not full. -/
theorem full_get (h : q.empty = false) : q.get.2.full = false := by
  by_contra hf
  have hcount := full_iff.mp (by simpa using hf)
  have hlength := congrArg List.length (contents_get h)
  have hlt : q.count < intqBufsize := Nat.mod_lt _ (by decide)
  simp only [length_cons, length_contents, intqBufsize] at hlength hcount hlt
  omega

end Intq

/-! ## Threads at the queue -/

/-- A call of a function of the queue. -/
inductive IntqOp where
  /-- `intq_getc`. -/
  | getc
  /-- `intq_putc`. -/
  | putc (byte : UInt8)
  deriving DecidableEq, Repr

/-- The members of `struct intq` for waiting threads. -/
inductive IntqSlot where
  | notFull
  | notEmpty
  deriving DecidableEq, Repr

/-- The condition that a call may have to wait for. -/
def IntqOp.slot : IntqOp → IntqSlot
  | .getc => .notEmpty
  | .putc _ => .notFull

/-- The byte that a call adds. -/
def IntqOp.byte : IntqOp → Option UInt8
  | .getc => none
  | .putc byte => some byte

/-- Where a thread is. -/
inductive IntqPc where
  /-- In no function of the queue. -/
  | idle
  /-- It sleeps in `lock_acquire`. -/
  | acquiring (op : IntqOp)
  /-- It has been woken there. -/
  | woken (op : IntqOp)
  /-- It sleeps in `wait`. -/
  | waiting (op : IntqOp)
  /-- It has been woken there. -/
  | signalled (op : IntqOp)
  /-- It is at the end of `lock_release`, where it may have yielded. -/
  | looping (op : IntqOp)
  deriving DecidableEq, Repr

/-- The thread is not asleep, and has not the lock. -/
def IntqPc.free : IntqPc → Bool
  | .idle | .woken _ | .looping _ => true
  | .acquiring _ | .waiting _ | .signalled _ => false

/-- The call that a thread is in. -/
def IntqPc.op : IntqPc → Option IntqOp
  | .idle => none
  | .acquiring op | .woken op | .waiting op | .signalled op | .looping op => some op

/-- A queue, and the threads that use it. -/
structure IntqSys where
  queue : Intq
  /-- `lock.semaphore.value`. -/
  value : Nat
  /-- `lock.semaphore.waiters`. -/
  waiters : List Nat
  /-- `lock.holder`. -/
  holder : Option Nat
  /-- `not_full` and `not_empty`. -/
  slot : IntqSlot → Option Nat
  pc : Nat → IntqPc
  /-- The byte that the last call of `intq_getc` has returned. -/
  returned : Nat → Option UInt8

variable {s1 : IntqSys} {place : Nat} {byte : UInt8} {pc : IntqPc}

namespace IntqSys

/-- `intq_init`, with no thread in a function of the queue. -/
def intqInit (buf : Fin intqBufsize → UInt8) : IntqSys where
  queue := ⟨buf, 0, 0⟩
  value := 1
  waiters := []
  holder := none
  slot _ := none
  pc _ := .idle
  returned _ := none

def setPc (s : IntqSys) (t : Nat) (pc : IntqPc) : IntqSys :=
  { s with pc := update s.pc t pc }

/-- The condition of the loops in `intq_getc` and `intq_putc`. -/
def mustWait (s : IntqSys) : IntqOp → Bool
  | .getc => s.queue.empty
  | .putc _ => s.queue.full

/-- The condition of a slot is there. -/
def ready (s : IntqSys) : IntqSlot → Bool
  | .notFull => !s.queue.full
  | .notEmpty => !s.queue.empty

/-- `thread_unblock`. -/
def threadUnblock (s : IntqSys) (t : Nat) : Kernel IntqSys :=
  match s.pc t with
  | .acquiring op => some (s.setPc t (.woken op))
  | .waiting op => some (s.setPc t (.signalled op))
  | _ => none

/-- `wait`. -/
def wait (s : IntqSys) (t : Nat) (op : IntqOp) : Kernel IntqSys := do
  assert (s.mustWait op = true)
  return { s with slot := update s.slot op.slot (some t) }.setPc t (.waiting op)

/-- `signal`. -/
def signal (s : IntqSys) (waiter : IntqSlot) : Kernel IntqSys := do
  assert (s.ready waiter = true)
  match s.slot waiter with
  | none => return s
  | some t =>
    let s ← s.threadUnblock t
    return { s with slot := update s.slot waiter none }

/-- The end of `intq_getc`. -/
def getByte (s : IntqSys) : Kernel (UInt8 × IntqSys) := do
  let (byte, queue) := s.queue.get
  let s ← { s with queue }.signal .notFull
  return (byte, s)

/-- The end of `intq_putc`. -/
def putByte (s : IntqSys) (byte : UInt8) : Kernel IntqSys :=
  { s with queue := s.queue.put byte }.signal .notEmpty

/-- The end of a call. -/
def finish (s : IntqSys) (t : Nat) : IntqOp → Kernel IntqSys
  | .getc => do
    let (byte, s) ← s.getByte
    return { s with returned := update s.returned t (some byte) }.setPc t .idle
  | .putc byte => do
    let s ← s.putByte byte
    return s.setPc t .idle

/-- `sema_down`, for the lock, and what follows it.  Where a thread is put among the others that
sleep depends on their priorities. -/
def semaDown (s : IntqSys) (t : Nat) (op : IntqOp) (place : Nat) : Kernel IntqSys :=
  if s.value = 0 then
    some ({ s with waiters := s.waiters.take place ++ t :: s.waiters.drop place }.setPc t
      (.acquiring op))
  else { s with value := s.value - 1, holder := some t }.wait t op

/-- `lock_release`. -/
def lockRelease (s : IntqSys) (t : Nat) : Kernel IntqSys := do
  assert (s.holder = some t)
  let s := { s with holder := none }
  match s.waiters with
  | [] => return { s with value := s.value + 1 }
  | u :: waiters =>
    let s ← { s with waiters }.threadUnblock u
    return { s with value := s.value + 1 }

/-- The test of the loop in `intq_getc` or `intq_putc`, and what follows it. -/
def loop (s : IntqSys) (t : Nat) (op : IntqOp) (place : Nat) : Kernel IntqSys :=
  if s.mustWait op then do
    assert (s.holder ≠ some t)
    s.semaDown t op place
  else s.finish t op

/-- What may happen. -/
inductive Act where
  /-- A thread calls a function of the queue. -/
  | call (t : Nat) (op : IntqOp) (place : Nat)
  /-- A thread goes on in the function it is in, until it sleeps or returns. -/
  | run (t : Nat) (place : Nat)
  /-- An interrupt handler adds a byte, if the queue is not full. -/
  | handlerPut (byte : UInt8)
  /-- An interrupt handler removes a byte, if the queue is not empty. -/
  | handlerGet
  deriving DecidableEq, Repr

/-- One step.  Only a failed assertion has no result: a thread that sleeps, or is in a function of
the queue already, does nothing.  `sema_up` yields unless the kernel is built with `USERPROG`. -/
def step (userprog : Bool) (s : IntqSys) : Act → Kernel IntqSys
  | .call t op place => if s.pc t = .idle then s.loop t op place else some s
  | .run t place =>
    match s.pc t with
    | .woken op => s.semaDown t op place
    | .signalled op => do
      let s ← s.lockRelease t
      let s := s.setPc t (.looping op)
      if userprog then s.loop t op place else return s
    | .looping op => s.loop t op place
    | .idle | .acquiring _ | .waiting _ => some s
  | .handlerPut byte => if s.queue.full then some s else s.putByte byte
  | .handlerGet =>
    if s.queue.empty then some s
    else do
      let (_, s) ← s.getByte
      return s

/-! ## What holds in every run -/

/-- The lock, the slots and the list of waiters say where the threads are. -/
structure Sane (s : IntqSys) : Prop where
  value : s.value = if s.holder = none then 1 else 0
  holder : ∀ t, s.holder = some t ↔ ∃ op, s.pc t = .waiting op ∨ s.pc t = .signalled op
  slot : ∀ k t, s.slot k = some t ↔ ∃ op, op.slot = k ∧ s.pc t = .waiting op
  waiters : ∀ t, t ∈ s.waiters ↔ ∃ op, s.pc t = .acquiring op
  nodup : s.waiters.Nodup

/-- Threads that sleep in `wait` may be woken. -/
def Wakes (s s' : IntqSys) : Prop :=
  ∀ u, s'.pc u = s.pc u ∨ ∃ op, s.pc u = .waiting op ∧ s'.pc u = .signalled op

/-- What other threads notice of a step of `t`: one that sleeps may be woken. -/
def Others (t : Nat) (s s' : IntqSys) : Prop :=
  ∀ u, u ≠ t → s'.pc u = s.pc u ∨ (∃ op, s.pc u = .waiting op ∧ s'.pc u = .signalled op) ∨
    ∃ op, s.pc u = .acquiring op ∧ s'.pc u = .woken op

variable {s s' : IntqSys} {t u : Nat} {op : IntqOp} {k : IntqSlot}

theorem Sane.setPc (h : s.Sane) (ht : (s.pc t).free = true) (hpc : pc.free = true) :
    (s.setPc t pc).Sane := by
  have hkeep : ∀ (f : IntqOp → IntqPc), (∀ op, (f op).free = false) → ∀ u op,
      (s.setPc t pc).pc u = f op ↔ s.pc u = f op := by
    intro f hf u op
    by_cases hu : u = t
    · subst hu
      have hne : ∀ pc : IntqPc, pc.free = true → pc ≠ f op := by
        rintro pc hpc rfl
        rw [hf op] at hpc
        cases hpc
      simp [IntqSys.setPc, hne pc hpc, hne _ ht]
    · simp [IntqSys.setPc, hu]
  have hwaiting := hkeep .waiting fun _ ↦ rfl
  have hsignalled := hkeep .signalled fun _ ↦ rfl
  have hacquiring := hkeep .acquiring fun _ ↦ rfl
  refine ⟨h.value, fun u ↦ ?_, fun k u ↦ ?_, fun u ↦ ?_, h.nodup⟩
  · simp only [hwaiting, hsignalled]
    exact h.holder u
  · simp only [hwaiting]
    exact h.slot k u
  · simp only [hacquiring]
    exact h.waiters u

theorem Others.refl (t : Nat) (s : IntqSys) : Others t s s := fun _ _ ↦ .inl rfl

theorem Others.trans (h : Others t s s1) (h' : Others t s1 s') : Others t s s' := by
  intro u hu
  rcases h' u hu with heq | ⟨op, hw, hs⟩ | ⟨op, ha, hw⟩
  · rw [heq]
    exact h u hu
  · rcases h u hu with heq | ⟨op', -, hs'⟩ | ⟨op', -, hw'⟩
    · exact .inr (.inl ⟨op, heq ▸ hw, hs⟩)
    · rw [hs'] at hw
      cases hw
    · rw [hw'] at hw
      cases hw
  · rcases h u hu with heq | ⟨op', -, hs'⟩ | ⟨op', -, hw'⟩
    · exact .inr (.inr ⟨op, heq ▸ ha, hw⟩)
    · rw [hs'] at ha
      cases ha
    · rw [hw'] at ha
      cases ha

theorem Others.setPc (t : Nat) (s : IntqSys) (pc : IntqPc) : Others t s (s.setPc t pc) :=
  fun _ hu ↦ .inl (update_of_ne hu ..)

section

variable (h : s.Sane)

include h

/-- `signal`, with its condition.  A thread that is not asleep is not woken. -/
theorem Sane.signal (hready : s.ready k = true) :
    Returns (s.signal k) fun s' ↦ s'.Sane ∧ Wakes s s' := by
  unfold IntqSys.signal
  rw [assert, if_pos hready]
  simp only [some_bind]
  cases hslot : s.slot k with
  | none => exact .pure ⟨h, fun _ ↦ .inl rfl⟩
  | some t =>
    obtain ⟨op, hop, hpc⟩ := (h.slot k t).mp hslot
    simp only [threadUnblock, hpc, some_bind]
    refine .pure ⟨⟨h.value, fun u ↦ ?_, fun k' u ↦ ?_, fun u ↦ ?_, h.nodup⟩, fun u ↦ ?_⟩
    · have := h.holder u
      simp only [IntqSys.setPc, update_apply]
      grind
    · have hu := h.slot k' u
      have ht := h.slot k u
      simp only [IntqSys.setPc, update_apply]
      grind
    · have := h.waiters u
      simp only [IntqSys.setPc, update_apply]
      grind
    · simp only [IntqSys.setPc, update_apply]
      grind

theorem Sane.of_queue (queue : Intq) : Sane { s with queue } :=
  ⟨h.value, h.holder, h.slot, h.waiters, h.nodup⟩

/-- A byte is removed from a queue that is not empty, so it is not full then. -/
theorem Sane.getByte (hne : s.queue.empty = false) :
    Returns s.getByte fun r ↦ r.2.Sane ∧ Wakes s r.2 := by
  have hroom : (!s.queue.get.2.full) = true := by rw [Intq.full_get hne, Bool.not_false]
  have hsane : Sane { s with queue := s.queue.get.2 } := h.of_queue _
  exact (hsane.signal (k := .notFull) hroom).bind fun s' hs' ↦ .pure hs'

/-- A byte is added to a queue that is not full, so it is not empty then. -/
theorem Sane.putByte (byte : UInt8) (hne : s.queue.full = false) :
    Returns (s.putByte byte) fun s' ↦ s'.Sane ∧ Wakes s s' := by
  have hfull : (!(s.queue.put byte).empty) = true := by
    rw [Intq.empty_put byte hne, Bool.not_false]
  exact (h.of_queue _).signal (k := .notEmpty) hfull

section

variable (ht : (s.pc t).free = true)

include ht

/-- The end of a call. -/
theorem Sane.finish (hgo : s.mustWait op = false) :
    Returns (s.finish t op) fun s' ↦ s'.Sane ∧ Others t s s' ∧ s'.pc t = .idle := by
  -- the thread itself is not woken, as it is not asleep
  have hend : ∀ s1 : IntqSys, s1.Sane ∧ Wakes s s1 → ∀ returned,
      Sane ({ s1 with returned }.setPc t .idle) ∧
        Others t s ({ s1 with returned }.setPc t .idle) ∧
        ({ s1 with returned }.setPc t .idle).pc t = .idle := by
    rintro s1 ⟨h1, hpc⟩ returned
    have hfree : (s1.pc t).free = true := by
      rcases hpc t with heq | ⟨op, hw, -⟩
      · rw [heq]
        exact ht
      · rw [hw] at ht
        cases ht
    have h1' : Sane { s1 with returned } := ⟨h1.value, h1.holder, h1.slot, h1.waiters, h1.nodup⟩
    refine ⟨h1'.setPc hfree rfl, Others.trans (fun u _ ↦ ?_) (Others.setPc t _ _),
      update_self ..⟩
    rcases hpc u with heq | hwoken
    · exact .inl heq
    · exact .inr (.inl hwoken)
  cases op with
  | getc => exact (h.getByte hgo).bind fun r hr ↦ .pure (hend r.2 hr _)
  | putc byte => exact (h.putByte byte hgo).bind fun s1 hs1 ↦ .pure (hend s1 hs1 s1.returned)

/-- A thread goes to sleep for the lock. -/
theorem Sane.sleep (place : Nat) :
    Sane ({ s with waiters := s.waiters.take place ++ t :: s.waiters.drop place }.setPc t
      (.acquiring op)) := by
  have hperm : (s.waiters.take place ++ t :: s.waiters.drop place).Perm (t :: s.waiters) := by
    have hmiddle : (s.waiters.take place ++ t :: s.waiters.drop place).Perm
        (t :: (s.waiters.take place ++ s.waiters.drop place)) := perm_middle
    rwa [take_append_drop] at hmiddle
  have hno : t ∉ s.waiters := fun hmem ↦ by
    obtain ⟨op, hpc⟩ := (h.waiters t).mp hmem
    rw [hpc] at ht
    cases ht
  refine ⟨h.value, fun u ↦ ?_, fun k u ↦ ?_, fun u ↦ ?_, ?_⟩
  · have := h.holder u
    simp only [IntqSys.setPc, update_apply]
    grind [IntqPc.free]
  · have := h.slot k u
    simp only [IntqSys.setPc, update_apply]
    grind [IntqPc.free]
  · refine (hperm.mem_iff.trans mem_cons).trans ?_
    by_cases hu : u = t
    · simp [IntqSys.setPc, hu]
    · simpa [IntqSys.setPc, hu] using h.waiters u
  · exact hperm.nodup_iff.mpr (nodup_cons.mpr ⟨hno, h.nodup⟩)

/-- A thread takes the lock and registers in its slot. -/
theorem Sane.register (hnone : s.holder = none) :
    Sane ({ s with
      value := s.value - 1
      holder := some t
      slot := update s.slot op.slot (some t) }.setPc t (.waiting op)) := by
  have hvalue : s.value = 1 := by rw [h.value, if_pos hnone]
  -- nobody else waits, as nobody has the lock
  have hnobody : ∀ u op, s.pc u ≠ .waiting op ∧ s.pc u ≠ .signalled op := by
    intro u op
    have := h.holder u
    grind
  refine ⟨by simp [IntqSys.setPc, hvalue], fun u ↦ ?_, fun k u ↦ ?_, fun u ↦ ?_, h.nodup⟩
  · by_cases hu : u = t
    · simp [IntqSys.setPc, hu]
    · simp [IntqSys.setPc, hu, Ne.symm hu, hnobody]
  · have hslot := h.slot k u
    by_cases hu : u = t
    · simp only [IntqSys.setPc, update_apply]
      grind
    · simp only [IntqSys.setPc, update_apply]
      grind
  · have := h.waiters u
    simp only [IntqSys.setPc, update_apply]
    grind [IntqPc.free]

/-- `sema_down`, for a thread that has to wait if it gets the lock. -/
theorem Sane.semaDown (hwait : s.holder = none → s.mustWait op = true) (place : Nat) :
    Returns (s.semaDown t op place) fun s' ↦ s'.Sane ∧ Others t s s' ∧
      (s'.pc t = .waiting op ∨ (s'.pc t = .acquiring op ∧ s.holder ≠ none)) := by
  have hvalue := h.value
  unfold IntqSys.semaDown
  split
  · next hzero =>
    have hheld : s.holder ≠ none := by
      intro hnone
      rw [hzero, if_pos hnone] at hvalue
      cases hvalue
    exact .pure ⟨h.sleep ht place, Others.setPc t _ _, .inr ⟨update_self .., hheld⟩⟩
  · next hne =>
    have hnone : s.holder = none := by
      by_contra hheld
      rw [if_neg hheld] at hvalue
      exact hne hvalue
    have hassert : mustWait { s with value := s.value - 1, holder := some t } op = true := by
      cases op <;> exact hwait hnone
    rw [IntqSys.wait, assert, if_pos hassert]
    exact .pure ⟨h.register ht hnone, Others.setPc t _ _, .inl (update_self ..)⟩

/-- The test of the loop, and what follows it. -/
theorem Sane.loop (place : Nat) :
    Returns (s.loop t op place) fun s' ↦ s'.Sane ∧ Others t s s' ∧
      (s'.pc t = .idle ∨ s'.pc t = .waiting op ∨
        (s'.pc t = .acquiring op ∧ s.mustWait op = true ∧ s.holder ≠ none)) := by
  unfold IntqSys.loop
  split
  · next hwait =>
    have hnot : s.holder ≠ some t := by
      intro hheld
      obtain ⟨op, hpc | hpc⟩ := (h.holder t).mp hheld <;> rw [hpc] at ht <;> cases ht
    rw [assert, if_pos hnot]
    refine (h.semaDown ht (fun _ ↦ hwait) place).mono fun s' hs' ↦ ⟨hs'.1, hs'.2.1, ?_⟩
    rcases hs'.2.2 with hpc | ⟨hpc, hheld⟩
    · exact .inr (.inl hpc)
    · exact .inr (.inr ⟨hpc, hwait, hheld⟩)
  · next hgo =>
    exact (h.finish ht (by simpa using hgo)).mono fun s' hs' ↦ ⟨hs'.1, hs'.2.1, .inl hs'.2.2⟩

end

end

/-- With the lock free, nobody waits for a condition. -/
theorem sane_of_unlocked (hvalue : s.value = 1) (hholder : s.holder = none)
    (hslot : ∀ k, s.slot k = none) (hpc : ∀ u op, s.pc u ≠ .waiting op ∧ s.pc u ≠ .signalled op)
    (hwaiters : ∀ u, u ∈ s.waiters ↔ ∃ op, s.pc u = .acquiring op) (hnodup : s.waiters.Nodup) :
    s.Sane := by
  refine ⟨by rw [hvalue, if_pos hholder], fun u ↦ ?_, fun k u ↦ ?_, hwaiters, hnodup⟩
  · simp [hholder, hpc]
  · simp [hslot, hpc]

/-- `lock_release`, by the thread that has the lock. -/
theorem Sane.lockRelease (h : s.Sane) (hpc : s.pc t = .signalled op) :
    Returns (s.lockRelease t) fun s' ↦ Sane (s'.setPc t (.looping op)) ∧ Others t s s' ∧
      s'.holder = none := by
  have hheld : s.holder = some t := (h.holder t).mpr ⟨op, .inr hpc⟩
  have hvalue : s.value = 0 := by rw [h.value, if_neg (by simp [hheld])]
  have hothers : ∀ u, u ≠ t → ∀ op, s.pc u ≠ .waiting op ∧ s.pc u ≠ .signalled op := by
    intro u hu op
    have := h.holder u
    grind
  have hslot : ∀ k, s.slot k = none := by
    intro k
    cases hk : s.slot k with
    | none => rfl
    | some u =>
      have := h.slot k u
      grind
  have ht : t ∉ s.waiters := fun hmem ↦ by
    obtain ⟨op', hpc'⟩ := (h.waiters t).mp hmem
    rw [hpc] at hpc'
    cases hpc'
  unfold IntqSys.lockRelease
  rw [assert, if_pos hheld]
  simp only [some_bind]
  cases hw : s.waiters with
  | nil =>
    refine .pure ⟨sane_of_unlocked (by simp [IntqSys.setPc, hvalue]) rfl hslot (fun u op' ↦ ?_)
      (fun u ↦ ?_) (hw ▸ nodup_nil), Others.refl t s, rfl⟩
    · by_cases hu : u = t
      · simp [IntqSys.setPc, hu]
      · simpa [IntqSys.setPc, hu] using hothers u hu op'
    · have hmem := h.waiters u
      by_cases hu : u = t
      · simp [IntqSys.setPc, hu]
      · simpa [IntqSys.setPc, hu, hw] using hmem
  | cons v rest =>
    have hv : v ∈ s.waiters := hw ▸ mem_cons_self
    have hvt : v ≠ t := fun heq ↦ ht (heq ▸ hv)
    obtain ⟨op', hpc'⟩ := (h.waiters v).mp hv
    obtain ⟨hrest, hnodup⟩ := nodup_cons.mp (hw ▸ h.nodup)
    simp only [threadUnblock, hpc', some_bind]
    refine .pure ⟨sane_of_unlocked (by simp [IntqSys.setPc, hvalue]) rfl hslot (fun u op'' ↦ ?_)
      (fun u ↦ ?_) hnodup, fun u _ ↦ ?_, rfl⟩
    · simp only [IntqSys.setPc, update_apply]
      have := hothers u
      grind
    · have hmem := h.waiters u
      rw [hw, mem_cons] at hmem
      simp only [IntqSys.setPc, update_apply]
      grind
    · simp only [IntqSys.setPc, update_apply]
      grind

/-! ## Steps and runs -/

/-- A thread goes for the lock, in order to wait for a condition, and finds it taken. -/
def contends (s : IntqSys) : Act → Bool
  | .call t op _ => s.pc t = .idle && s.mustWait op && s.holder.isSome
  | .run t _ =>
    match s.pc t with
    | .woken _ => s.holder.isSome
    | .looping op => s.mustWait op && s.holder.isSome
    | .idle | .acquiring _ | .waiting _ | .signalled _ => false
  | .handlerPut _ | .handlerGet => false

/-- What a step does to the place of a thread: nothing, or the thread is woken, or it is the one
that takes the step. -/
inductive Move (s : IntqSys) (a : Act) : IntqPc → IntqPc → Prop where
  | stays (pc : IntqPc) : Move s a pc pc
  | signalled (op : IntqOp) : Move s a (.waiting op) (.signalled op)
  | woken (op : IntqOp) : Move s a (.acquiring op) (.woken op)
  | acts {pc pc' : IntqPc} (hpc : ∀ op, pc ≠ .waiting op) (hwoken : ∀ op, pc' ≠ .woken op)
      (hsleep : ∀ op, pc' = .acquiring op → s.contends a = true) : Move s a pc pc'

theorem Others.move {a : Act} (h : Others t s s') (hpc : ∀ op, s.pc t ≠ .waiting op)
    (hwoken : ∀ op, s'.pc t ≠ .woken op)
    (hsleep : ∀ op, s'.pc t = .acquiring op → s.contends a = true) (u : Nat) :
    Move s a (s.pc u) (s'.pc u) := by
  by_cases hu : u = t
  · subst hu
    exact .acts hpc hwoken hsleep
  · rcases h u hu with heq | ⟨op, hw, hs⟩ | ⟨op, ha, hw⟩
    · rw [heq]
      exact .stays _
    · rw [hw, hs]
      exact .signalled op
    · rw [ha, hw]
      exact .woken op

/-- A thread goes on at the test of its loop. -/
theorem Sane.loop_move {a : Act} (h : s1.Sane) (ho : Others t s s1)
    (hpc : ∀ op, s.pc t ≠ .waiting op) (hfree : (s1.pc t).free = true)
    (hsleep : s1.mustWait op = true → s1.holder ≠ none → s.contends a = true) :
    Returns (s1.loop t op place) fun s' ↦ s'.Sane ∧ ∀ u, Move s a (s.pc u) (s'.pc u) := by
  refine (h.loop hfree place).mono fun s' hs' ↦ ⟨hs'.1, (ho.trans hs'.2.1).move hpc ?_ ?_⟩
  · intro op' heq
    rcases hs'.2.2 with h' | h' | ⟨h', -⟩ <;> rw [h'] at heq <;> cases heq
  · intro op' heq
    rcases hs'.2.2 with h' | h' | ⟨-, hwait, hheld⟩
    · rw [h'] at heq
      cases heq
    · rw [h'] at heq
      cases heq
    · exact hsleep hwait hheld

/-- An interrupt handler wakes a thread from `wait` at most. -/
theorem Wakes.move {a : Act} (h : Wakes s s') (u : Nat) : Move s a (s.pc u) (s'.pc u) := by
  rcases h u with heq | ⟨op, hw, hs⟩
  · rw [heq]
    exact .stays _
  · rw [hw, hs]
    exact .signalled op

/-- **Only the assertion in `wait` may fail**, and only for a thread that has slept for the lock. -/
theorem Sane.step (h : s.Sane) (userprog : Bool) (a : Act)
    (hwoken : ∀ t place op, a = .run t place → s.pc t = .woken op → s.holder = none →
      s.mustWait op = true) :
    Returns (s.step userprog a) fun s' ↦ s'.Sane ∧ ∀ u, Move s a (s.pc u) (s'.pc u) := by
  unfold IntqSys.step
  cases a with
  | call t op place =>
    dsimp only
    split
    · next hpc =>
      refine h.loop_move (.refl t s) (by simp [hpc]) (by rw [hpc]; rfl) fun hwait hheld ↦ ?_
      simp [contends, hpc, hwait, isSome_iff_ne_none.mpr hheld]
    · exact .pure ⟨h, fun u ↦ .stays _⟩
  | run t place =>
    dsimp only
    split
    · next op hpc =>
      refine (h.semaDown (by rw [hpc]; rfl) (hwoken t place op rfl hpc) place).mono fun s' hs' ↦
        ⟨hs'.1, hs'.2.1.move (by simp [hpc]) ?_ ?_⟩
      · intro op' heq
        rcases hs'.2.2 with h' | ⟨h', -⟩ <;> rw [h'] at heq <;> cases heq
      · intro op' heq
        rcases hs'.2.2 with h' | ⟨-, hheld⟩
        · rw [h'] at heq
          cases heq
        · simp [contends, hpc, isSome_iff_ne_none.mpr hheld]
    · next op hpc =>
      refine (h.lockRelease hpc).bind fun s1 ⟨hs1, ho, hnone⟩ ↦ ?_
      have ho' : Others t s (s1.setPc t (.looping op)) := ho.trans (.setPc t s1 _)
      have hlooping : (s1.setPc t (.looping op)).pc t = .looping op := update_self ..
      split
      · exact hs1.loop_move ho' (by simp [hpc]) (by rw [hlooping]; rfl)
          fun _ hheld ↦ absurd hnone hheld
      · refine .pure ⟨hs1, ho'.move (by simp [hpc]) ?_ ?_⟩ <;> simp [hlooping]
    · next op hpc =>
      refine h.loop_move (.refl t s) (by simp [hpc]) (by rw [hpc]; rfl) fun hwait hheld ↦ ?_
      simp [contends, hpc, hwait, isSome_iff_ne_none.mpr hheld]
    · exact .pure ⟨h, fun u ↦ .stays _⟩
    · exact .pure ⟨h, fun u ↦ .stays _⟩
    · exact .pure ⟨h, fun u ↦ .stays _⟩
  | handlerPut byte =>
    dsimp only
    split
    · exact .pure ⟨h, fun u ↦ .stays _⟩
    · next hroom =>
      exact (h.putByte byte (by simpa using hroom)).mono fun s' hs' ↦
        ⟨hs'.1, hs'.2.move⟩
  | handlerGet =>
    dsimp only
    split
    · exact .pure ⟨h, fun u ↦ .stays _⟩
    · next hbyte =>
      exact (h.getByte (by simpa using hbyte)).bind fun r hr ↦ .pure ⟨hr.1, hr.2.move⟩

/-- A step that has a result. -/
theorem Sane.of_step {userprog : Bool} {a : Act} (h : s.Sane)
    (hstep : s.step userprog a = some s') : s'.Sane ∧ ∀ u, Move s a (s.pc u) (s'.pc u) := by
  refine (h.step userprog a ?_).of_eq hstep
  rintro t place op rfl hpc hnone
  have hvalue : s.value ≠ 0 := by simp [h.value, hnone]
  simp only [IntqSys.step, hpc, IntqSys.semaDown, if_neg hvalue, wait, bind_eq_some,
    assert_eq_some] at hstep
  obtain ⟨-, hwait, -⟩ := hstep
  cases op <;> exact hwait

theorem sane_intqInit (buf : Fin intqBufsize → UInt8) : (intqInit buf).Sane :=
  sane_of_unlocked rfl rfl (fun _ ↦ rfl) (fun _ _ ↦ ⟨nofun, nofun⟩) (by simp [intqInit])
    nodup_nil

/-- A thread stays in its slot until it is woken. -/
theorem Sane.slot_step {a : Act} (h : s.Sane) (h' : s'.Sane)
    (hmove : ∀ u, Move s a (s.pc u) (s'.pc u)) (hslot : s.slot k = some t) :
    s'.slot k = some t ∨ (s'.slot k = none ∧ ∃ op, s'.pc t = .signalled op) := by
  obtain ⟨op, hop, hpc⟩ := (h.slot k t).mp hslot
  obtain ⟨pc', hpc'⟩ : ∃ pc', s'.pc t = pc' := ⟨_, rfl⟩
  have ht := hmove t
  rw [hpc, hpc'] at ht
  cases ht with
  | stays => exact .inl ((h'.slot k t).mpr ⟨op, hop, hpc'⟩)
  | signalled =>
    refine .inr ⟨?_, op, hpc'⟩
    have hheld : s'.holder = some t := (h'.holder t).mpr ⟨op, .inr hpc'⟩
    cases hk : s'.slot k with
    | none => rfl
    | some u =>
      obtain ⟨op', -, hu⟩ := (h'.slot k u).mp hk
      have hheld' : s'.holder = some u := (h'.holder u).mpr ⟨op', .inl hu⟩
      obtain rfl := some.inj (hheld.symm.trans hheld')
      rw [hpc'] at hu
      cases hu
  | acts hno => exact absurd rfl (hno op)

/-- No thread sleeps for the lock, or has done so and not taken it yet. -/
def Quiet (s : IntqSys) : Prop := ∀ u op, s.pc u ≠ .acquiring op ∧ s.pc u ≠ .woken op

theorem Quiet.of_move {a : Act} (h : s.Quiet) (hmove : ∀ u, Move s a (s.pc u) (s'.pc u))
    (hfree : s.contends a = false) : s'.Quiet := by
  intro u op
  have hu := h u
  have hm := hmove u
  generalize s.pc u = pc, s'.pc u = pc' at hu hm
  cases hm with
  | stays => exact hu op
  | signalled => exact ⟨nofun, nofun⟩
  | woken op' => exact absurd rfl (hu op').1
  | acts _ hwoken hsleep =>
    exact ⟨fun heq ↦ absurd (hsleep op heq) (by simp [hfree]), hwoken op⟩

/-- **Interrupt queues.**  In every run, a thread in a slot sleeps in `wait` for the condition of
that slot, and it stays in the slot until it is woken; so no other thread takes its place.  In a run
in which no thread finds the lock taken, no assertion fails. -/
theorem asserts_hold (userprog : Bool) (buf : Fin intqBufsize → UInt8) :
    (∀ as s, Run.run (step userprog) (intqInit buf) as = some s →
      (∀ k t, s.slot k = some t → ∃ op, op.slot = k ∧ s.pc t = .waiting op) ∧
      ∀ a s', s.step userprog a = some s' → ∀ k t, s.slot k = some t →
        s'.slot k = some t ∨ (s'.slot k = none ∧ ∃ op, s'.pc t = .signalled op)) ∧
    ∀ as, Run.Meets (step userprog) (fun s a ↦ s.contends a = false) (intqInit buf) as →
      (Run.run (step userprog) (intqInit buf) as).isSome := by
  refine ⟨fun as s hrun ↦ ?_, fun as hmeets ↦ ?_⟩
  · have h : s.Sane := Run.invariant_of_step (fun _ _ _ h hstep ↦ (h.of_step hstep).1)
      (sane_intqInit buf) hrun
    refine ⟨fun k t ↦ (h.slot k t).mp, fun a s' hstep k t hslot ↦ ?_⟩
    obtain ⟨h', hmove⟩ := h.of_step hstep
    exact h.slot_step h' hmove hslot
  · refine (Run.simulates (f := fun _ _ ↦ ()) (R := fun s (_ : Unit) ↦ s.Sane ∧ s.Quiet)
      (fun s _ a hR hfree ↦ ?_) (x := ()) ⟨sane_intqInit buf, fun _ _ ↦ ⟨nofun, nofun⟩⟩
      hmeets).isSome
    obtain ⟨h, hquiet⟩ := hR
    have hwoken : ∀ t place op, a = .run t place → s.pc t = .woken op → s.holder = none →
        s.mustWait op = true := fun t _ op _ hpc ↦ absurd hpc (hquiet t op).2
    exact (h.step userprog a hwoken).mono fun s' hs' ↦ ⟨hs'.1, hquiet.of_move hs'.2 hfree⟩

/-- Thread 1 waits for a byte, and two bytes come. -/
theorem asserts_hold_getc :
    (∃ s, Run.run (step true) (intqInit fun _ ↦ 0) [.call 1 .getc 0] = some s ∧
      s.slot .notEmpty = some 1 ∧ ∃ op, op.slot = .notEmpty ∧ s.pc 1 = .waiting op) ∧
    (Run.run (step true) (intqInit fun _ ↦ 0)
      [.call 1 .getc 0, .handlerPut 65, .handlerPut 66, .run 1 0]).isSome :=
  ⟨⟨_, rfl, rfl, ((asserts_hold true fun _ ↦ 0).1 [.call 1 .getc 0] _ rfl).1 .notEmpty 1 rfl⟩,
    (asserts_hold true fun _ ↦ 0).2 _ (by decide)⟩

/-- **The assertion in `wait` fails.**  Thread 1 waits for a byte, and thread 2, which has found the
queue empty too, sleeps for the lock.  Two bytes come, and thread 1 takes one of them.  Then
thread 2 gets the lock, and the queue is not empty. -/
theorem wait_fails : ∃ s, Run.run (step true) (intqInit fun _ ↦ 0)
        [.call 1 .getc 0, .call 2 .getc 0, .handlerPut 65, .handlerPut 66, .run 1 0] = some s ∧
      s.pc 2 = .woken .getc ∧ s.queue.contents = [66] ∧ s.step true (.run 2 0) = none :=
  ⟨_, rfl, rfl, by decide, rfl⟩

/-! ## What a step does to the bytes -/

/-- The bytes are the same, and the threads are in the same calls. -/
structure Same (s s' : IntqSys) : Prop where
  queue : s'.queue = s.queue
  op : ∀ u, (s'.pc u).op = (s.pc u).op

theorem Same.trans (h : Same s s1) (h' : Same s1 s') : Same s s' :=
  ⟨h'.queue.trans h.queue, fun u ↦ (h'.op u).trans (h.op u)⟩

theorem Same.setPc (hop : pc.op = (s.pc t).op) : Same s (s.setPc t pc) := by
  refine ⟨rfl, fun u ↦ ?_⟩
  by_cases hu : u = t
  · simp [IntqSys.setPc, hu, hop]
  · simp [IntqSys.setPc, hu]

theorem Same.threadUnblock (h : s.threadUnblock t = some s') : Same s s' := by
  unfold IntqSys.threadUnblock at h
  split at h
  · next op hpc =>
    obtain rfl := some.inj h
    exact .setPc (by rw [hpc]; rfl)
  · next op hpc =>
    obtain rfl := some.inj h
    exact .setPc (by rw [hpc]; rfl)
  · cases h

theorem Same.signal (h : s.signal k = some s') : Same s s' := by
  simp only [IntqSys.signal, bind_eq_some, assert_eq_some] at h
  obtain ⟨-, -, h⟩ := h
  split at h
  · obtain rfl := some.inj h
    exact ⟨rfl, fun _ ↦ rfl⟩
  · obtain ⟨s1, h1, h⟩ := bind_eq_some_iff.mp h
    obtain rfl := some.inj h
    have hsame := Same.threadUnblock h1
    exact ⟨hsame.queue, hsame.op⟩

theorem Same.lockRelease (h : s.lockRelease t = some s') : Same s s' := by
  simp only [IntqSys.lockRelease, bind_eq_some, assert_eq_some] at h
  obtain ⟨-, -, h⟩ := h
  split at h
  · obtain rfl := some.inj h
    exact ⟨rfl, fun _ ↦ rfl⟩
  · obtain ⟨s1, h1, h⟩ := bind_eq_some_iff.mp h
    obtain rfl := some.inj h
    have hsame := Same.threadUnblock h1
    exact ⟨hsame.queue, hsame.op⟩

/-- A byte has been removed. -/
theorem getByte_eq_some (h : s.getByte = some (byte, s')) :
    byte = s.queue.get.1 ∧ s'.queue = s.queue.get.2 ∧ ∀ u, (s'.pc u).op = (s.pc u).op := by
  obtain ⟨s1, h1, h⟩ := bind_eq_some_iff.mp h
  obtain ⟨rfl, rfl⟩ := Prod.mk.inj (some.inj h)
  have hsame := Same.signal h1
  exact ⟨rfl, hsame.queue, hsame.op⟩

/-- Thread `t` is in `intq_putc (byte)`, or has added its byte and returned.  The other threads are
in the same calls as before. -/
structure Puts (t : Nat) (byte : UInt8) (s s' : IntqSys) : Prop where
  other : ∀ u, u ≠ t → (s'.pc u).op = (s.pc u).op
  self : s'.queue = s.queue ∧ (s'.pc t).op = some (.putc byte) ∨
    s.queue.full = false ∧ s'.queue = s.queue.put byte ∧ (s'.pc t).op = none

theorem Puts.setPc (hop : ∀ u, (s1.pc u).op = (s.pc u).op)
    (hself : s1.queue = s.queue ∧ pc.op = some (.putc byte) ∨
      s.queue.full = false ∧ s1.queue = s.queue.put byte ∧ pc.op = none) :
    Puts t byte s (s1.setPc t pc) := by
  refine ⟨fun u hu ↦ ?_, ?_⟩
  · simp [IntqSys.setPc, hu, hop]
  · simpa [IntqSys.setPc] using hself

theorem Puts.of_same (h : Same s s1) (hputs : Puts t byte s1 s') : Puts t byte s s' :=
  ⟨fun u hu ↦ (hputs.other u hu).trans (h.op u), h.queue ▸ hputs.self⟩

/-- A thread goes to sleep in `lock_acquire` or in `wait`. -/
theorem Puts.semaDown (h : s.semaDown t (.putc byte) place = some s') : Puts t byte s s' := by
  unfold IntqSys.semaDown at h
  split at h
  · obtain rfl := some.inj h
    exact .setPc (fun _ ↦ rfl) (.inl ⟨rfl, rfl⟩)
  · simp only [IntqSys.wait, bind_eq_some, assert_eq_some] at h
    obtain ⟨-, -, h⟩ := h
    obtain rfl := some.inj h
    exact .setPc (fun _ ↦ rfl) (.inl ⟨rfl, rfl⟩)

theorem Puts.loop (h : s.loop t (.putc byte) place = some s') : Puts t byte s s' := by
  unfold IntqSys.loop at h
  split at h
  · simp only [bind_eq_some, assert_eq_some] at h
    obtain ⟨-, -, h⟩ := h
    exact .semaDown h
  · next hroom =>
    obtain ⟨s1, h1, h⟩ := bind_eq_some_iff.mp h
    obtain rfl := some.inj h
    have hsame := Same.signal h1
    exact .setPc hsame.op (.inr ⟨by simpa [mustWait] using hroom, hsame.queue, rfl⟩)

/-- A thread goes on in `intq_putc`. -/
theorem Puts.run {userprog : Bool} (hop : (s.pc t).op = some (.putc byte))
    (h : s.step userprog (.run t place) = some s') : Puts t byte s s' := by
  simp only [IntqSys.step] at h
  split at h <;> rename_i hpc <;> rw [hpc] at hop
  · obtain rfl := some.inj hop
    exact .semaDown h
  · obtain rfl := some.inj hop
    obtain ⟨s1, h1, h⟩ := bind_eq_some_iff.mp h
    have hrelease := Same.lockRelease h1
    have hsame : Same s (s1.setPc t (.looping (.putc byte))) :=
      hrelease.trans (.setPc (by rw [hrelease.op, hpc]; rfl))
    split at h
    · exact (Puts.loop h).of_same hsame
    · obtain rfl := some.inj h
      exact .setPc hrelease.op (.inl ⟨hrelease.queue, rfl⟩)
  · obtain rfl := some.inj hop
    exact .loop h
  · cases hop
  all_goals
    obtain rfl := some.inj h
    obtain rfl := some.inj hop
    exact ⟨fun _ _ ↦ rfl, .inl ⟨rfl, by rw [hpc]; rfl⟩⟩

/-! ## Calls that do not wait -/

/-- Calls of which none has to wait, and the bytes that `intq_getc` returns. -/
def calls (s : IntqSys) : List IntqOp → Kernel (List UInt8 × IntqSys)
  | [] => some ([], s)
  | .getc :: ops => do
    assert (s.mustWait .getc = false)
    let (byte, s) ← s.getByte
    let (bytes, s) ← s.calls ops
    return (byte :: bytes, s)
  | .putc byte :: ops => do
    assert (s.mustWait (.putc byte) = false)
    (← s.putByte byte).calls ops

/-- The calls for a list of at most 63 bytes: those that come out, and those that stay. -/
def fifo : List UInt8 → List IntqOp → Option (List UInt8 × List UInt8)
  | stored, [] => some ([], stored)
  | [], .getc :: _ => none
  | byte :: stored, .getc :: ops => (fifo stored ops).map (Prod.map (byte :: ·) id)
  | stored, .putc byte :: ops =>
    if stored.length < intqBufsize - 1 then fifo (stored ++ [byte]) ops else none

/-- What comes out is what went in, in order. -/
theorem fifo_append {stored : List UInt8} {ops : List IntqOp} {r : List UInt8 × List UInt8}
    (h : fifo stored ops = some r) : stored ++ ops.filterMap IntqOp.byte = r.1 ++ r.2 := by
  fun_induction fifo stored ops generalizing r with
  | case1 =>
    obtain rfl := some.inj h
    simp
  | case2 => cases h
  | case3 byte stored ops ih =>
    obtain ⟨r, hr, rfl⟩ := map_eq_some_iff.mp h
    exact congrArg (byte :: ·) (ih hr)
  | case4 stored byte ops hlt ih => simpa [IntqOp.byte] using ih h
  | case5 => cases h

/-- No thread is woken if none waits. -/
theorem signal_of_none (hslot : s.slot k = none) (hready : s.ready k = true) :
    s.signal k = some s := by
  rw [signal, assert, if_pos hready, some_bind, hslot]
  rfl

/-- One call after the other does what it does to the list. -/
theorem calls_eq_fifo (hslot : ∀ k, s.slot k = none) (ops : List IntqOp) :
    (s.calls ops).map (fun r ↦ (r.1, r.2.queue.contents)) = fifo s.queue.contents ops := by
  induction ops generalizing s with
  | nil =>
    rw [fifo.eq_1]
    rfl
  | cons op ops ih =>
    cases op with
    | getc =>
      cases hempty : s.queue.empty with
      | true =>
        rw [Intq.empty_iff.mp hempty, calls, mustWait, hempty]
        rfl
      | false =>
        have hget : s.getByte = some (s.queue.get.1, { s with queue := s.queue.get.2 }) := by
          have hroom : (!s.queue.get.2.full) = true := by rw [Intq.full_get hempty, Bool.not_false]
          have hsignal : IntqSys.signal { s with queue := s.queue.get.2 } .notFull = some _ :=
            signal_of_none (hslot _) hroom
          rw [getByte]
          dsimp only
          rw [hsignal]
          rfl
        have hrest := ih (s := { s with queue := s.queue.get.2 }) hslot
        rw [Intq.contents_get hempty, fifo, ← hrest, calls, mustWait, hempty, hget]
        cases hcalls : calls { s with queue := s.queue.get.2 } ops <;>
          simp [assert, some_bind, hcalls]
    | putc byte =>
      have hlt : s.queue.contents.length < intqBufsize - 1 ↔ s.queue.full = false := by
        have hcount : s.queue.count < intqBufsize := Nat.mod_lt _ (by decide)
        rw [Intq.length_contents, ← Bool.not_eq_true, Intq.full_iff]
        omega
      rw [fifo, calls, mustWait]
      cases hfull : s.queue.full with
      | true =>
        rw [if_neg (by rw [hlt, hfull]; rintro ⟨⟩)]
        rfl
      | false =>
        have hput : s.putByte byte = some { s with queue := s.queue.put byte } := by
          refine signal_of_none (hslot _) ?_
          rw [ready, Intq.empty_put byte hfull, Bool.not_false]
        rw [if_pos (hlt.mpr hfull), ← Intq.contents_put byte hfull, hput]
        exact ih hslot

/-- **A queue is a bounded FIFO.**  Calls that do not have to wait return the bytes that were put,
in order and each one once; those that have not been returned are in the queue, 63 at most. -/
theorem queue_is_fifo (buf : Fin intqBufsize → UInt8) (ops : List IntqOp) :
    ((intqInit buf).calls ops).map (fun r ↦ (r.1, r.2.queue.contents)) = fifo [] ops ∧
    ∀ r, (intqInit buf).calls ops = some r → ops.filterMap IntqOp.byte = r.1 ++ r.2.queue.contents ∧
      r.2.queue.contents.length ≤ 63 ∧ r.2.queue.head.val ≤ 63 ∧ r.2.queue.tail.val ≤ 63 ∧
      (r.2.queue.empty = true ↔ r.2.queue.contents = []) ∧
      (r.2.queue.full = true ↔ r.2.queue.contents.length = 63) := by
  have hnil : (intqInit buf).queue.contents = [] := Intq.empty_iff.mp rfl
  have heq := hnil ▸ calls_eq_fifo (s := intqInit buf) (fun _ ↦ rfl) ops
  refine ⟨heq, fun r hr ↦ ?_⟩
  rw [hr] at heq
  have hcount : r.2.queue.count < intqBufsize := Nat.mod_lt _ (by decide)
  rw [Intq.length_contents]
  exact ⟨fifo_append heq.symm, Nat.le_of_lt_succ hcount, Nat.le_of_lt_succ r.2.queue.head.isLt,
    Nat.le_of_lt_succ r.2.queue.tail.isLt, Intq.empty_iff, Intq.full_iff⟩

end IntqSys

end Pintos
