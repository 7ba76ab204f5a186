import Pintos.Devices.Intq

/-!
# The serial port

`devices/serial.c`, as far as it sends bytes.  Until `serial_init_queue` has been called a byte is
sent by polling; from then on it goes through the queue `txq`, and interrupts send what is in it.

`Serial.called` records the arguments of the calls of `serial_putc`, and `Serial.submitted` the
bytes in the order in which they have been sent by polling, or added to the queue, each with its
thread.  A thread that finds the queue full, with interrupts on, sleeps in `intq_putc`, and its byte
is added when it goes on.

* `Serial.transmit_eq_some` — what the loops of `serial_interrupt` and `serial_flush` do.
* `Serial.sent_in_order` — the bytes that have been sent, followed by those in the queue, are the
  bytes that have been submitted, and these are the bytes that `serial_putc` has been called with.

What the port receives, and which interrupts are enabled in it, is left out: an interrupt may come
at any time.
-/

set_option autoImplicit false

namespace Pintos

open Function List Option

/-- `mode`. -/
inductive SerialMode where
  | uninit
  | poll
  | queue
  deriving DecidableEq, Repr

/-- The serial port, as far as it sends bytes. -/
structure Serial where
  mode : SerialMode
  txq : IntqSys
  /-- The bytes that have been written to `THR_REG`. -/
  sent : List UInt8
  /-- Recorded: what a thread has called `serial_putc` with. -/
  called : Nat → List UInt8
  /-- Recorded: the bytes that have been sent by polling, or added to the queue, and by whom. -/
  submitted : List (Nat × UInt8)

namespace Serial

/-- The variables of `serial.c` are zero before they are initialized. -/
def boot : Serial where
  mode := .uninit
  txq := { IntqSys.intqInit fun _ ↦ 0 with value := 0 }
  sent := []
  called _ := []
  submitted := []

/-- `init_poll`. -/
def initPoll (s : Serial) : Kernel Serial := do
  assert (s.mode = .uninit)
  return { s with txq := .intqInit s.txq.queue.buf, mode := .poll }

/-- `init_poll` is called if the port has not been initialized. -/
def ensureInit (s : Serial) : Kernel Serial := if s.mode = .uninit then s.initPoll else some s

/-- `serial_init_queue`. -/
def serialInitQueue (s : Serial) : Kernel Serial := do
  let s ← s.ensureInit
  assert (s.mode = .poll)
  return { s with mode := .queue }

/-- `putc_poll`, once the port is ready. -/
def putcPoll (s : Serial) (byte : UInt8) : Serial := { s with sent := s.sent ++ [byte] }

/-- Thread `t` has sent its byte by polling, or added it to the queue. -/
def submit (s : Serial) (t : Nat) (byte : UInt8) : Serial :=
  { s with submitted := s.submitted ++ [(t, byte)] }

/-- Thread `t` has run in `intq_putc (byte)`, which returns when it has added the byte. -/
def setTxq (s : Serial) (t : Nat) (byte : UInt8) (txq : IntqSys) : Serial :=
  if (txq.pc t).op = none then { s with txq }.submit t byte else { s with txq }

/-- If interrupts are off and the queue is full, the oldest byte is sent by polling. -/
def makeRoom (s : Serial) (intrOff : Bool) : Kernel Serial :=
  if intrOff && s.txq.queue.full then do
    let (oldest, txq) ← s.txq.getByte
    return { s with txq }.putcPoll oldest
  else some s

/-- `serial_putc`, up to its end or to where the thread sleeps. -/
def serialPutc (s : Serial) (t : Nat) (byte : UInt8) (intrOff : Bool) (place : Nat) :
    Kernel Serial :=
  if s.mode ≠ .queue then do
    let s ← s.ensureInit
    return (s.putcPoll byte).submit t byte
  else do
    let s ← s.makeRoom intrOff
    let txq ← s.txq.loop t (.putc byte) place
    return s.setTxq t byte txq

/-- The loop of `serial_interrupt` and `serial_flush`, for at most `n` rounds. -/
def transmit : Nat → Serial → Kernel Serial
  | 0, s => some s
  | n + 1, s =>
    if s.txq.queue.empty then some s
    else do
      let (byte, txq) ← s.txq.getByte
      transmit n ({ s with txq }.putcPoll byte)

/-- `serial_flush`.  There are not more bytes than that in the queue. -/
def serialFlush (s : Serial) : Kernel Serial := transmit intqBufsize s

/-- What may happen. -/
inductive Act where
  /-- A thread calls `serial_putc`. -/
  | putc (t : Nat) (byte : UInt8) (intrOff : Bool) (place : Nat)
  /-- A thread goes on in `intq_putc`. -/
  | run (t : Nat) (place : Nat)
  /-- An interrupt, in which the port takes `ready` bytes. -/
  | interrupt (ready : Nat)
  /-- `serial_flush`. -/
  | flush
  /-- `serial_init_queue`. -/
  | initQueue
  deriving DecidableEq, Repr

/-- One step.  A thread that sleeps does not call anything; the interrupt handler is registered by
`serial_init_queue`. -/
def step (userprog : Bool) (s : Serial) : Act → Kernel Serial
  | .putc t byte intrOff place =>
    if (s.txq.pc t).op = none then do
      let called := update s.called t (s.called t ++ [byte])
      return { ← s.serialPutc t byte intrOff place with called }
    else some s
  | .run t place =>
    match (s.txq.pc t).op with
    | some (.putc byte) => do
      let txq ← s.txq.step userprog (.run t place)
      return s.setTxq t byte txq
    | _ => some s
  | .interrupt ready => if s.mode = .queue then transmit ready s else some s
  | .flush => s.serialFlush
  | .initQueue => s.serialInitQueue

/-! ## In order -/

/-- The bytes of a thread that have been submitted. -/
def submittedBy (s : Serial) (t : Nat) : List UInt8 :=
  (s.submitted.filter fun p ↦ p.1 = t).map Prod.snd

/-- The byte of a thread that sleeps in `intq_putc`. -/
def pending (s : Serial) (t : Nat) : List UInt8 := ((s.txq.pc t).op.bind IntqOp.byte).toList

variable {s s' : Serial} {called : Nat → List UInt8} {t : Nat} {byte : UInt8}

theorem submittedBy_submit (u : Nat) :
    (s.submit t byte).submittedBy u = s.submittedBy u ++ if u = t then [byte] else [] := by
  by_cases hu : u = t
  · simp [submittedBy, submit, hu]
  · simp [submittedBy, submit, hu, Ne.symm hu]

/-- The first `n` bytes of the queue are sent. -/
theorem transmit_eq_some {n : Nat} (h : transmit n s = some s') :
    s'.sent = s.sent ++ s.txq.queue.contents.take n ∧
      s'.txq.queue.contents = s.txq.queue.contents.drop n ∧ s'.submitted = s.submitted ∧
      s'.called = s.called ∧ s'.mode = s.mode ∧ ∀ u, (s'.txq.pc u).op = (s.txq.pc u).op := by
  induction n generalizing s with
  | zero =>
    obtain rfl := some.inj h
    simp
  | succ n ih =>
    unfold transmit at h
    split at h
    · next hempty =>
      obtain rfl := some.inj h
      simp [Intq.empty_iff.mp hempty]
    · next hempty =>
      obtain ⟨⟨byte, txq⟩, hget, h⟩ := bind_eq_some_iff.mp h
      obtain ⟨rfl, hqueue, hop⟩ := IntqSys.getByte_eq_some hget
      obtain ⟨hsent, hcontents, hsubmitted, hcalled, hmode, hop'⟩ := ih h
      have hcons := Intq.contents_get (q := s.txq.queue) (by simpa using hempty)
      simp only [putcPoll, hqueue] at hsent hcontents hsubmitted hcalled hmode hop'
      refine ⟨?_, ?_, hsubmitted, hcalled, hmode, fun u ↦ (hop' u).trans (hop u)⟩
      · rw [hsent, hcons, take_succ_cons, append_assoc, singleton_append]
      · rw [hcontents, hcons, drop_succ_cons]

/-- What holds between two steps: nothing is in the queue before it is used, the bytes are in order,
and they are those of the calls. -/
structure InOrder (s : Serial) (called : Nat → List UInt8) : Prop where
  unused : s.mode ≠ .queue → s.txq.queue.contents = [] ∧ ∀ u, (s.txq.pc u).op = none
  bytes : s.sent ++ s.txq.queue.contents = s.submitted.map Prod.snd
  calls : ∀ u, called u = s.submittedBy u ++ s.pending u

namespace InOrder

theorem boot : boot.InOrder boot.called := ⟨fun _ ↦ ⟨rfl, fun _ ↦ rfl⟩, rfl, fun _ ↦ rfl⟩

section

variable (h : s.InOrder called)

include h

theorem initPoll (hs : s.initPoll = some s') :
    s'.InOrder called ∧ s'.mode = .poll ∧ s'.called = s.called := by
  simp only [Serial.initPoll, bind_eq_some, assert_eq_some] at hs
  obtain ⟨-, hmode, hs⟩ := hs
  obtain rfl := some.inj hs
  obtain ⟨hnil, hidle⟩ := h.unused (by simp [hmode])
  have hcontents : (IntqSys.intqInit s.txq.queue.buf).queue.contents = [] :=
    Intq.empty_iff.mp rfl
  refine ⟨⟨fun _ ↦ ⟨hcontents, fun _ ↦ rfl⟩, ?_, fun u ↦ ?_⟩, rfl, rfl⟩
  · have hbytes := h.bytes
    rw [hnil] at hbytes
    rw [hcontents]
    exact hbytes
  · have hcalls := h.calls u
    rw [pending, hidle] at hcalls
    exact hcalls

theorem ensureInit (hs : s.ensureInit = some s') :
    s'.InOrder called ∧ (s'.mode = s.mode ∨ s'.mode = .poll) ∧ s'.called = s.called := by
  unfold Serial.ensureInit at hs
  split at hs
  · exact (h.initPoll hs).imp_right (And.imp_left .inr)
  · exact some.inj hs ▸ ⟨h, .inl rfl, rfl⟩

theorem serialInitQueue (hs : s.serialInitQueue = some s') :
    s'.InOrder called ∧ s'.called = s.called := by
  simp only [Serial.serialInitQueue, bind_eq_some, assert_eq_some] at hs
  obtain ⟨s1, h1, -, -, hs⟩ := hs
  obtain ⟨hs1, -, hcalled⟩ := h.ensureInit h1
  obtain rfl := some.inj hs
  exact ⟨⟨fun hne ↦ absurd rfl hne, hs1.bytes, hs1.calls⟩, hcalled⟩

/-- The loop of `serial_interrupt` and `serial_flush`. -/
theorem transmit {n : Nat} (hs : transmit n s = some s') :
    s'.InOrder called ∧ s'.called = s.called := by
  obtain ⟨hsent, hcontents, hsubmitted, hcalled, hmode, hop⟩ := transmit_eq_some hs
  refine ⟨⟨fun hne ↦ ?_, ?_, fun u ↦ ?_⟩, hcalled⟩
  · obtain ⟨hnil, hidle⟩ := h.unused (hmode ▸ hne)
    exact ⟨by rw [hcontents, hnil, drop_nil], fun u ↦ (hop u).trans (hidle u)⟩
  · rw [hsent, hcontents, append_assoc, take_append_drop, hsubmitted]
    exact h.bytes
  · rw [submittedBy, pending, hsubmitted, hop]
    exact h.calls u

/-- A thread has added its byte to the queue, or sleeps. -/
theorem setTxq {txq : IntqSys} {called' : Nat → List UInt8} (hmode : s.mode = .queue)
    (hputs : IntqSys.Puts t byte s.txq txq) (hother : ∀ u, u ≠ t → called' u = called u)
    (hself : called' t = s.submittedBy t ++ [byte]) : (s.setTxq t byte txq).InOrder called' := by
  have hcalls : ∀ u, u ≠ t → called' u = s.submittedBy u ++ pending { s with txq } u := by
    intro u hu
    rw [hother u hu, h.calls, pending, pending, hputs.other u hu]
  unfold Serial.setTxq
  rcases hputs.self with ⟨hqueue, hop⟩ | ⟨hroom, hqueue, hop⟩
  · rw [if_neg (by simp [hop])]
    refine ⟨fun hne ↦ absurd hmode hne, by simpa [hqueue] using h.bytes, fun u ↦ ?_⟩
    by_cases hu : u = t
    · subst hu
      rw [hself, pending, hop]
      rfl
    · exact hcalls u hu
  · rw [if_pos hop]
    refine ⟨fun hne ↦ absurd hmode hne, ?_, fun u ↦ ?_⟩
    · simp [submit, hqueue, Intq.contents_put byte hroom, ← h.bytes]
    · rw [submittedBy_submit]
      by_cases hu : u = t
      · subst hu
        simp [hself, pending, submit, hop, submittedBy]
      · rw [if_neg hu, append_nil]
        exact hcalls u hu

/-- The oldest byte is sent by polling. -/
theorem makeRoom {intrOff : Bool} (hs : s.makeRoom intrOff = some s') :
    s'.InOrder called ∧ s'.mode = s.mode ∧ ∀ u, (s'.txq.pc u).op = (s.txq.pc u).op := by
  unfold Serial.makeRoom at hs
  split at hs
  · next hfull =>
    -- a full queue is not empty, so this is one round of the loop of `serial_flush`
    have hfull : s.txq.queue.full = true := (Bool.and_eq_true_iff.mp hfull).2
    have hround : Serial.transmit 1 s = some s' := by
      have hne : s.txq.queue.empty = false := by
        by_contra he
        have hnil := Intq.empty_iff.mp (by simpa using he)
        have hcount := Intq.full_iff.mp hfull
        rw [← Intq.length_contents, hnil] at hcount
        cases hcount
      rw [Serial.transmit, hne]
      exact hs
    exact ⟨(h.transmit hround).1, (transmit_eq_some hround).2.2.2.2⟩
  · exact some.inj hs ▸ ⟨h, rfl, fun _ ↦ rfl⟩

theorem submittedBy_eq (hidle : (s.txq.pc t).op = none) : called t = s.submittedBy t := by
  rw [h.calls, pending, hidle]
  exact append_nil _

/-- A call of `serial_putc`, by a thread that does not sleep. -/
theorem serialPutc {intrOff : Bool} {place : Nat} (hidle : (s.txq.pc t).op = none)
    (hs : s.serialPutc t byte intrOff place = some s') :
    s'.InOrder (update called t (called t ++ [byte])) := by
  unfold Serial.serialPutc at hs
  split at hs
  · next hmode =>
    obtain ⟨s1, h1, hs⟩ := bind_eq_some_iff.mp hs
    obtain ⟨hs1, hmode1, -⟩ := h.ensureInit h1
    have hne : s1.mode ≠ .queue := by
      rcases hmode1 with heq | heq <;> rw [heq]
      · exact hmode
      · exact nofun
    obtain ⟨hnil, hidle1⟩ := hs1.unused hne
    have hbytes := hs1.bytes
    obtain rfl := some.inj hs
    refine ⟨fun _ ↦ ⟨hnil, hidle1⟩, ?_, fun u ↦ ?_⟩
    · rw [hnil, append_nil] at hbytes
      simp [putcPoll, submit, hnil, hbytes]
    · have hcalled := hs1.submittedBy_eq (hidle1 u)
      rw [submittedBy_submit, update_apply]
      by_cases hu : u = t <;> simp_all [pending, putcPoll, submit, submittedBy]
  · next hmode =>
    obtain ⟨s1, h1, hs⟩ := bind_eq_some_iff.mp hs
    obtain ⟨txq, h2, hs⟩ := bind_eq_some_iff.mp hs
    obtain ⟨hs1, hmode1, hop⟩ := h.makeRoom h1
    obtain rfl := some.inj hs
    refine hs1.setTxq (hmode1.trans (not_not.mp hmode)) (.loop h2)
      (fun u hu ↦ update_of_ne hu ..) ?_
    rw [update_self, hs1.submittedBy_eq ((hop t).trans hidle)]

end

theorem step {userprog : Bool} {a : Act} (h : s.InOrder s.called)
    (hs : s.step userprog a = some s') : s'.InOrder s'.called := by
  cases a with
  | putc t byte intrOff place =>
    simp only [Serial.step] at hs
    split at hs
    · next hidle =>
      obtain ⟨s1, h1, hs⟩ := bind_eq_some_iff.mp hs
      have hs1 := h.serialPutc hidle h1
      obtain rfl := some.inj hs
      exact ⟨hs1.unused, hs1.bytes, hs1.calls⟩
    · exact some.inj hs ▸ h
  | run t place =>
    simp only [Serial.step] at hs
    split at hs
    · next byte hop =>
      obtain ⟨txq, hrun, hs⟩ := bind_eq_some_iff.mp hs
      have hmode : s.mode = .queue := by
        by_contra hne
        rw [(h.unused hne).2] at hop
        cases hop
      have hself : s.called t = s.submittedBy t ++ [byte] := by
        rw [h.calls, pending, hop]
        rfl
      have hcalled : (s.setTxq t byte txq).called = s.called := by
        unfold Serial.setTxq
        split <;> rfl
      obtain rfl := some.inj hs
      rw [hcalled]
      exact h.setTxq hmode (.run hop hrun) (fun _ _ ↦ rfl) hself
    · exact some.inj hs ▸ h
  | interrupt ready =>
    simp only [Serial.step] at hs
    split at hs
    · obtain ⟨hs', hcalled⟩ := h.transmit hs
      exact hcalled ▸ hs'
    · exact some.inj hs ▸ h
  | flush =>
    obtain ⟨hs', hcalled⟩ := h.transmit hs
    exact hcalled ▸ hs'
  | initQueue =>
    obtain ⟨hs', hcalled⟩ := h.serialInitQueue hs
    exact hcalled ▸ hs'

end InOrder

/-- **Bytes go through the serial port once and in order.**  What has been written to the transmit
register, followed by what is in the queue, is what has been submitted; and what a thread has
submitted, followed by the byte that it sleeps with, is what it has called `serial_putc` with. -/
theorem sent_in_order {userprog : Bool} {as : List Act}
    (hrun : Run.run (step userprog) boot as = some s) :
    s.sent ++ s.txq.queue.contents = s.submitted.map Prod.snd ∧
      ∀ t, s.called t = s.submittedBy t ++ s.pending t := by
  have h : s.InOrder s.called :=
    Run.invariant_of_step (I := fun s ↦ s.InOrder s.called) (fun _ _ _ h hs ↦ h.step hs)
      InOrder.boot hrun
  exact ⟨h.bytes, h.calls⟩

/-- Two bytes are sent by polling, and 63 more fill the queue; with interrupts off, another byte has
the oldest one sent by polling.  With interrupts on, thread 2 sleeps then, until an interrupt has
sent two bytes. -/
def fill : List Act :=
  [.putc 1 65 true 0, .putc 1 66 false 0, .initQueue] ++
    List.replicate 63 (.putc 1 67 true 0) ++
    [.putc 1 68 true 0, .putc 2 69 false 0, .interrupt 2, .run 2 0]

theorem sent_in_order_fill : ∃ s, Run.run (step true) boot fill = some s ∧
    s.sent = [65, 66, 67, 67, 67] ∧ s.called 2 = [69] ∧ s.pending 2 = [] ∧
      s.sent ++ s.txq.queue.contents = s.submitted.map Prod.snd ∧
      ∀ t, s.called t = s.submittedBy t ++ s.pending t := by
  refine Run.exists_of_view (fun s ↦ (s.sent, s.called 2, s.pending 2))
    ([65, 66, 67, 67, 67], [69], []) (by decide +kernel) fun s hrun hs ↦ ?_
  simp only [Prod.mk.injEq] at hs
  exact ⟨hs.1, hs.2.1, hs.2.2, sent_in_order hrun⟩

end Serial

end Pintos
