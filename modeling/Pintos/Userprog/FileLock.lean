import Pintos.Userprog.Locks

/-!
# Nobody dies with `_lock_for_file`

The code of the system calls is disciplined in its use of `_lock_for_file`: it is taken and given
back in turn, and the code that may end the process by itself comes where it is not held
(`fileStep`).  What the code does not control is a page fault that ends the process.  If none does
so under `_lock_for_file`, no thread in `thread_exit` has the lock (`KState.NoOrphan`);
otherwise the lock is never released again, since nothing in `thread_exit` releases it.
-/

set_option autoImplicit false

namespace Pintos

open List

open Discipline

/-- Whether `_lock_for_file` is held after an instruction.  An instruction that may end the process
by itself must come where it is not held. -/
def fileStep : Bool → Instr → Option Bool
  | held, .acquire .file => if held then none else some true
  | held, .release .file => if held then some false else none
  | held, .check _ => if held then none else some false
  | held, .die => if held then none else some false
  | held, _ => some held

/-- The instruction takes or releases another lock than `_lock_for_file`. -/
def Instr.usesOther : Instr → Bool
  | .acquire l => l != .file
  | .release l => l != .file
  | _ => false

variable {held : Bool} {i : Instr}

theorem fileStep_of_usesOther (h : i.usesOther = true) : fileStep held i = some held := by
  cases i with
  | acquire l => cases l <;> first | rfl | cases h
  | release l => cases l <;> first | rfl | cases h
  | _ => cases h

/-! ## The code of the kernel -/

theorem usesOther_of_mem_ioCode {n : Nat} (h : i ∈ ioCode n) : i.usesOther = true := by
  simp only [ioCode, mem_flatten, mem_replicate] at h
  obtain ⟨_, ⟨-, rfl⟩, hi⟩ := h
  simp only [mem_cons, not_mem_nil, or_false] at hi
  rcases hi with rfl | rfl <;> rfl

theorem usesOther_of_mem_exitCode {files : List Nat} {entries : List Bool}
    (h : i ∈ exitCode files entries) : i.usesOther = true := by
  rcases mem_append.mp h with hi | hi
  · obtain ⟨n, -, hn⟩ := mem_flatMap.mp hi
    exact usesOther_of_mem_ioCode hn
  · obtain ⟨hasSlot, -, hn⟩ := mem_flatMap.mp hi
    cases hasSlot
    · simp only [Bool.false_eq_true, if_false, nil_append, mem_cons, not_mem_nil,
        or_false] at hn
      rcases hn with rfl | rfl <;> rfl
    · simp only [if_true, cons_append, nil_append, mem_cons, not_mem_nil,
        or_false] at hn
      rcases hn with rfl | rfl | rfl | rfl <;> rfl

@[simp] theorem file_ioCode (n : Nat) : after fileStep held (ioCode n) = some held :=
  after_of_forall fun _ hi ↦ fileStep_of_usesOther (usesOther_of_mem_ioCode hi)

@[simp] theorem file_exitCode (files : List Nat) (entries : List Bool) :
    after fileStep held (exitCode files entries) = some held :=
  after_of_forall fun _ hi ↦ fileStep_of_usesOther (usesOther_of_mem_exitCode hi)

@[simp] theorem file_touchCode (addr n : Nat) (write : Bool) :
    after fileStep held (touchCode addr n write) = some held := by
  refine after_of_forall fun i hi ↦ ?_
  obtain ⟨k, -, rfl⟩ := List.mem_map.mp hi
  rfl

@[simp] theorem file_swapCode : after fileStep held swapCode = some held := by
  simp [swapCode, fileStep]

@[simp] theorem file_stackGrowCode (page : Nat) :
    after fileStep held (stackGrowCode page) = some held := rfl

@[simp] theorem file_faultCode (page : Nat) (isAnon writable : Bool) :
    after fileStep held (faultCode page isAnon writable) = some held := rfl

@[simp] theorem file_evictCode (t page : Nat) (write : Bool) :
    after fileStep held (evictCode t page write) = some held := by
  cases write <;> simp [evictCode, fileStep]

@[simp] theorem file_transferCode (memory write : Bool) (before : Nat → Nat → Nat)
    (behind fuel buffer size pos length : Nat) : after fileStep held
      (transferCode memory write before behind fuel buffer size pos length) = some held := by
  induction fuel generalizing buffer size pos with
  | zero => rfl
  | succ fuel ih =>
    simp only [transferCode]
    split_ifs <;> simp [fileStep, ih]

@[simp] theorem file_lookupCode (name : Nat) (compares : List Nat) :
    after fileStep held (lookupCode name compares) = some held :=
  after_flatMap_of_neutral fun n _ ↦ by simp

/-- Every system call starts and ends without `_lock_for_file`. -/
@[simp] theorem file_body (call : Call) : after fileStep false call.body = some false := by
  cases call with
  | read kind buffer size pos length memory =>
    simp only [Call.body, readCode]
    split
    · rfl
    · cases kind <;> simp [readBody, inodeReadAtCode, fileStep]
  | write kind buffer size pos length memory denyWrite =>
    cases kind <;> cases denyWrite <;>
      simp [Call.body, writeCode, writeBody, inodeWriteAtCode, fileStep]
  | «open» name compares before after =>
    simp only [Call.body, openCode]
    split <;> simp [fileStep]
  | create name length compares copied before after =>
    simp only [Call.body, createCode]
    split <;> simp [fileStep]
  | remove name compares before after =>
    simp only [Call.body, removeCode]
    split <;> simp [fileStep]
  | exec name length => simp [Call.body, execCode, fileStep]
  | close sectors => simp [Call.body]
  | exit => rfl
  | plain => rfl

@[simp] theorem file_handlerCode (esp args : Nat) (call : Call) :
    after fileStep false (handlerCode esp args call) = some false := by
  have hcheck : after fileStep false
      ((List.range args).map fun i ↦ .check (esp + 4 * (i + 1))) = some false := by
    refine after_of_forall fun i hi ↦ ?_
    obtain ⟨k, -, rfl⟩ := List.mem_map.mp hi
    rfl
  simp [handlerCode, fileStep, hcheck]

@[simp] theorem file_loadCode (image : Image) :
    after fileStep false (loadCode image) = some false := by
  cases hs : image.success <;> simp [loadCode, hs, fileStep]

/-! ## The machine -/

namespace KState

/-- No thread in `thread_exit` is the holder of `_lock_for_file`. -/
def NoOrphan (s : KState) : Prop :=
  ∀ t, (s.threads t).status = .dying → s.holder .file ≠ some t

/-- No page fault ends a process that holds `_lock_for_file`: a byte that it touches has a page and
may be accessed, or the stack grows to it. -/
def NoKillUnderFile (s : KState) : Act → Prop
  | .run t choice => ∀ p ∈ s.touches t,
      s.badAccess t p.1 p.2 = false ∨ choice = .grow ∨ s.holder .file ≠ some t
  | _ => True

instance (s : KState) (a : Act) : Decidable (NoKillUnderFile s a) := by
  cases a <;> unfold NoKillUnderFile <;> infer_instance

/-- What a thread still has to run keeps to the discipline, and a thread in `thread_exit` has
nothing to do with `_lock_for_file`. -/
structure FileOk (holder : KLock → Option Nat) (t : Nat) (status : Status) (code : List Instr) :
    Prop where
  keeps : after fileStep (decide (holder .file = some t)) code = some false
  unborn : status = .unborn → code = []
  dying : status = .dying →
    holder .file ≠ some t ∧ ∀ i ∈ code, i.usesOther = true

section

variable {s s' : KState} {t : Nat} {i : Instr} {rest code : List Instr} {choice : Choice}
  {holder : KLock → Option Nat} {status : Status}

theorem FileOk.congr {holder' : KLock → Option Nat} (h : FileOk holder t status code)
    (hh : holder' .file = some t ↔ holder .file = some t) : FileOk holder' t status code :=
  ⟨by simpa only [hh] using h.keeps, h.unborn,
    fun hd ↦ ⟨fun he ↦ (h.dying hd).1 (hh.mp he), (h.dying hd).2⟩⟩

/-- A thread that leaves user mode, or is created. -/
theorem FileOk.start (h : holder .file ≠ some t) (hcode : after fileStep false code = some false) :
    FileOk holder t .alive code :=
  ⟨by rwa [decide_eq_false h], nofun, nofun⟩

/-- A thread without code does not hold the lock. -/
theorem FileOk.not_held (h : FileOk holder t status []) : holder .file ≠ some t := by
  simpa using h.keeps

/-- An instruction that may end the process comes where the lock is not held. -/
theorem FileOk.not_held_of_ends (h : FileOk holder t status (i :: rest))
    (hi : fileStep true i = none) : holder .file ≠ some t := by
  intro hh
  simpa [hh, hi] using h.keeps

theorem FileOk.exit (h : holder .file ≠ some t) (files : List Nat) (entries : List Bool) :
    FileOk holder t .dying (exitCode files entries) :=
  ⟨by simp [h], nofun, fun _ ↦ ⟨h, fun _ ↦ usesOther_of_mem_exitCode⟩⟩

theorem FileOk.acquire {l : KLock} (h : FileOk s.holder t status (.acquire l :: rest))
    (hl : s.holder l = none) : FileOk (s.setHolder l (some t)).holder t status rest where
  keeps := by
    have hk := h.keeps
    cases l <;> simp_all [fileStep, setHolder]
  unborn hu := nomatch h.unborn hu
  dying hd := by
    obtain ⟨hh, hc⟩ := h.dying hd
    refine ⟨?_, fun i hi ↦ hc i (mem_cons_of_mem _ hi)⟩
    cases l <;> simp_all [Instr.usesOther, setHolder]

theorem FileOk.release {l : KLock} (h : FileOk s.holder t status (.release l :: rest))
    (hl : s.holder l = some t) : FileOk (s.setHolder l none).holder t status rest where
  keeps := by
    have hk := h.keeps
    cases l <;> simp_all [fileStep, setHolder]
  unborn hu := nomatch h.unborn hu
  dying hd := by
    obtain ⟨hh, hc⟩ := h.dying hd
    refine ⟨?_, fun i hi ↦ hc i (mem_cons_of_mem _ hi)⟩
    cases l <;> simp_all [setHolder]

/-- The code that takes the place of an instruction keeps to the discipline. -/
theorem file_expand {held final : Bool} (hx : Expansion s t i choice code)
    (hi : after fileStep held (i :: rest) = some final) :
    after fileStep held (code ++ rest) = some final := by
  cases hx with
  | done hacquire hrelease =>
    cases held <;> cases i <;> simp_all [fileStep]
  | check addr => cases held <;> simp_all [fileStep]
  | fault isAnon writable _ => simpa using hi
  | grow _ => simpa using hi
  | replace => simpa [replacementCode, fileStep] using hi
  | evict u page dirty write => simpa [fileStep] using hi
  | loadFile page n => simpa [fileStep] using hi
  | swapIn page n => simpa [fileStep] using hi
  | growFailed page isAnon writable => simpa [addPageCode, fileStep] using hi

theorem preserved_fileOk : Preserved FileOk NoKillUnderFile where
  unborn h := h.unborn rfl
  freed h := ⟨h.keeps, fun _ ↦ rfl, by rintro ⟨⟩⟩
  start h _ hcode := by
    refine .start h.not_held ?_
    cases hcode with
    | call esp args call => exact file_handlerCode ..
    | access addr write => rfl
    | load image => exact file_loadCode ..
  crash h := .exit h.not_held
  congr h hh := h.congr (hh .file)
  acquire := .acquire
  release := .release
  kill h hcode hC hkill := by
    cases hkill with
    | check _ | die => exact .exit (h.not_held_of_ends rfl) ..
    | touch hbad =>
      exact .exit (by simpa [NoKillUnderFile, touches, hcode, hbad] using hC) ..
  expand h _ _ hx := by
    refine ⟨file_expand hx h.keeps, fun hu ↦ ?_, fun hd ↦ ?_⟩
    · cases h.unborn hu
    · -- A thread in `thread_exit` only takes and releases locks.
      obtain ⟨hh, hc⟩ := h.dying hd
      cases hx <;> simp_all [Instr.usesOther]

theorem Each.noOrphan (h : Each FileOk s) : NoOrphan s :=
  fun t hd ↦ ((h t).dying hd).1

theorem file_boot (image : Image) : Each FileOk (boot image) := by
  intro t
  by_cases ht : t = 0
  · simp only [boot, ht, if_true]
    exact .start nofun (file_loadCode ..)
  · simp only [boot, ht, if_false]
    exact ⟨rfl, fun _ ↦ rfl, nofun⟩

end

/-- **No process dies with `_lock_for_file`.**  In every run in which no page fault ends a process
that holds it, no thread in `thread_exit` is ever its holder. -/
theorem noOrphan_of_noKillUnderFile (image : Image) {as : List Act} {s : KState}
    (hC : Run.Meets step NoKillUnderFile (boot image) as)
    (hrun : Run.run step (boot image) as = some s) : NoOrphan s :=
  (Run.invariant (fun _ _ _ hI hC hs ↦ preserved_fileOk.step hI hC hs) (file_boot image) hC
    hrun).noOrphan

/-- A process reads from a file to its stack and exits. -/
theorem noOrphan_read_exit : ∃ s, Run.run step (boot ⟨0, 0, true, 0, []⟩)
      (List.replicate 6 (Act.run 0 .ok) ++
        Act.call 0 0xbfffff00 3 (.read .file 0xbfffff80 4 0 100 true) ::
        List.replicate 28 (Act.run 0 .ok) ++
        Act.call 0 0xbfffff00 0 .exit :: List.replicate 5 (Act.run 0 .ok) ++
        [Act.run 0 (.kill [1] [true])]) = some s ∧ (s.threads 0).status = .dying ∧ NoOrphan s := by
  refine Run.exists_of_view (fun s ↦ (s.threads 0).status) .dying (by decide +kernel)
    fun s hrun hs ↦ ?_
  exact ⟨hs, noOrphan_of_noKillUnderFile _ (by decide +kernel) hrun⟩

/-- A process reads from a file to an address where it has no page: the fault comes under
`_lock_for_file`, and the process enters `thread_exit` with it. -/
theorem orphan_after_bad_read : ∃ s, Run.run step (boot ⟨0, 0, true, 0, []⟩)
      (List.replicate 6 (Act.run 0 .ok) ++
        Act.call 0 0xbfffff00 3 (.read .file 0x10000000 4 0 100 true) ::
        List.replicate 23 (Act.run 0 .ok) ++ [Act.run 0 (.kill [1] [true])]) = some s ∧
    ¬ NoOrphan s := by
  refine Run.exists_of_view (fun s ↦ ((s.threads 0).status, s.holder .file)) (.dying, some 0)
    (by decide +kernel) fun s _ hs hn ↦ ?_
  obtain ⟨hstatus, hholder⟩ := Prod.mk.inj hs
  exact hn 0 hstatus hholder

end KState

end Pintos
