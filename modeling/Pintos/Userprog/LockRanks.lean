import Pintos.Logic.LockOrder
import Pintos.Userprog.Locks

/-!
# The order of the locks

`_lock_for_file` comes first, then `list_LRU_lock`, `swap_lock` and the lock of the channel.  The
code of the kernel takes them in this order (`rankStep`), and a page fault keeps to it as long as
the process holds at most `_lock_for_file` when it comes.  The only other lock under which user
bytes are touched is that of the channel.  If no access faults there, the threads wait for each
other in the order of the ranks, and there is no deadlock (`KState.NoDeadlock`).
-/

set_option autoImplicit false

namespace Pintos

open List Option

open Discipline

/-- The order in which the locks are taken. -/
def KLock.rank : KLock → Nat
  | .file => 0
  | .lru => 1
  | .swap => 2
  | .chan => 3

/-- All the locks held come before rank `n`. -/
def Below (n : Nat) (held : List KLock) : Prop := ∀ l ∈ held, l.rank < n

instance (n : Nat) (held : List KLock) : Decidable (Below n held) :=
  inferInstanceAs (Decidable (∀ l ∈ held, l.rank < n))

/-- The locks held after an instruction, if they are `held` before, the last one first.  An
instruction that stands for code with locks of its own must come where that code may come. -/
def rankStep (held : List KLock) : Instr → Option (List KLock)
  | .acquire l => if Below l.rank held then some (l :: held) else none
  | .release l => if held.head? = some l then some held.tail else none
  | .touch _ _ => if .lru ∉ held ∧ .swap ∉ held then some held else none
  | .evict => if Below 2 held then some held else none
  | .unmap _ _ _ => some held
  | .spawn => some held
  | .check _ => if Below 1 held then some held else none
  | .die => if Below 1 held then some held else none
  | .alloc => if Below 1 held then some held else none
  | .fill _ => if Below 1 held then some held else none
  | .map _ _ _ => if Below 1 held then some held else none

@[simp] theorem below_nil (n : Nat) : Below n [] := nofun

variable {held : List KLock} {l : KLock} {n : Nat}

@[simp] theorem below_cons : Below n (l :: held) ↔ l.rank < n ∧ Below n held :=
  forall_mem_cons

theorem Below.mono {m : Nat} (h : Below m held) (hmn : m ≤ n) : Below n held :=
  fun l hl ↦ Nat.lt_of_lt_of_le (h l hl) hmn

/-- A lock that does not come before rank `n` is not held. -/
theorem Below.not_mem (h : Below n held) (hl : n ≤ l.rank) : l ∉ held :=
  fun hmem ↦ Nat.not_lt.mpr hl (h l hmem)

variable {held : List KLock}

theorem rankStep_acquire (h : Below l.rank held) :
    rankStep held (.acquire l) = some (l :: held) := if_pos h

@[simp] theorem rankStep_release (l : KLock) (held : List KLock) :
    rankStep (l :: held) (.release l) = some held := if_pos rfl

/-! ## The code of the kernel -/

theorem rank_ioCode (h : Below 3 held) (n : Nat) : after rankStep held (ioCode n) = some held := by
  have hone : after rankStep held [.acquire .chan, .release .chan] = some held := by
    simp [rankStep_acquire (l := .chan) h]
  rw [ioCode, flatten_eq_flatMap]
  refine after_flatMap_of_neutral fun code hcode ↦ ?_
  rwa [id, (mem_replicate.mp hcode).2]

theorem rank_touchCode (h : .lru ∉ held ∧ .swap ∉ held) (addr n : Nat) (write : Bool) :
    after rankStep held (touchCode addr n write) = some held := by
  refine after_of_forall fun i hi ↦ ?_
  obtain ⟨k, -, rfl⟩ := List.mem_map.mp hi
  exact if_pos h

theorem rank_swapCode (h : Below 2 held) : after rankStep held swapCode = some held := by
  have hio : Below 3 (.swap :: held) := below_cons.mpr ⟨by decide, h.mono (by decide)⟩
  simp [swapCode, rankStep_acquire (l := .swap) h, rank_ioCode hio]

theorem rank_addPageCode (h : Below 1 held) : after rankStep held addPageCode = some held := by
  simp [addPageCode, rankStep_acquire (l := .lru) h]

theorem rank_stackGrowCode (h : Below 1 held) (page : Nat) :
    after rankStep held (stackGrowCode page) = some held := by
  simp [stackGrowCode, rankStep, h, rank_addPageCode h]

theorem rank_faultCode (h : Below 1 held) (page : Nat) (isAnon writable : Bool) :
    after rankStep held (faultCode page isAnon writable) = some held := by
  simp [faultCode, rankStep, h, rank_addPageCode h]

theorem rank_replacementCode (h : Below 1 held) :
    after rankStep held replacementCode = some held := by
  have hlru : Below KLock.lru.rank held := h
  have hevict : Below 2 (.lru :: held) := below_cons.mpr ⟨by decide, h.mono (by decide)⟩
  simp [replacementCode, rankStep, hlru, hevict]

theorem rank_evictCode (h : Below 2 held) (t page : Nat) (write : Bool) :
    after rankStep held (evictCode t page write) = some held := by
  cases write <;> simp [evictCode, rank_swapCode h, rankStep]

section

variable (h : Below 1 held)

include h

theorem rank_exitCode (files : List Nat) (entries : List Bool) :
    after rankStep held (exitCode files entries) = some held := by
  have hfiles : after rankStep held (files.flatMap ioCode) = some held :=
    after_flatMap_of_neutral fun n _ ↦ rank_ioCode (h.mono (by decide)) n
  have hswap : Below KLock.swap.rank held := h.mono (by decide)
  have hentries : after rankStep held (entries.flatMap fun hasSlot ↦
      (if hasSlot then [.acquire .swap, .release .swap] else []) ++
        [.acquire .lru, .release .lru]) = some held := by
    refine after_flatMap_of_neutral fun hasSlot _ ↦ ?_
    cases hasSlot <;> simp [rankStep_acquire hswap, rankStep_acquire (l := .lru) h]
  simp [exitCode, hfiles, hentries]

/-- User bytes may be touched under `_lock_for_file`, and also under the lock of the channel. -/
theorem touchable_of_below : .lru ∉ held ∧ .swap ∉ held :=
  ⟨h.not_mem (by decide), h.not_mem (by decide)⟩

theorem touchable_chan :
    .lru ∉ KLock.chan :: held ∧ .swap ∉ KLock.chan :: held := by
  simp [touchable_of_below h]

theorem rank_transferCode (memory write : Bool) (before : Nat → Nat → Nat)
    (behind fuel buffer size pos length : Nat) : after rankStep held
      (transferCode memory write before behind fuel buffer size pos length) = some held := by
  have hchan : Below KLock.chan.rank held := h.mono (by decide)
  induction fuel generalizing buffer size pos with
  | zero => rfl
  | succ fuel ih =>
    simp only [transferCode]
    split_ifs
    · rfl
    · simp [rankStep_acquire hchan, rank_touchCode (touchable_chan h), ih]
    · simp [rank_ioCode hchan, rank_touchCode (touchable_of_below h), ih]
    · rfl

theorem rank_lookupCode (name : Nat) (compares : List Nat) :
    after rankStep held (lookupCode name compares) = some held :=
  after_flatMap_of_neutral fun n _ ↦ by
    simp [rank_ioCode (h.mono (by decide)), rank_touchCode (touchable_of_below h)]

end

/-- Every system call starts and ends without locks. -/
theorem rank_body (call : Call) : after rankStep [] call.body = some [] := by
  have hio := rank_ioCode (below_nil 3)
  have htouch := rank_touchCode (touchable_of_below (below_nil 1))
  have hlookup := rank_lookupCode (below_nil 1)
  -- Under `_lock_for_file`.
  have hacq : rankStep [] (.acquire .file) = some [.file] := rfl
  have hfile : Below 1 [.file] := by decide
  have hio' := rank_ioCode (hfile.mono (n := 3) (by decide))
  have htouch' := rank_touchCode (touchable_of_below hfile)
  cases call with
  | read kind buffer size pos length memory =>
    simp only [Call.body, readCode]
    split
    · rfl
    · cases kind <;> simp [readBody, inodeReadAtCode, hacq, htouch', rank_transferCode hfile]
  | write kind buffer size pos length memory denyWrite =>
    cases kind <;> cases denyWrite <;>
      simp [Call.body, writeCode, writeBody, inodeWriteAtCode, hacq, htouch',
        rank_transferCode hfile]
  | «open» name compares before after =>
    simp only [Call.body, openCode]
    split <;> simp [hacq, hio', rank_lookupCode hfile]
  | create name length compares copied before after =>
    simp only [Call.body, createCode]
    split
    · rfl
    · simp [hio, htouch, hlookup]
  | remove name compares before after =>
    simp only [Call.body, removeCode]
    split
    · rfl
    · simp [hio, hlookup]
  | exec name length => simp [Call.body, execCode, htouch, rankStep]
  | close sectors => simp [Call.body, hio]
  | exit => rfl
  | plain => rfl

theorem rank_handlerCode (esp args : Nat) (call : Call) :
    after rankStep [] (handlerCode esp args call) = some [] := by
  have hcheck : after rankStep []
      ((List.range args).map fun i ↦ .check (esp + 4 * (i + 1))) = some [] := by
    refine after_of_forall fun i hi ↦ ?_
    obtain ⟨k, -, rfl⟩ := List.mem_map.mp hi
    rfl
  have htouch := rank_touchCode (touchable_of_below (below_nil 1))
  simp [handlerCode, rankStep, htouch, hcheck, rank_body]

theorem rank_loadCode (image : Image) : after rankStep [] (loadCode image) = some [] := by
  have hio := rank_ioCode (below_nil 3)
  have hfile : Below 3 [.file] := by decide
  have hio' := rank_ioCode hfile
  have htouch := rank_touchCode (touchable_of_below (below_nil 1))
  have hacq : rankStep [] (.acquire .file) = some [.file] := rfl
  have hdie : rankStep [] .die = some [] := rfl
  cases hs : image.success <;>
    simp [loadCode, hs, hacq, hio, hio', htouch, hdie, rank_stackGrowCode (below_nil 1)]

/-! ## The machine -/

namespace KState

/-- The lock that thread `t` is about to take, or waits for. -/
def waits (s : KState) (t : Nat) : Option KLock :=
  match (s.threads t).code with
  | .acquire l :: _ => some l
  | _ => none

/-- No thread calls `lock_acquire` for a lock it holds, and there is no cycle of threads that wait
for each other. -/
def NoDeadlock (s : KState) : Prop :=
  (∀ t l, s.waits t = some l → s.holder l ≠ some t) ∧
    ∀ t, ¬ Relation.TransGen (LockOrder.WaitsFor s.waits s.holder) t t

/-- No access faults while its thread holds the lock of the channel. -/
def NoFaultUnderChan (s : KState) : Act → Prop
  | .run t _ =>
    ∀ p ∈ s.touches t, s.accessible t p.1 p.2 = true ∨ s.holder .chan ≠ some t
  | _ => True

instance (s : KState) : ∀ a, Decidable (NoFaultUnderChan s a)
  | .run t _ => inferInstanceAs (Decidable
      (∀ p ∈ s.touches t, s.accessible t p.1 p.2 = true ∨ s.holder .chan ≠ some t))
  | .call .. | .access .. | .crash .. | .free _ => .isTrue trivial

/-- Thread `t` holds the locks of the list, and no others. -/
structure HoldsExactly (holder : KLock → Option Nat) (t : Nat) (held : List KLock) : Prop where
  nodup : held.Nodup
  mem : ∀ l, l ∈ held ↔ holder l = some t

/-- What a thread still has to run keeps to the order of the locks, and at its end the thread has
released all of them unless it dies. -/
structure RankOk (holder : KLock → Option Nat) (t : Nat) (status : Status) (code : List Instr) :
    Prop where
  keeps : ∃ held final, HoldsExactly holder t held ∧ after rankStep held code = some final ∧
    (status = .alive ∨ status = .unborn → final = [])
  unborn : status = .unborn → code = []

section

variable {s s' : KState} {t : Nat} {i : Instr} {rest code : List Instr} {choice : Choice}
  {holder : KLock → Option Nat} {status : Status} {held final : List KLock} {l : KLock}

theorem RankOk.congr {holder' : KLock → Option Nat} (h : RankOk holder t status code)
    (hh : ∀ l, holder' l = some t ↔ holder l = some t) : RankOk holder' t status code := by
  obtain ⟨held, final, hheld, hafter, hfinal⟩ := h.keeps
  exact ⟨⟨held, final, ⟨hheld.nodup, fun l ↦ (hheld.mem l).trans (hh l).symm⟩, hafter, hfinal⟩,
    h.unborn⟩

/-- A thread that leaves user mode, or is created. -/
theorem RankOk.start (h : ∀ l, holder l ≠ some t) (hcode : after rankStep [] code = some []) :
    RankOk holder t .alive code :=
  ⟨⟨[], [], ⟨nodup_nil, fun l ↦ by simp [h l]⟩, hcode, fun _ ↦ rfl⟩, nofun⟩

/-- A thread in user mode holds no locks. -/
theorem RankOk.none_held (h : RankOk holder t status [])
    (hstatus : status = .alive ∨ status = .unborn) (l : KLock) : holder l ≠ some t := by
  obtain ⟨held, final, hheld, hafter, hfinal⟩ := h.keeps
  obtain rfl : held = [] := (some.inj hafter).trans (hfinal hstatus)
  exact fun hl ↦ not_mem_nil ((hheld.mem l).mpr hl)

theorem RankOk.exit (hheld : HoldsExactly holder t held) (h : Below 1 held) (files : List Nat)
    (entries : List Bool) : RankOk holder t .dying (exitCode files entries) :=
  ⟨⟨held, held, hheld, rank_exitCode h files entries, nofun⟩, nofun⟩

theorem HoldsExactly.acquire (h : HoldsExactly s.holder t held) (hl : s.holder l = none) :
    HoldsExactly (s.setHolder l (some t)).holder t (l :: held) where
  nodup := nodup_cons.mpr ⟨fun hmem ↦ by simp [h.mem, hl] at hmem, h.nodup⟩
  mem k := by
    by_cases hk : k = l
    · simp [setHolder, hk]
    · simp [setHolder, hk, h.mem k]

theorem HoldsExactly.release (h : HoldsExactly s.holder t (l :: held)) :
    HoldsExactly (s.setHolder l none).holder t held where
  nodup := (nodup_cons.mp h.nodup).2
  mem k := by
    by_cases hk : k = l
    · simp [setHolder, hk, (nodup_cons.mp h.nodup).1]
    · simp [setHolder, hk, ← h.mem k]

theorem RankOk.acquire (h : RankOk s.holder t status (.acquire l :: rest))
    (hl : s.holder l = none) : RankOk (s.setHolder l (some t)).holder t status rest := by
  obtain ⟨held, final, hheld, hafter, hfinal⟩ := h.keeps
  obtain ⟨held', hstep, hrest⟩ := bind_eq_some_iff.mp hafter
  have hheld' : held' = l :: held := by
    simp only [rankStep] at hstep
    split at hstep <;> cases hstep
    rfl
  subst hheld'
  exact ⟨⟨_, final, hheld.acquire hl, hrest, hfinal⟩, fun hu ↦ nomatch h.unborn hu⟩

theorem RankOk.release (h : RankOk s.holder t status (.release l :: rest)) :
    RankOk (s.setHolder l none).holder t status rest := by
  obtain ⟨held, final, hheld, hafter, hfinal⟩ := h.keeps
  obtain ⟨held', hstep, hrest⟩ := bind_eq_some_iff.mp hafter
  have hheld' : held = l :: held' := by
    simp only [rankStep] at hstep
    split at hstep <;> cases hstep
    next hhead => exact (cons_head?_tail hhead).symm
  subst hheld'
  exact ⟨⟨_, final, hheld.release, hrest, hfinal⟩, fun hu ↦ nomatch h.unborn hu⟩

/-- An instruction that stands for code with locks comes where that code may come. -/
theorem below_of_after (hstep : rankStep held i = if Below n held then some held else none)
    (hi : after rankStep held (i :: rest) = some final) :
    Below n held ∧ after rankStep held rest = some final := by
  rw [after_cons, hstep] at hi
  split at hi
  · next hb => exact ⟨hb, hi⟩
  · cases hi

/-- Only `lock_acquire` and `lock_release` change the locks held. -/
theorem rankStep_eq_self {held' : List KLock} (hacquire : ∀ l, i ≠ .acquire l)
    (hrelease : ∀ l, i ≠ .release l) (h : rankStep held i = some held') : held' = held := by
  cases i with
  | acquire l => exact absurd rfl (hacquire l)
  | release l => exact absurd rfl (hrelease l)
  | unmap _ _ _ => exact (some.inj h).symm
  | spawn => exact (some.inj h).symm
  | _ =>
    simp only [rankStep] at h
    split at h <;> cases h
    rfl

/-- Without the lock of the channel, a byte is touched at most under `_lock_for_file`. -/
theorem below_of_touch {addr : Nat} {write : Bool}
    (h : after rankStep held (.touch addr write :: rest) = some final) (hchan : .chan ∉ held) :
    Below 1 held := by
  have htouch : .lru ∉ held ∧ .swap ∉ held := by
    by_contra hn
    simp [rankStep, hn] at h
  intro l hl
  cases l with
  | file => decide
  | lru => exact absurd hl htouch.1
  | swap => exact absurd hl htouch.2
  | chan => exact absurd hl hchan

/-- The code that takes the place of an instruction keeps to the order of the locks. -/
theorem rank_expand (hx : Expansion s t i choice code)
    (hi : after rankStep held (i :: rest) = some final)
    (hfault : ∀ addr write, i = .touch addr write → s.accessible t addr write = false →
      .chan ∉ held) : after rankStep held (code ++ rest) = some final := by
  cases hx with
  | done hacquire hrelease =>
    obtain ⟨held', hstep, hrest⟩ := bind_eq_some_iff.mp hi
    obtain rfl := rankStep_eq_self hacquire hrelease hstep
    exact hrest
  | check addr =>
    obtain ⟨hb, hrest⟩ := below_of_after rfl hi
    simpa [rank_stackGrowCode hb] using hrest
  | fault isAnon writable h =>
    have hb := below_of_touch hi (hfault _ _ rfl h)
    simpa [rank_faultCode hb] using hi
  | grow h =>
    have hb := below_of_touch hi (hfault _ _ rfl h)
    simpa [rank_stackGrowCode hb] using hi
  | replace =>
    obtain ⟨hb, -⟩ := below_of_after rfl hi
    simpa [rank_replacementCode hb] using hi
  | evict u page dirty write =>
    obtain ⟨hb, hrest⟩ := below_of_after rfl hi
    simpa [rank_evictCode hb] using hrest
  | loadFile page n =>
    obtain ⟨hb, hrest⟩ := below_of_after rfl hi
    simpa [rank_ioCode (hb.mono (by decide))] using hrest
  | swapIn page n =>
    obtain ⟨hb, hrest⟩ := below_of_after rfl hi
    simpa [rank_swapCode (hb.mono (by decide))] using hrest
  | growFailed page isAnon writable =>
    obtain ⟨hb, hrest⟩ := below_of_after rfl hi
    simpa [rank_addPageCode hb] using hrest

theorem not_accessible_of_badAccess {addr : Nat} {write : Bool}
    (h : s.badAccess t addr write = true) : s.accessible t addr write = false := by
  unfold badAccess at h
  unfold accessible
  split at h <;> simp_all

theorem preserved_rankOk : Preserved RankOk NoFaultUnderChan where
  unborn h := h.unborn rfl
  freed h := by
    obtain ⟨held, final, hheld, hafter, -⟩ := h.keeps
    exact ⟨⟨held, final, hheld, hafter, by rintro (⟨⟨⟩⟩ | ⟨⟨⟩⟩)⟩, by rintro ⟨⟩⟩
  start h hstatus hcode := by
    refine .start (h.none_held hstatus) ?_
    cases hcode with
    | call esp args call => exact rank_handlerCode esp args call
    | access addr write => rfl
    | load image => exact rank_loadCode image
  crash h := .exit ⟨nodup_nil, fun l ↦ by simp [h.none_held (.inl rfl) l]⟩ (below_nil 1)
  congr := .congr
  acquire := .acquire
  release h _ := h.release
  kill h hcode hC hkill := by
    obtain ⟨held, final, hheld, hafter, -⟩ := h.keeps
    cases hkill with
    | check _ | die => exact .exit hheld (below_of_after rfl hafter).1 ..
    | touch hbad =>
      refine .exit hheld (below_of_touch hafter ?_) ..
      rw [hheld.mem]
      simpa [NoFaultUnderChan, touches, hcode, not_accessible_of_badAccess hbad] using hC
  expand h hcode hC hx := by
    obtain ⟨held, final, hheld, hafter, hfinal⟩ := h.keeps
    refine ⟨⟨held, final, hheld, rank_expand hx hafter ?_, hfinal⟩, fun hu ↦ ?_⟩
    · rintro addr write rfl hacc
      rw [hheld.mem]
      simpa [NoFaultUnderChan, touches, hcode, hacc] using hC
    · cases h.unborn hu

/-- Whoever waits for a lock holds only locks that come before it. -/
theorem Each.noDeadlock (h : Each RankOk s) : NoDeadlock s := by
  have hrank : ∀ t l l', s.waits t = some l → s.holder l' = some t → l'.rank < l.rank := by
    intro t l l' hw hl'
    have hcode : ∃ rest, (s.threads t).code = .acquire l :: rest := by
      unfold waits at hw
      split at hw <;> cases hw
      next rest hcode => exact ⟨rest, hcode⟩
    obtain ⟨rest, hcode⟩ := hcode
    obtain ⟨held, final, hheld, hafter, -⟩ := (h t).keeps
    rw [hcode] at hafter
    have hbelow : Below l.rank held := by
      by_contra hn
      simp [rankStep, hn] at hafter
    exact hbelow l' ((hheld.mem l').mpr hl')
  exact ⟨fun t l hw hl ↦ Nat.lt_irrefl _ (hrank t l l hw hl), LockOrder.no_cycle hrank⟩

theorem rank_boot (image : Image) : Each RankOk (boot image) := by
  intro t
  by_cases ht : t = 0
  · simp only [boot, ht, if_true]
    exact .start nofun (rank_loadCode image)
  · simp only [boot, ht, if_false]
    exact ⟨⟨[], [], ⟨nodup_nil, by simp⟩, rfl, fun _ ↦ rfl⟩, fun _ ↦ rfl⟩

end

/-- **Page faults do not deadlock.**  In every run in which no access faults while its thread holds
the lock of the channel, no thread calls `lock_acquire` for a lock it holds, and there is never a
cycle of threads that wait for each other. -/
theorem noDeadlock_of_noFaultUnderChan (image : Image) {as : List Act} {s : KState}
    (hC : Run.Meets step NoFaultUnderChan (boot image) as)
    (hrun : Run.run step (boot image) as = some s) : NoDeadlock s :=
  (Run.invariant (fun _ _ _ hI hC hs ↦ preserved_rankOk.step hI hC hs) (rank_boot image) hC
    hrun).noDeadlock

/-- A process reads a few bytes from a file to a page that is not loaded: the fault comes under
`_lock_for_file`, and `load_file` waits for the channel. -/
theorem noDeadlock_short_read : ∃ s, Run.run step (boot ⟨0, 0, true, 0, [(0x10000, true)]⟩)
      (List.replicate 6 (Act.run 0 .ok) ++
        Act.call 0 0xbfffff00 3 (.read .file 0x10000000 4 0 1000 true) ::
        List.replicate 23 (Act.run 0 .ok) ++
        [Act.run 0 .fault, Act.run 0 .ok, Act.run 0 (.sectors 1)]) = some s ∧
    (s.waits 0 = some .chan ∧ s.holder .file = some 0) ∧ NoDeadlock s := by
  refine Run.exists_of_view (fun s ↦ (s.waits 0, s.holder .file)) (some .chan, some 0)
    (by decide +kernel) fun s hrun hs ↦ ?_
  exact ⟨Prod.mk.inj hs, noDeadlock_of_noFaultUnderChan _ (by decide +kernel) hrun⟩

/-- A process reads a whole sector to a page that is not loaded: `ide_read` copies to the page while
it holds the channel, the copy faults, and `load_file` asks for the channel again. -/
theorem deadlock_sector_read : ∃ s, Run.run step (boot ⟨0, 0, true, 0, [(0x10000, true)]⟩)
      (List.replicate 6 (Act.run 0 .ok) ++
        Act.call 0 0xbfffff00 3 (.read .file 0x10000000 512 0 1000 true) ::
        List.replicate 22 (Act.run 0 .ok) ++
        [Act.run 0 .fault, Act.run 0 .ok, Act.run 0 (.sectors 1)]) = some s ∧ ¬ NoDeadlock s := by
  refine Run.exists_of_view (fun s ↦ (s.waits 0, s.holder .chan)) (some .chan, some 0)
    (by decide +kernel) fun s _ hs hn ↦ ?_
  obtain ⟨hwaits, hholder⟩ := Prod.mk.inj hs
  exact hn.1 0 .chan hwaits hholder

end KState

end Pintos
