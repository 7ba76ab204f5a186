import Pintos.Vm.Consistent

/-!
# Stores to a page that is being evicted

`replacement_mem` tests the dirty bit, writes the page to swap and unmaps it, in this order, and
the eight `block_write`s in between let other threads run.  Until `pagedir_clear_page` the owner
of the page has it mapped and may store to it.

An `Eviction` is the page, its page table entry, its page entry and the swap area, together with
the place the evicting thread has got to.  A schedule is a list of actions: the next step of the
evicting thread, or a store of the owner.  `Eviction.content` reads off a schedule what the page
holds when the evicting thread is about to take its `n`-th step, and the main result compares two
of these values for every byte: the one at the step that saves the byte, and the one at the step
that unmaps the page.
-/

set_option autoImplicit false

namespace Pintos

open List Option

/-- Where `replacement_mem` has got to. -/
inductive EvictPc where
  /-- Before `pagedir_is_dirty`. -/
  | test
  /-- Before the `switch`, with the dirty bit in `dirty`. -/
  | branch (dirty : Bool)
  /-- In `swap_out`, with `i` of the sectors of the slot written. -/
  | write (swapIndex i : Nat)
  /-- `swap_out` has returned `slot`. -/
  | save (slot : Nat)
  /-- Before `is_loaded = false`. -/
  | unload
  /-- Before `pagedir_clear_page`. -/
  | clear
  /-- Before the frame is given back. -/
  | free
  | done
  deriving DecidableEq, Repr

/-- A page that is being evicted. -/
structure Eviction where
  pc : EvictPc
  entry : PageEntry
  pte : Pte
  /-- What the frame of the page holds. -/
  frame : PageData
  swap : Swap
  /-- What the frame held when `pagedir_clear_page` unmapped it. -/
  atClear : Option PageData

namespace Eviction

/-- The next step of `replacement_mem`. -/
def evict (st : Eviction) : Kernel Eviction :=
  match st.pc with
  | .test => some { st with pc := .branch st.pte.dirty }
  | .branch dirty =>
    if st.entry.type = .bin ∧ dirty = false then some { st with pc := .unload }
    else do
      let (swapIndex, bitmap) ← st.swap.bitmap.scanAndFlip 0 1 false
      let swapIndex ← swapIndex
      return { st with swap := ⟨bitmap, st.swap.block⟩, pc := .write swapIndex 0 }
  | .write swapIndex i => do
    let block ← st.swap.block.write (8 * swapIndex + i) (st.frame.sector i)
    return { st with swap := ⟨st.swap.bitmap, block⟩,
                     pc := if i + 1 < 8 then .write swapIndex (i + 1) else .save (swapIndex + 1) }
  | .save slot =>
    some { st with entry := { st.entry with swapSlot := slot, type := .anon }, pc := .unload }
  | .unload => some { st with entry := { st.entry with isLoaded := false }, pc := .clear }
  | .clear => some { st with pte := { st.pte with present := false }, pc := .free,
                             atClear := some st.frame }
  | .free => some { st with frame := fun _ ↦ 0xcc, pc := .done }
  | .done => none

/-- What happens next. -/
inductive Act where
  /-- The evicting thread takes a step. -/
  | evict
  /-- The owner stores a byte. -/
  | store (ofs : Nat) (byte : UInt8)
  deriving DecidableEq, Repr

/-- One action.  A store to a page that is not mapped, or not writable, faults. -/
def step (st : Eviction) : Act → Option Eviction
  | .evict => st.evict
  | .store ofs byte =>
    if st.pte.present ∧ st.pte.writable ∧ ofs < pgSize then
      some { st with frame := Function.update st.frame ofs byte,
                     pte := { st.pte with accessed := true, dirty := true } }
    else none

/-- The page has just been brought in: it is mapped and clean, and a page of the file holds what
the file holds. -/
structure Start (files : Nat → FileImage) (st : Eviction) : Prop where
  pc : st.pc = .test
  present : st.pte.present = true
  clean : st.pte.dirty = false
  image : st.entry.type = .bin → Vm.loadFile (files st.entry.file) st.entry = some st.frame

/-! ## What a schedule says -/

/-- The contents of a page that holds `page` now, when the evicting thread is about to take its
`n`-th step from here. -/
def content (page : PageData) : Nat → List Act → PageData
  | _, [] => page
  | n, .store ofs byte :: as => content (Function.update page ofs byte) n as
  | 0, .evict :: _ => page
  | n + 1, .evict :: as => content page n as

/-- The owner stores before the evicting thread takes its next step. -/
def storesFirst : List Act → Bool
  | .store .. :: _ => true
  | _ => false

/-- Every byte has the same value when it is saved and when the page is unmapped.  A page of the
file that is clean at the dirty test counts as saved then and is unmapped three steps later;
any other page is saved sector by sector, from the second step after the test on. -/
def Captured (st : Eviction) (as : List Act) : Prop :=
  ∀ o < pgSize,
    if st.entry.type = .bin ∧ storesFirst as = false then
      content st.frame 0 as o = content st.frame 3 as o
    else
      content st.frame (2 + o / blockSectorSize) as o = content st.frame 12 as o

/-! ## From one step of the evicting thread to the next -/

variable {st mid fin : Eviction} {as rest : List Act} {swapIndex : Nat}

/-- `mid` is `st` after the stores that come first in `as`, and `rest` is what comes after the
next step of the evicting thread. -/
structure Stored (st mid : Eviction) (as rest : List Act) : Prop where
  pc : mid.pc = st.pc
  entry : mid.entry = st.entry
  swap : mid.swap = st.swap
  atClear : mid.atClear = st.atClear
  dirty : mid.pte.dirty = (st.pte.dirty || storesFirst as)
  frame : mid.frame = content st.frame 0 as
  later : ∀ n, content st.frame (n + 1) as = content mid.frame n rest

/-- A run that gets the evicting thread further performs the stores before its next step, and then
this step. -/
theorem run_split (h : Run.run step st as = some fin) (hpc : st.pc ≠ fin.pc) :
    ∃ mid st' rest, Stored st mid as rest ∧ mid.evict = some st' ∧
      Run.run step st' rest = some fin := by
  induction as generalizing st with
  | nil =>
    obtain rfl := some_inj.mp h
    exact absurd rfl hpc
  | cons a as ih =>
    obtain ⟨st', hstep, hrest⟩ := Run.run_cons.mp h
    cases a with
    | evict =>
      exact ⟨st, st', as, ⟨rfl, rfl, rfl, rfl, by simp [storesFirst], rfl, fun _ ↦ rfl⟩,
        hstep, hrest⟩
    | store ofs byte =>
      rw [step] at hstep
      split at hstep
      · obtain rfl := some_inj.mp hstep
        obtain ⟨mid, st', rest, hs, h1, h2⟩ := ih hrest hpc
        refine ⟨mid, st', rest,
          ⟨hs.pc, hs.entry, hs.swap, hs.atClear, ?_, hs.frame, hs.later⟩, h1, h2⟩
        rw [hs.dirty]
        simp [storesFirst]
      · simp at hstep

/-- What was saved stays as it is. -/
theorem run_done (h : Run.run step st as = some fin) (hpc : st.pc = .done) :
    fin.entry = st.entry ∧ fin.swap = st.swap ∧ fin.atClear = st.atClear := by
  induction as generalizing st with
  | nil =>
    obtain rfl := some_inj.mp h
    exact ⟨rfl, rfl, rfl⟩
  | cons a as ih =>
    obtain ⟨st', hstep, hrest⟩ := Run.run_cons.mp h
    cases a with
    | evict => simp [step, evict, hpc] at hstep
    | store ofs byte =>
      rw [step] at hstep
      split at hstep
      · obtain rfl := some_inj.mp hstep
        have hrun := ih hrest
        exact hrun hpc
      · simp at hstep

/-- From `is_loaded = false` on: the entry and the swap area are what they will be. -/
theorem run_unload (h : Run.run step st as = some fin) (hpc : st.pc = .unload)
    (hdone : fin.pc = .done) :
    fin.entry = { st.entry with isLoaded := false } ∧ fin.swap = st.swap ∧
      fin.atClear = some (content st.frame 1 as) := by
  obtain ⟨m1, s1, r1, hs1, he1, h1⟩ := run_split h (by rw [hpc, hdone]; simp)
  rw [evict, hs1.pc, hpc] at he1
  obtain rfl := some_inj.mp he1
  obtain ⟨m2, s2, r2, hs2, he2, h2⟩ := run_split h1 (by rw [hdone]; simp)
  rw [evict, hs2.pc] at he2
  obtain rfl := some_inj.mp he2
  obtain ⟨m3, s3, r3, hs3, he3, h3⟩ := run_split h2 (by rw [hdone]; simp)
  rw [evict, hs3.pc] at he3
  obtain rfl := some_inj.mp he3
  obtain ⟨hentry, hswap, hat⟩ := run_done h3 rfl
  refine ⟨?_, ?_, ?_⟩
  · rw [hentry, hs3.entry, hs2.entry, hs1.entry]
  · rw [hswap, hs3.swap, hs2.swap, hs1.swap]
  · rw [hat, hs3.atClear, hs2.frame, hs1.later]

/-- From the `i`-th sector on: each sector is written as it is then, and the page entry gets the
number of the slot. -/
theorem run_write {n : Nat} :
    ∀ {i : Nat} {st : Eviction} {as : List Act}, i + n = 7 → st.pc = .write swapIndex i →
      Run.run step st as = some fin → fin.pc = .done →
      fin.entry = { st.entry with swapSlot := swapIndex + 1, type := .anon, isLoaded := false } ∧
        fin.swap.bitmap = st.swap.bitmap ∧ fin.swap.block.size = st.swap.block.size ∧
        8 * swapIndex + 8 ≤ st.swap.block.size ∧
        fin.atClear = some (content st.frame (10 - i) as) ∧
        (∀ k, i ≤ k → k < 8 →
          fin.swap.block.data (8 * swapIndex + k) = (content st.frame (k - i) as).sector k) ∧
        ∀ k < i,
          fin.swap.block.data (8 * swapIndex + k) = st.swap.block.data (8 * swapIndex + k) := by
  induction n with
  | zero =>
    intro i st as hi hpc h hdone
    obtain rfl : i = 7 := by omega
    obtain ⟨m1, s1, r1, hs1, he1, h1⟩ := run_split h (by rw [hpc, hdone]; simp)
    rw [evict, hs1.pc, hpc] at he1
    simp only [bind_eq_some, Block.write_eq_some, pure_eq_some] at he1
    obtain ⟨block, ⟨hlt, rfl⟩, rfl⟩ := he1
    obtain ⟨m2, s2, r2, hs2, he2, h2⟩ := run_split h1 (by rw [hdone]; simp)
    rw [evict, hs2.pc] at he2
    obtain rfl := some_inj.mp he2
    obtain ⟨hentry, hswap, hat⟩ := run_unload h2 rfl hdone
    rw [hs2.swap, hs1.swap] at hswap
    rw [hs1.swap] at hlt
    refine ⟨?_, ?_, ?_, by omega, ?_, ?_, ?_⟩
    · rw [hentry, hs2.entry, hs1.entry]
    · rw [hswap]
    · rw [hswap]
    · rw [hat, hs1.later 2, hs2.later 1]
    · intro k hk hk'
      obtain rfl : k = 7 := by omega
      rw [hswap, Nat.sub_self, ← hs1.frame]
      simp
    · intro k hk
      rw [hswap]
      exact Function.update_of_ne (by omega) _ _
  | succ n ih =>
    intro i st as hi hpc h hdone
    obtain ⟨m1, s1, r1, hs1, he1, h1⟩ := run_split h (by rw [hpc, hdone]; simp)
    rw [evict, hs1.pc, hpc] at he1
    simp only [bind_eq_some, Block.write_eq_some, pure_eq_some,
      if_pos (show i + 1 < 8 by omega)] at he1
    obtain ⟨block, ⟨hlt, rfl⟩, rfl⟩ := he1
    obtain ⟨hentry, hbitmap, hsize, hle, hat, hnew, hold⟩ := ih (by omega) rfl h1 hdone
    rw [hs1.swap] at hbitmap hsize hle hold
    refine ⟨?_, hbitmap, hsize, hle, ?_, ?_, ?_⟩
    · rw [hentry, hs1.entry]
    · rw [hat, show 10 - i = 10 - (i + 1) + 1 by omega, hs1.later]
    · intro k hk hk'
      rcases Nat.eq_or_lt_of_le hk with rfl | hlt
      · rw [hold i (by omega), Nat.sub_self, ← hs1.frame]
        simp
      · rw [hnew k (by omega) hk', show k - i = k - (i + 1) + 1 by omega, hs1.later]
    · intro k hk
      rw [hold k (by omega)]
      exact Function.update_of_ne (by omega) _ _

/-- From the dirty test on.  A page that is dropped is unmapped at the third step.  For one that is
written to swap, sector `k` is written at the `k + 2`-nd step from here, and the page is unmapped at
the twelfth. -/
theorem run_test (h : Run.run step st as = some fin) (hpc : st.pc = .test)
    (hdone : fin.pc = .done) :
    if st.entry.type = .bin ∧ (st.pte.dirty || storesFirst as) = false then
      fin.entry = { st.entry with isLoaded := false } ∧ fin.atClear = some (content st.frame 3 as)
    else ∃ slot, 1 ≤ slot ∧ slot ≤ fin.swap.bitmap.size ∧
      8 * (slot - 1) + 8 ≤ fin.swap.block.size ∧
      fin.entry = { st.entry with swapSlot := slot, type := .anon, isLoaded := false } ∧
      fin.atClear = some (content st.frame 12 as) ∧
      ∀ k < 8,
        fin.swap.block.data (8 * (slot - 1) + k) = (content st.frame (2 + k) as).sector k := by
  obtain ⟨m1, s1, r1, hs1, he1, h1⟩ := run_split h (by rw [hpc, hdone]; simp)
  rw [evict, hs1.pc, hpc] at he1
  obtain rfl := some_inj.mp he1
  obtain ⟨m2, s2, r2, hs2, he2, h2⟩ := run_split h1 (by rw [hdone]; simp)
  rw [evict, hs2.pc] at he2
  dsimp only at he2
  rw [hs2.entry, hs1.entry, hs1.dirty] at he2
  split at he2
  · obtain rfl := some_inj.mp he2
    obtain ⟨hentry, -, hat⟩ := run_unload h2 rfl hdone
    rw [if_pos ‹_›, hat, hs1.later 2, hs2.later 1]
    exact ⟨hentry, rfl⟩
  · rw [if_neg ‹_›]
    simp only [bind_eq_some, Prod.exists, pure_eq_some] at he2
    obtain ⟨o, bitmap, hscan, swapIndex, rfl, rfl⟩ := he2
    obtain ⟨-, hlt, hsize, -⟩ := Bitmap.scanAndFlip_spec hscan
    obtain ⟨hentry, hbitmap, hblock, hle, hat, hdata, -⟩ :=
      run_write (n := 7) (i := 0) (by omega) rfl h2 hdone
    refine ⟨swapIndex + 1, by omega, ?_, ?_, hentry, ?_, fun k hk ↦ ?_⟩
    · rw [hbitmap, hsize]
      exact hlt
    · rw [hblock]
      exact hle
    · rw [hat, hs1.later 11, hs2.later 10]
    · rw [Nat.add_sub_cancel, hdata k (by omega) hk, Nat.add_comm 2 k, hs1.later, hs2.later]
      rfl

theorem content_zero {page : PageData} (h : storesFirst as = false) : content page 0 as = page := by
  cases as with
  | nil => rfl
  | cons a as =>
    cases a with
    | evict => rfl
    | store ofs byte => simp [storesFirst] at h

/-- **What the owner sees after its next fault is what the page held when it was unmapped, exactly
if no byte changes between the step that saves it and the step that unmaps the page.**  `old` is
what the frame of the fault holds before it is filled. -/
theorem fetch_eq_atClear_iff {files : Nat → FileImage} (hst : Start files st)
    (hrun : Run.run step st as = some fin) (hdone : fin.pc = .done) (old : PageData) :
    ∃ swap page c, Vm.fetch files fin.swap fin.entry old = some (swap, page) ∧
      fin.atClear = some c ∧ ((∀ o < pgSize, page o = c o) ↔ st.Captured as) := by
  have hdirty : (st.pte.dirty || storesFirst as) = storesFirst as := by simp [hst.clean]
  have htest := run_test hrun hst.pc hdone
  by_cases hdrop : st.entry.type = .bin ∧ (st.pte.dirty || storesFirst as) = false
  · rw [if_pos hdrop] at htest
    obtain ⟨hentry, hat⟩ := htest
    refine ⟨fin.swap, st.frame, _, ?_, hat, ?_⟩
    · have hload := hst.image hdrop.1
      simp only [Vm.fetch, hentry, hdrop.1, bind_eq_some, pure_eq_some]
      exact ⟨st.frame, hload, rfl⟩
    · rw [hdirty] at hdrop
      simp only [Captured, if_pos hdrop, content_zero hdrop.2]
  · rw [if_neg hdrop] at htest
    obtain ⟨slot, h1, h2, h3, hentry, hat, hdata⟩ := htest
    obtain ⟨swap, page, hin, hpage⟩ := Swap.swapIn_page old h1 h2 h3
    refine ⟨swap, page, _, ?_, hat, ?_⟩
    · rw [Vm.fetch, hentry]
      exact hin
    · rw [hdirty] at hdrop
      refine forall₂_congr fun o ho ↦ ?_
      have hsector : o / blockSectorSize < 8 := Nat.div_lt_of_lt_mul ho
      rw [if_neg hdrop, hpage o ho, hdata _ hsector, PageData.sector, Nat.div_add_mod]

/-- A stack page that has just been mapped. -/
def stackPage : Eviction :=
  { pc := .test, entry := Vm.stackEntry (physBase - pgSize), pte := ⟨0, true, true, false, false⟩,
    frame := fun _ ↦ 0, swap := Swap.init 1 ⟨8, fun _ _ ↦ 0⟩, atClear := none }

theorem start_stackPage (files : Nat → FileImage) : Start files stackPage :=
  ⟨rfl, rfl, rfl, fun h ↦ absurd h (by decide)⟩

/-- A store before the eviction starts. -/
theorem fetch_eq_atClear_early_store :
    ∃ fin, Run.run step stackPage (.store 0 7 :: List.replicate 14 .evict) = some fin ∧
      ∃ swap page c, Vm.fetch noFiles fin.swap fin.entry (fun _ ↦ 0) = some (swap, page) ∧
        fin.atClear = some c ∧ ((∀ o < pgSize, page o = c o) ↔
          stackPage.Captured (.store 0 7 :: List.replicate 14 .evict)) := by
  obtain ⟨fin, hrun, hdone⟩ := map_eq_some_iff.mp
    (show (Run.run step stackPage (.store 0 7 :: replicate 14 .evict)).map pc = some .done by
      decide +kernel)
  exact ⟨fin, hrun, fetch_eq_atClear_iff (start_stackPage _) hrun hdone _⟩

/-- **A store to the first sector after it has been written to swap is lost**: when the page comes
back, the byte is 0 again. -/
theorem late_store_is_lost :
    Start noFiles stackPage ∧ ∃ fin swap page c,
      Run.run step stackPage
        (List.replicate 3 Act.evict ++ Act.store 0 7 :: List.replicate 11 Act.evict) = some fin ∧
      fin.pc = .done ∧ Vm.fetch noFiles fin.swap fin.entry (fun _ ↦ 0) = some (swap, page) ∧
      fin.atClear = some c ∧ page 0 ≠ c 0 := by
  have h : ((Run.run step stackPage
      (replicate 3 Act.evict ++ Act.store 0 7 :: replicate 11 Act.evict)).bind fun fin ↦
        (Vm.fetch noFiles fin.swap fin.entry fun _ ↦ 0).bind fun fetched ↦
          fin.atClear.map fun c ↦ (fin.pc, fetched.2 0, c 0)) = some (.done, 0, 7) := by
    decide +kernel
  simp only [bind_eq_some_iff, map_eq_some_iff, Prod.mk.injEq] at h
  obtain ⟨fin, hrun, fetched, hfetch, c, hc, hpc, hpage, hcleared⟩ := h
  exact ⟨start_stackPage _, fin, fetched.1, fetched.2, c, hrun, hpc, hfetch, hc,
    by rw [hpage, hcleared]; decide⟩

/-! ## The eviction on its own is `replacement_mem` -/

/-- The page `vict` of the machine `s`, before `replacement_mem` looks at it. -/
def ofVm (s : Vm) (vict : Page) : Option Eviction := do
  let pd ← (s.procs vict.thread).pagedir
  let entry ← s.heap vict.pge
  let pte ← pd.lookup entry.vaddr
  return ⟨.test, entry, pte, s.mem vict.kaddr, s.swap, none⟩

/-- The loop of `swap_out`, step by step. -/
theorem run_writeSectors {n : Nat} {block : Block} (hn : n ≤ 8) (hpc : st.pc = .write swapIndex 0)
    (h : Swap.writeSectors st.swap.block (8 * swapIndex) st.frame n = some block) :
    Run.run step st (replicate n .evict) =
      some { st with swap := ⟨st.swap.bitmap, block⟩,
                     pc := if n < 8 then .write swapIndex n else .save (swapIndex + 1) } := by
  induction n generalizing block with
  | zero =>
    obtain rfl := some_inj.mp h
    simp [Run.run, ← hpc]
  | succ n ih =>
    simp only [Swap.writeSectors, bind_eq_some] at h
    obtain ⟨block', hblock', h⟩ := h
    rw [replicate_succ', Run.run_append]
    refine ⟨_, ih (by omega) hblock', ?_⟩
    simp [Run.run, step, evict, if_pos (show n < 8 by omega), h]

/-- The end of `replacement_mem`, step by step. -/
theorem run_freePage (hpc : st.pc = .unload) :
    Run.run step st (replicate 3 .evict) =
      some { st with entry := { st.entry with isLoaded := false }, frame := fun _ ↦ 0xcc,
                     pte := { st.pte with present := false }, atClear := some st.frame,
                     pc := .done } := by
  simp [replicate, Run.run, step, evict, hpc]

/-- **Without stores in between, the steps add up to `replacement_mem`.** -/
theorem run_of_replacementMem {s s' : Vm} {vict : Page} (hst : ofVm s vict = some st)
    (h : s.replacementMem vict = some s') :
    ∃ n fin, Run.run step st (replicate n .evict) = some fin ∧ fin.pc = .done ∧
      s'.heap vict.pge = some fin.entry ∧ s'.swap = fin.swap ∧ s'.mem vict.kaddr = fin.frame := by
  simp only [ofVm, bind_eq_some, pure_eq_some] at hst
  obtain ⟨pd, hpd, entry, hentry, pte, hpte, rfl⟩ := hst
  simp only [Vm.replacementMem, bind_eq_some, assert_eq_some, Prod.exists, hpd, hentry,
    some_inj, exists_eq_left'] at h
  obtain ⟨_, -, m, entry', hback, hfree⟩ := h
  obtain ⟨_, -, hfreed⟩ := Vm.freePage_spec hfree
  have hheap : s'.heap vict.pge = some { entry' with isLoaded := false } := by
    rw [hfreed.heap]
    exact Function.update_self ..
  have hswap : s'.swap = m.swap := hfreed.swap
  have hdirty : pd.isDirty entry.vaddr = pte.dirty := by rw [PageDir.isDirty, hpte]
  rw [hdirty] at hback
  -- The first two steps of the evicting thread decide as the `switch` does.
  rcases Vm.writeBack_spec hback with ⟨hdrop, rfl, rfl⟩ | ⟨hsave, swap, slot, hout, rfl, rfl⟩
  · have hend := @run_freePage ⟨.unload, entry', pte, m.mem vict.kaddr, m.swap, none⟩ rfl
    have hrun : Run.run step ⟨.test, entry', pte, m.mem vict.kaddr, m.swap, none⟩
        (replicate 2 .evict ++ replicate 3 .evict) = _ :=
      Run.run_append.mpr ⟨_, by simp [replicate, Run.run, step, evict, hdrop], hend⟩
    rw [replicate_append_replicate] at hrun
    exact ⟨_, _, hrun, rfl, hheap, hswap, hfreed.mem⟩
  · simp only [Swap.swapOut, bind_eq_some, Prod.exists, pure_eq_some, Prod.mk.injEq] at hout
    obtain ⟨idx, bitmap, hscan, i, rfl, block, hwrite, rfl, rfl⟩ := hout
    have hend := @run_freePage ⟨.unload, { entry with swapSlot := i + 1, type := .anon }, pte,
      s.mem vict.kaddr, ⟨bitmap, block⟩, none⟩ rfl
    have hloop := @run_writeSectors
      ⟨.write i 0, entry, pte, s.mem vict.kaddr, ⟨bitmap, s.swap.block⟩, none⟩ i 8 block
      (Nat.le_refl 8) rfl hwrite
    have hrun : Run.run step ⟨.test, entry, pte, s.mem vict.kaddr, s.swap, none⟩
        (replicate 2 .evict ++ (replicate 8 .evict ++
          (replicate 1 .evict ++ replicate 3 .evict))) = _ :=
      Run.run_append.mpr ⟨_, by simp [replicate, Run.run, step, evict, hsave, hscan],
        Run.run_append.mpr ⟨_, hloop, Run.run_append.mpr
          ⟨_, by simp [replicate, Run.run, step, evict], hend⟩⟩⟩
    simp only [replicate_append_replicate] at hrun
    exact ⟨_, _, hrun, rfl, hheap, hswap, hfreed.mem⟩

/-- The only page of a machine is evicted. -/
theorem run_of_replacementMem_stack : ∃ (s : Vm) (st : Eviction) (s' : Vm),
    ofVm s ⟨0, 0, 3⟩ = some st ∧ s.replacementMem ⟨0, 0, 3⟩ = some s' ∧
      ∃ n fin, Run.run step st (replicate n .evict) = some fin ∧ fin.pc = .done ∧
        s'.swap = fin.swap := by
  let s : Vm := ⟨[3], fun _ ↦ some stackPage.entry,
    fun _ ↦ ⟨some ((∅ : PageDir).setPage stackPage.entry.vaddr 0 true), ∅⟩, [⟨0, 0, 3⟩],
    ⟨1, fun _ ↦ true⟩, fun _ ↦ stackPage.frame, stackPage.swap⟩
  obtain ⟨s', hs'⟩ := isSome_iff_exists.mp
    (show (s.replacementMem ⟨0, 0, 3⟩).isSome by decide +kernel)
  obtain ⟨n, fin, hrun, hdone, -, hswap, -⟩ := run_of_replacementMem (s := s) rfl hs'
  exact ⟨s, _, s', rfl, hs', n, fin, hrun, hdone, hswap⟩

end Eviction

end Pintos
