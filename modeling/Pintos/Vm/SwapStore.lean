import Pintos.Logic.Run
import Pintos.Vm.Swap

/-!
# The swap area as a store

Runs of `swap_out`, `swap_in` and `swap_clear`.  A run keeps track of the slot numbers that are
outstanding, which `swap_out` has returned and nobody has given back, and of the page that was
written for each.

* `Swap.Stores` — the bits that are set are the outstanding slots, and each of them still holds its
  page, for every history (`Swap.store_faithful`).  This needs a device on which all slots fit.
* The bitmap has 8192 bits whatever the size of the swap device is, since `swap_init` is called
  before the device is known.  `Swap.swap_stays_on_device` says when `check_sector` does not panic
  in `block_write` and `block_read`, and `Swap.swapOut_past_end` that it may.
-/

set_option autoImplicit false

namespace Pintos

open List Option

namespace Swap

variable {sw sw' : Swap} {slot : Nat} {page page' : PageData} {block block' : Block}

/-! ## Writing and reading a slot -/

/-- The `block_write`s of `swap_out`. -/
theorem writeSectors_spec {base n : Nat} (h : base + n ≤ block.size) :
    Returns (writeSectors block base page n) fun block' ↦ block'.size = block.size ∧
      ∀ j, block'.data j =
        if base ≤ j ∧ j < base + n then page.sector (j - base) else block.data j := by
  induction n with
  | zero => exact .pure ⟨rfl, fun j ↦ (if_neg (by omega)).symm⟩
  | succ n ih =>
    refine (ih (by omega)).bind ?_
    rintro block1 ⟨hsize, hdata⟩
    refine ⟨_, Block.write_eq_some.mpr ⟨by omega, rfl⟩, hsize, fun j ↦ ?_⟩
    by_cases hj : j = base + n
    · subst hj
      rw [if_pos (by omega), Nat.add_sub_cancel_left]
      exact Function.update_self ..
    · refine (Function.update_of_ne hj ..).trans ((hdata j).trans ?_)
      exact if_congr (by omega) rfl rfl

/-- What is written is on the device. -/
theorem size_writeSectors {base n : Nat} (h : writeSectors block base page n = some block') :
    block'.size = block.size ∧ ∀ k < n, base + k < block.size := by
  induction n generalizing block' with
  | zero => exact ⟨some.inj h ▸ rfl, fun k hk ↦ absurd hk (Nat.not_lt_zero k)⟩
  | succ n ih =>
    simp only [writeSectors, bind_eq_some] at h
    obtain ⟨block1, h1, h⟩ := h
    obtain ⟨hlt, rfl⟩ := Block.write_eq_some.mp h
    obtain ⟨hsize, hbase⟩ := ih h1
    refine ⟨hsize, fun k hk ↦ ?_⟩
    rcases Nat.lt_succ_iff_lt_or_eq.mp hk with hk | rfl
    · exact hbase k hk
    · exact hsize ▸ hlt

/-- The bytes of a page. -/
abbrev pageBytes : Nat := 8 * blockSectorSize

/-- A slot of the device holds a page. -/
def Keeps (block : Block) (slot : Nat) (page : PageData) : Prop :=
  ∀ k < 8, block.data (8 * (slot - 1) + k) = page.sector k

/-- **`swap_out`** writes the page to a slot that was free, and to no other one. -/
theorem swapOut_writes
    (hdevice : ∀ i, sw.bitmap.scan 0 1 false = some (some i) → 8 * i + 8 ≤ sw.block.size)
    (hfree : ∃ i < sw.bitmap.size, sw.bitmap.bit i = false) :
    Returns (sw.swapOut page) fun r ↦ r.1.bitmap.size = sw.bitmap.size ∧
      r.1.block.size = sw.block.size ∧ 1 ≤ r.2 ∧ r.2 ≤ sw.bitmap.size ∧
      sw.bitmap.bit (r.2 - 1) = false ∧
      (∀ i, r.1.bitmap.bit i = if i = r.2 - 1 then true else sw.bitmap.bit i) ∧
      Keeps r.1.block r.2 page ∧ ∀ slot page', 1 ≤ slot → slot ≠ r.2 → Keeps sw.block slot page' →
        Keeps r.1.block slot page' := by
  obtain ⟨⟨idx, bitmap⟩, hscan⟩ := Bitmap.exists_scanAndFlip (b := sw.bitmap) 1 false
    (Nat.zero_le _)
  cases idx with
  | none =>
    obtain ⟨i, hi, hbit⟩ := hfree
    obtain ⟨j, h1, h2, hne⟩ :=
      Bitmap.of_scan_eq_none (Bitmap.scan_of_scanAndFlip hscan) (Nat.zero_le i) hi
    obtain rfl : j = i := by omega
    exact absurd hbit hne
  | some i =>
    obtain ⟨-, hle, hsize, hold, hnew⟩ := Bitmap.scanAndFlip_spec hscan
    obtain ⟨block', hblock, hbsize, hdata⟩ : Returns (writeSectors sw.block (8 * i) page 8) _ :=
      writeSectors_spec (hdevice i (Bitmap.scan_of_scanAndFlip hscan))
    refine ⟨(⟨bitmap, block'⟩, i + 1), by simp [swapOut, hscan, hblock], hsize, hbsize, by simp,
      hle, hold i (by omega) (by omega), fun j ↦ ?_, fun k hk ↦ ?_,
      fun n page' hn hne hkeeps k hk ↦ ?_⟩
    · rw [hnew]
      exact if_congr (by simp; omega) rfl rfl
    · refine (hdata _).trans ?_
      rw [if_pos (by simp; omega), Nat.add_sub_cancel, Nat.add_sub_cancel_left]
    · refine (hdata _).trans ?_
      rw [if_neg (by simp at hne; omega)]
      exact hkeeps k hk

/-- What is read is on the device. -/
theorem size_readSectors {base n : Nat} (h : readSectors block base page n = some page') :
    ∀ k < n, base + k < block.size := by
  induction n generalizing page' with
  | zero => exact fun k hk ↦ absurd hk (Nat.not_lt_zero k)
  | succ n ih =>
    simp only [readSectors, bind_eq_some] at h
    obtain ⟨page1, h1, sector, hread, -⟩ := h
    intro k hk
    rcases Nat.lt_succ_iff_lt_or_eq.mp hk with hk | rfl
    · exact ih h1 k hk
    · exact (Block.read_eq_some.mp hread).1

/-- **`swap_out` returns exactly if a bit is clear, and the first such slot is on the device.** -/
theorem isSome_swapOut_iff : (sw.swapOut page).isSome ↔
    (∃ i < sw.bitmap.size, sw.bitmap.bit i = false) ∧
      ∀ i, sw.bitmap.scan 0 1 false = some (some i) → 8 * i + 8 ≤ sw.block.size := by
  constructor
  · intro h
    obtain ⟨r, h⟩ := isSome_iff_exists.mp h
    simp only [swapOut, bind_eq_some, Prod.exists] at h
    obtain ⟨idx, bitmap, hscan, i, rfl, block, hblock, -⟩ := h
    obtain ⟨-, hle, -, hold, -⟩ := Bitmap.scanAndFlip_spec hscan
    refine ⟨⟨i, hle, hold i (Nat.le_refl i) (Nat.lt_succ_self i)⟩, fun j hj ↦ ?_⟩
    obtain rfl : i = j :=
      some.inj (some.inj ((Bitmap.scan_of_scanAndFlip hscan).symm.trans hj))
    exact (size_writeSectors hblock).2 7 (by decide)
  · rintro ⟨hfree, hdevice⟩
    exact (swapOut_writes hdevice hfree).isSome

/-- **`swap_in`** reads what the slot holds, and frees it. -/
theorem swapIn_reads (hslot : 1 ≤ slot) (hle : slot ≤ sw.bitmap.size)
    (hdevice : 8 * slot ≤ sw.block.size) (kaddr : PageData) :
    Returns (sw.swapIn slot kaddr) fun r ↦ r.1.bitmap.size = sw.bitmap.size ∧ r.1.block = sw.block ∧
      (∀ i, r.1.bitmap.bit i = if i = slot - 1 then false else sw.bitmap.bit i) ∧
      ∀ page, Keeps sw.block slot page → ∀ o < pageBytes, r.2 o = page o := by
  obtain ⟨⟨bitmap, block⟩, page', hin, hpage⟩ :=
    swapIn_page kaddr hslot hle (by omega)
  refine ⟨_, hin, ?_⟩
  simp only [swapIn, bind_eq_some, assert_eq_some, pure_eq_some, Prod.mk.injEq, mk.injEq] at hin
  obtain ⟨-, -, _, -, _, hset, ⟨rfl, rfl⟩, rfl⟩ := hin
  obtain ⟨-, hsize, hbits⟩ := Bitmap.setMultiple_spec hset
  refine ⟨hsize, rfl, fun i ↦ ?_, fun page hkeeps o ho ↦ ?_⟩
  · rw [hbits]
    exact if_congr (by omega) rfl rfl
  · refine (hpage o ho).trans ?_
    rw [hkeeps _ (Nat.div_lt_of_lt_mul (Nat.mul_comm _ _ ▸ ho)), PageData.sector, Nat.div_add_mod]

/-- **`swap_in` returns exactly if the number is that of a bit, and the slot is on the device.** -/
theorem isSome_swapIn_iff {kaddr : PageData} : (sw.swapIn slot kaddr).isSome ↔
    (1 ≤ slot ∧ slot ≤ sw.bitmap.size) ∧ 8 * slot ≤ sw.block.size := by
  constructor
  · intro h
    obtain ⟨r, h⟩ := isSome_iff_exists.mp h
    simp only [swapIn, bind_eq_some, assert_eq_some] at h
    obtain ⟨-, hne, page, hread, bitmap, hset, -⟩ := h
    have hlast := size_readSectors hread 7 (by decide)
    have hbit := (Bitmap.setMultiple_spec hset).1
    omega
  · rintro ⟨⟨hslot, hle⟩, hdevice⟩
    exact (swapIn_reads hslot hle hdevice kaddr).isSome

/-- **`swap_clear`** frees the slot, and does not touch the device. -/
theorem swapClear_frees (hslot : 1 ≤ slot) (hle : slot ≤ sw.bitmap.size) :
    Returns (sw.swapClear slot) fun sw' ↦ sw'.bitmap.size = sw.bitmap.size ∧ sw'.block = sw.block ∧
      ∀ i, sw'.bitmap.bit i = if i = slot - 1 then false else sw.bitmap.bit i := by
  obtain ⟨bitmap, hset⟩ :=
    Bitmap.exists_setMultiple false (show slot - 1 + 1 ≤ sw.bitmap.size by omega)
  obtain ⟨-, hsize, hbits⟩ := Bitmap.setMultiple_spec hset
  refine ⟨⟨bitmap, sw.block⟩, ?_, hsize, rfl, fun i ↦ ?_⟩
  · rw [swapClear, if_neg (by omega), hset]
    rfl
  · rw [hbits]
    exact if_congr (by omega) rfl rfl

/-! ## Runs -/

/-- A call of one of the functions; `swap_in` gets a page that holds `kaddr`. -/
inductive Call where
  | out (page : PageData)
  | in (slot : Nat) (kaddr : PageData)
  | clear (slot : Nat)

/-- The swap area, and the slot numbers that are outstanding, each with the page that was
written. -/
structure State where
  swap : Swap
  outstanding : List (Nat × PageData)

namespace State

/-- A slot number is given back. -/
def giveBack (s : State) (slot : Nat) : List (Nat × PageData) :=
  s.outstanding.filter fun e ↦ e.1 ≠ slot

/-- The call. -/
def step (s : State) : Call → Option State
  | .out page => do
    let (swap, slot) ← s.swap.swapOut page
    return ⟨swap, (slot, page) :: s.outstanding⟩
  | .in slot kaddr => do
    let (swap, _) ← s.swap.swapIn slot kaddr
    return ⟨swap, s.giveBack slot⟩
  | .clear slot => do
    return ⟨← s.swap.swapClear slot, s.giveBack slot⟩

/-- A slot number that is used is outstanding. -/
def Proper (s : State) : Call → Prop
  | .out _ => True
  | .in slot _ | .clear slot => slot ∈ s.outstanding.map Prod.fst

instance (s : State) : ∀ c, Decidable (s.Proper c)
  | .out _ => isTrue trivial
  | .in slot _ | .clear slot =>
    inferInstanceAs (Decidable (slot ∈ s.outstanding.map Prod.fst))

/-- The outstanding slots are the bits that are set, and hold their pages. -/
structure Stores (s : State) (size : Nat) : Prop where
  size : s.swap.bitmap.size = size
  device : 8 * s.swap.bitmap.size ≤ s.swap.block.size
  nodup : (s.outstanding.map Prod.fst).Nodup
  slot : ∀ n ∈ s.outstanding.map Prod.fst, 1 ≤ n ∧ n ≤ s.swap.bitmap.size
  bits : ∀ i < s.swap.bitmap.size,
    s.swap.bitmap.bit i = true ↔ i + 1 ∈ s.outstanding.map Prod.fst
  keeps : ∀ e ∈ s.outstanding, Keeps s.swap.block e.1 e.2

variable {s s' : State} {size : Nat}

theorem mem_giveBack {n : Nat} :
    n ∈ (s.giveBack slot).map Prod.fst ↔ n ∈ s.outstanding.map Prod.fst ∧ n ≠ slot := by
  simp only [giveBack, List.mem_map, mem_filter, decide_eq_true_eq]
  constructor
  · rintro ⟨e, ⟨he, hne⟩, rfl⟩
    exact ⟨⟨e, he, rfl⟩, hne⟩
  · rintro ⟨⟨e, he, rfl⟩, hne⟩
    exact ⟨e, ⟨he, hne⟩, rfl⟩

/-- A slot is freed, in the bitmap and among the outstanding ones. -/
theorem Stores.giveBack (h : s.Stores size) (hslot : slot ∈ s.outstanding.map Prod.fst)
    (hsize : sw.bitmap.size = s.swap.bitmap.size) (hblock : sw.block = s.swap.block)
    (hbits : ∀ i, sw.bitmap.bit i = if i = slot - 1 then false else s.swap.bitmap.bit i) :
    Stores ⟨sw, s.giveBack slot⟩ size := by
  obtain ⟨hpos, -⟩ := h.slot slot hslot
  refine ⟨hsize.trans h.size, ?_, ?_, fun n hn ↦ ?_, fun i hi ↦ ?_, fun e he ↦ ?_⟩
  · rw [hsize, hblock]
    exact h.device
  · exact h.nodup.sublist ((filter_sublist).map _)
  · rw [hsize]
    exact h.slot n (mem_giveBack.mp hn).1
  · rw [mem_giveBack, hbits]
    split
    · simp
      omega
    · rw [h.bits i (hsize ▸ hi)]
      exact ⟨fun hmem ↦ ⟨hmem, by omega⟩, And.left⟩
  · rw [hblock]
    exact h.keeps e (mem_filter.mp he).1

/-- If not all slots are outstanding, a bit is clear. -/
theorem Stores.exists_free (h : s.Stores size) (hlt : s.outstanding.length < size) :
    ∃ i < s.swap.bitmap.size, s.swap.bitmap.bit i = false := by
  by_contra hall
  push Not at hall
  have hsub : (range s.swap.bitmap.size).map (· + 1) ⊆ s.outstanding.map Prod.fst := by
    intro n hn
    obtain ⟨i, hi, rfl⟩ := mem_map.mp hn
    rw [mem_range] at hi
    exact (h.bits i hi).mp (by simpa using hall i hi)
  have hnodup : ((range s.swap.bitmap.size).map (· + 1)).Nodup :=
    Nodup.map (fun a b hab ↦ Nat.succ.inj hab) nodup_range
  have hle := (Nodup.subperm hnodup hsub).length_le
  simp only [length_map, length_range, h.size] at hle
  omega

/-- All slots are on the device. -/
theorem Stores.on_device (h : s.Stores size) (i : Nat)
    (hi : s.swap.bitmap.scan 0 1 false = some (some i)) : 8 * i + 8 ≤ s.swap.block.size := by
  have hle := (Bitmap.scan_spec hi).2.1
  have := h.device
  omega

theorem Stores.step {c : Call} (h : s.Stores size) (hc : s.Proper c)
    (hstep : s.step c = some s') : s'.Stores size := by
  cases c with
  | out page =>
    simp only [State.step, bind_eq_some, pure_eq_some, Prod.exists] at hstep
    obtain ⟨swap, slot, hout, rfl⟩ := hstep
    obtain ⟨hsize, hbsize, hpos, hle, hfree, hbits, hkeep, hother⟩ :=
      (swapOut_writes h.on_device (isSome_swapOut_iff.mp (by rw [hout]; rfl)).1).of_eq hout
    dsimp only at hsize hbsize hpos hle hfree hbits hkeep hother
    have hnew : slot ∉ s.outstanding.map Prod.fst := by
      intro hmem
      rw [← Nat.sub_add_cancel hpos, ← h.bits (slot - 1) (by omega), hfree] at hmem
      cases hmem
    refine ⟨hsize.trans h.size, ?_, nodup_cons.mpr ⟨hnew, h.nodup⟩, fun n hn ↦ ?_,
      fun i hi ↦ ?_, fun e he ↦ ?_⟩
    · dsimp only
      rw [hsize, hbsize]
      exact h.device
    · dsimp only
      rw [hsize]
      rcases mem_cons.mp hn with rfl | hn
      · exact ⟨hpos, hle⟩
      · exact h.slot n hn
    · dsimp only at hi ⊢
      rw [hbits, map_cons, mem_cons]
      by_cases heq : i = slot - 1
      · rw [if_pos heq]
        exact iff_of_true rfl (.inl (by dsimp only; omega))
      · rw [if_neg heq, h.bits i (hsize ▸ hi)]
        exact (or_iff_right (by dsimp only; omega)).symm
    · rcases mem_cons.mp he with rfl | he
      · exact hkeep
      · have hmem : e.1 ∈ s.outstanding.map Prod.fst := mem_map_of_mem he
        exact hother e.1 e.2 (h.slot _ hmem).1 (fun heq ↦ hnew (heq ▸ hmem)) (h.keeps e he)
  | «in» slot kaddr =>
    obtain ⟨hpos, hle⟩ := h.slot slot hc
    have hdevice := h.device
    obtain ⟨⟨swap, _⟩, hin, hsize, hblock, hbits, -⟩ := swapIn_reads hpos hle (by omega) kaddr
    simp only [State.step, hin, some_bind, pure_eq_some] at hstep
    exact hstep ▸ h.giveBack hc hsize hblock hbits
  | clear slot =>
    obtain ⟨hpos, hle⟩ := h.slot slot hc
    obtain ⟨swap, hclear, hsize, hblock, hbits⟩ := swapClear_frees hpos hle
    simp only [State.step, hclear, some_bind, pure_eq_some] at hstep
    exact hstep ▸ h.giveBack hc hsize hblock hbits

theorem stores_init (h : 8 * size ≤ block.size) : Stores ⟨init size block, []⟩ size :=
  ⟨rfl, h, nodup_nil, by simp, by simp [init, Bitmap.create], by simp⟩

end State

open State in
/-- **The swap area is a store.**  On a device that has eight sectors for each bit, after any calls
that use outstanding slot numbers only: these are distinct and not 0, and the bits that are set are
theirs.  Each can be read, which gives the page that was written for it, or cleared; and if there
are fewer than there are bits, `swap_out` finds a slot. -/
theorem store_faithful {size : Nat} {calls : List Call} {s : State}
    (hdevice : 8 * size ≤ block.size)
    (hproper : Run.Meets State.step Proper ⟨init size block, []⟩ calls)
    (hrun : Run.run State.step ⟨init size block, []⟩ calls = some s) :
    (s.outstanding.map Prod.fst).Nodup ∧ (∀ slot ∈ s.outstanding.map Prod.fst, slot ≠ 0) ∧
    (∀ i, s.swap.bitmap.test i = some true ↔ i + 1 ∈ s.outstanding.map Prod.fst) ∧
    (∀ slot page kaddr, (slot, page) ∈ s.outstanding →
      Returns (s.swap.swapIn slot kaddr) fun r ↦ ∀ o < pageBytes, r.2 o = page o) ∧
    (∀ slot ∈ s.outstanding.map Prod.fst, (s.swap.swapClear slot).isSome) ∧
    (s.outstanding.length < size → ∀ page, (s.swap.swapOut page).isSome) := by
  have h : s.Stores size :=
    Run.invariant (I := fun s ↦ s.Stores size) (fun _ _ _ h hc hstep ↦ h.step hc hstep)
      (stores_init hdevice) hproper hrun
  refine ⟨h.nodup, fun slot hslot ↦ ?_, fun i ↦ ?_, fun slot page kaddr hmem ↦ ?_,
    fun slot hslot ↦ ?_, fun hlt page ↦ ?_⟩
  · have := (h.slot slot hslot).1
    omega
  · rw [Bitmap.test_eq_some]
    constructor
    · rintro ⟨hi, hbit⟩
      exact (h.bits i hi).mp hbit
    · intro hmem
      have hi := (h.slot _ hmem).2
      exact ⟨hi, (h.bits i hi).mpr hmem⟩
  · obtain ⟨hpos, hle⟩ := h.slot slot (List.mem_map_of_mem hmem)
    have hdevice := h.device
    exact (swapIn_reads hpos hle (by omega) kaddr).mono fun r hr ↦ hr.2.2.2 page (h.keeps _ hmem)
  · obtain ⟨hpos, hle⟩ := h.slot slot hslot
    exact (swapClear_frees hpos hle).isSome
  · exact isSome_swapOut_iff.mpr ⟨h.exists_free hlt, h.on_device⟩

/-- Two pages are written; the first slot is read, which frees it, and taken for a third page, and
the second slot is cleared. -/
def reuse : List Call := [.out fun _ ↦ 7, .out fun _ ↦ 8, .in 1 fun _ ↦ 0, .out fun _ ↦ 9, .clear 2]

theorem store_faithful_reuse : ∃ s : State,
    Run.run State.step ⟨init 2 ⟨16, fun _ _ ↦ 0⟩, []⟩ reuse = some s ∧
    s.outstanding.map Prod.fst = [1] ∧
    ∀ kaddr, Returns (s.swap.swapIn 1 kaddr) fun r ↦ ∀ o < pageBytes, r.2 o = 9 := by
  obtain ⟨s, hs, hslot⟩ : ∃ s, Run.run State.step ⟨init 2 ⟨16, fun _ _ ↦ 0⟩, []⟩ reuse = some s ∧
      s.outstanding = [(1, fun _ ↦ 9)] := ⟨_, rfl, rfl⟩
  refine ⟨s, hs, by rw [hslot]; rfl, fun kaddr ↦ ?_⟩
  obtain ⟨-, -, -, hin, -⟩ := store_faithful (by decide) (by decide +kernel) hs
  exact hin 1 _ kaddr (by rw [hslot]; exact mem_singleton_self _)

/-! ## The size of the device -/

/-- `swap_init (8 * 1024)`, which `main` calls. -/
def mainInit (block : Block) : Swap := init (8 * 1024) block

/-- A bit is clear, or the slot number belongs to a bit: what a call needs on any device. -/
def State.Valid (s : State) : Call → Prop
  | .out _ => ∃ i < s.swap.bitmap.size, s.swap.bitmap.bit i = false
  | .in slot _ => 1 ≤ slot ∧ slot ≤ s.swap.bitmap.size
  | .clear slot => slot ≤ s.swap.bitmap.size

/-- Some slot that fits on the device is free, or all slots fit; and a slot that is read does. -/
def Fits (s : State) : Call → Prop
  | .out _ => 8 * s.swap.bitmap.size ≤ s.swap.block.size ∨
    ∃ i < s.swap.bitmap.size, 8 * i + 8 ≤ s.swap.block.size ∧ s.swap.bitmap.bit i = false
  | .in slot _ => 8 * slot ≤ s.swap.block.size
  | .clear _ => True

theorem isSome_swapClear_iff : (sw.swapClear slot).isSome ↔ slot ≤ sw.bitmap.size := by
  by_cases hslot : slot = 0
  · simp [swapClear, hslot]
  constructor
  · intro h
    obtain ⟨sw', h⟩ := isSome_iff_exists.mp h
    simp only [swapClear, hslot, if_false, bind_eq_some] at h
    obtain ⟨bitmap, hset, -⟩ := h
    have hbit := (Bitmap.setMultiple_spec hset).1
    omega
  · exact fun hle ↦ (swapClear_frees (Nat.one_le_iff_ne_zero.mpr hslot) hle).isSome

/-- A call that fits on the device returns exactly if it does so on any device. -/
theorem State.isSome_step_iff {s : State} {c : Call} (h : Fits s c) :
    (s.step c).isSome ↔ s.Valid c := by
  cases c with
  | out page =>
    have hdevice : ∀ i, s.swap.bitmap.scan 0 1 false = some (some i) →
        8 * i + 8 ≤ s.swap.block.size := by
      intro i hscan
      obtain ⟨-, hle, -⟩ := Bitmap.scan_spec hscan
      rcases h with h | ⟨j, hj, hfits, hbit⟩
      · omega
      · have hij : i ≤ j := Bitmap.le_of_scan hscan (Nat.zero_le j) hj fun k h1 h2 ↦ by
          obtain rfl : k = j := by omega
          exact hbit
        omega
    have hstep : (s.step (.out page)).isSome = (s.swap.swapOut page).isSome := by
      cases hout : s.swap.swapOut page <;> simp [State.step, hout]
    rw [hstep, isSome_swapOut_iff]
    exact and_iff_left hdevice
  | «in» slot kaddr =>
    have hstep : (s.step (.in slot kaddr)).isSome = (s.swap.swapIn slot kaddr).isSome := by
      cases hin : s.swap.swapIn slot kaddr <;> simp [State.step, hin]
    rw [hstep, isSome_swapIn_iff]
    exact and_iff_left h
  | clear slot =>
    have hstep : (s.step (.clear slot)).isSome = (s.swap.swapClear slot).isSome := by
      cases hclear : s.swap.swapClear slot <;> simp [State.step, hclear]
    rw [hstep]
    exact isSome_swapClear_iff

/-- A call changes neither the number of bits nor the size of the device. -/
theorem State.size_step {s s' : State} {c : Call} (h : s.step c = some s') :
    s'.swap.bitmap.size = s.swap.bitmap.size ∧ s'.swap.block.size = s.swap.block.size := by
  cases c with
  | out page =>
    simp only [State.step, swapOut, bind_eq_some, pure_eq_some, Prod.exists, Prod.mk.injEq] at h
    obtain ⟨swap, slot, ⟨idx, bitmap, hscan, i, rfl, block, hblock, rfl, rfl⟩, rfl⟩ := h
    exact ⟨(Bitmap.scanAndFlip_spec hscan).2.2.1, (size_writeSectors hblock).1⟩
  | «in» slot kaddr =>
    simp only [State.step, swapIn, bind_eq_some, pure_eq_some, Prod.exists, Prod.mk.injEq] at h
    obtain ⟨swap, _, ⟨-, -, _, -, bitmap, hset, rfl, -⟩, rfl⟩ := h
    exact ⟨(Bitmap.setMultiple_spec hset).2.1, rfl⟩
  | clear slot =>
    simp only [State.step, swapClear, bind_eq_some, pure_eq_some] at h
    obtain ⟨swap, hclear, rfl⟩ := h
    split at hclear
    · obtain rfl := some.inj hclear
      exact ⟨rfl, rfl⟩
    · simp only [bind_eq_some, pure_eq_some] at hclear
      obtain ⟨bitmap, hset, rfl⟩ := hclear
      exact ⟨(Bitmap.setMultiple_spec hset).2.1, rfl⟩

/-- **When swapping stays on the device.**  If all slots fit on the device, or whenever a page is
written some slot that does is free, and only slots on the device are read, then `check_sector`
never panics: a call returns whenever a bit is clear, or the number is that of a slot.  When all
slots that fit are in use, no further slot is handed out. -/
theorem swap_stays_on_device {calls : List Call} {s : State} {c : Call}
    (hfits : Run.Meets State.step Fits ⟨mainInit block, []⟩ calls)
    (hrun : Run.run State.step ⟨mainInit block, []⟩ calls = some s) (hc : Fits s c) :
    ((s.step c).isSome ↔ s.Valid c) ∧
      ((∀ i < 8 * 1024, 8 * i + 8 ≤ block.size → s.swap.bitmap.bit i = true) →
        ∀ page, c = .out page → s.swap.swapOut page = none) := by
  obtain ⟨hbits, hblock⟩ : s.swap.bitmap.size = 8 * 1024 ∧ s.swap.block.size = block.size :=
    Run.invariant (I := fun s ↦ s.swap.bitmap.size = 8 * 1024 ∧ s.swap.block.size = block.size)
      (fun _ _ _ h _ hstep ↦ ⟨(State.size_step hstep).1.trans h.1,
        (State.size_step hstep).2.trans h.2⟩) ⟨rfl, rfl⟩ hfits hrun
  refine ⟨State.isSome_step_iff hc, ?_⟩
  rintro hused page rfl
  rw [← not_isSome_iff_eq_none]
  intro hsome
  obtain ⟨i, hi, hfree⟩ := (isSome_swapOut_iff.mp hsome).1
  rw [hbits] at hi
  rcases hc with hall | ⟨j, hj, hle, hbit⟩
  · rw [hused i hi (by omega)] at hfree
    cases hfree
  · rw [hused j (by omega) (by omega)] at hbit
    cases hbit

/-- A device with room for two pages.  The first slot is cleared before a third page is written. -/
theorem swap_stays_on_device_two : ∃ s, Run.run State.step ⟨mainInit ⟨16, fun _ _ ↦ 0⟩, []⟩
      [.out fun _ ↦ 1, .out fun _ ↦ 2, .clear 1] = some s ∧ (s.step (.out fun _ ↦ 3)).isSome := by
  obtain ⟨s, hs, hsize, hblock, hbit⟩ : ∃ s, Run.run State.step ⟨mainInit ⟨16, fun _ _ ↦ 0⟩, []⟩
      [.out fun _ ↦ 1, .out fun _ ↦ 2, .clear 1] = some s ∧ s.swap.bitmap.size = 8 * 1024 ∧
      s.swap.block.size = 16 ∧ s.swap.bitmap.bit 0 = false := ⟨_, rfl, rfl, rfl, rfl⟩
  have hfits : Run.Meets State.step Fits ⟨mainInit ⟨16, fun _ _ ↦ 0⟩, []⟩
      [.out fun _ ↦ 1, .out fun _ ↦ 2, .clear 1] := by
    refine ⟨.inr ⟨0, by decide, by decide, rfl⟩, ?_⟩
    rintro s1 ⟨⟩
    refine ⟨.inr ⟨1, by decide, by decide, rfl⟩, ?_⟩
    rintro s2 ⟨⟩
    exact ⟨trivial, fun _ _ ↦ trivial⟩
  refine ⟨s, hs, (swap_stays_on_device hfits hs (c := .out fun _ ↦ 3) ?_).1.mpr ?_⟩
  · exact .inr ⟨0, by omega, by omega, hbit⟩
  · exact ⟨0, by omega, hbit⟩

/-- **The swap area need not fit on the device.**  On a device with room for one page, a second page
goes to slot 1, whose first sector is past the end. -/
theorem swapOut_past_end :
    ∃ s, Run.run State.step ⟨mainInit ⟨8, fun _ _ ↦ 0⟩, []⟩ [.out fun _ ↦ 1] = some s ∧
      s.Valid (.out fun _ ↦ 2) ∧ s.swap.bitmap.scan 0 1 false = some (some 1) ∧
      (∀ sector, s.swap.block.write 8 sector = none) ∧ s.step (.out fun _ ↦ 2) = none :=
  ⟨_, rfl, ⟨1, by decide, rfl⟩, rfl, fun _ ↦ rfl, rfl⟩

end Swap

end Pintos
