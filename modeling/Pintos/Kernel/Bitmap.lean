import Mathlib

/-!
# Bitmaps

The bit-level meaning of `lib/kernel/bitmap.c`.  A bitmap is its size and the value of
each bit; the packing of the bits into words of type `elem_type` is not visible through the
functions used here.

A function of the kernel that can fail an `ASSERT`, reach a `NOT_REACHED ()` or call `PANIC`
returns a `Kernel` value: `none` is the panic, after which nothing runs any more.  The constant
`BITMAP_ERROR` that `bitmap_scan` returns when there is no group of bits is `none` one level
further in.
-/

set_option autoImplicit false

namespace Pintos

open Option

/-- The result of kernel code: `none` is a kernel panic. -/
abbrev Kernel (α : Type) := Option α

/-- `ASSERT`. -/
def assert (p : Prop) [Decidable p] : Kernel Unit := if p then some () else none

theorem assert_eq_some {p : Prop} [Decidable p] {u : Unit} : assert p = some u ↔ p := by
  unfold assert; split <;> simp_all

section

variable {α β : Type} {m : Kernel α} {f : α → Kernel β} {a a' : α} {b : β}

theorem bind_eq_some : (m >>= f) = some b ↔ ∃ a, m = some a ∧ f a = some b :=
  bind_eq_some_iff

@[grind →] theorem of_bind_eq_some (h : (m >>= f) = some b) : ∃ a, m = some a ∧ f a = some b :=
  bind_eq_some.mp h

theorem some_bind : (some a >>= f) = f a :=
  rfl

theorem pure_eq_some : (pure a : Kernel α) = some a' ↔ a = a' :=
  some_inj

end

/-- `struct bitmap`. -/
structure Bitmap where
  /-- `bit_cnt`. -/
  size : Nat
  /-- The value of each bit below `size`. -/
  bit : Nat → Bool

variable {i : Nat}

namespace Bitmap

/-- `bitmap_create`, for a `malloc` that succeeds: every bit is false. -/
def create (bitCnt : Nat) : Bitmap := ⟨bitCnt, fun _ ↦ false⟩

/-- `bitmap_test`. -/
def test (b : Bitmap) (idx : Nat) : Kernel Bool := do
  assert (idx < b.size)
  return b.bit idx

/-- `bitmap_set`. -/
def set (b : Bitmap) (idx : Nat) (value : Bool) : Kernel Bitmap := do
  assert (idx < b.size)
  return ⟨b.size, Function.update b.bit idx value⟩

/-- The loop of `bitmap_set_multiple` after `n` rounds. -/
def setFrom (b : Bitmap) (start : Nat) (value : Bool) : Nat → Kernel Bitmap
  | 0 => some b
  | n + 1 => do
    let b' ← setFrom b start value n
    b'.set (start + n) value

/-- `bitmap_set_multiple`. -/
def setMultiple (b : Bitmap) (start cnt : Nat) (value : Bool) : Kernel Bitmap := do
  assert (start ≤ b.size)
  assert (start + cnt ≤ b.size)
  b.setFrom start value cnt

/-- `bitmap_contains`. -/
def contains (b : Bitmap) (start cnt : Nat) (value : Bool) : Kernel Bool := do
  assert (start ≤ b.size)
  assert (start + cnt ≤ b.size)
  return (List.range cnt).any fun i ↦ b.bit (start + i) == value

/-- `bitmap_all`. -/
def all (b : Bitmap) (start cnt : Nat) : Kernel Bool := do
  let c ← b.contains start cnt false
  return !c

/-- `bitmap_scan`: the inner `none` is `BITMAP_ERROR`. -/
def scan (b : Bitmap) (start cnt : Nat) (value : Bool) : Kernel (Option Nat) := do
  assert (start ≤ b.size)
  if cnt ≤ b.size then
    return (List.range' start (b.size - cnt + 1 - start)).find? fun i ↦
      b.contains i cnt (!value) == some false
  else
    return none

/-- `bitmap_scan_and_flip`. -/
def scanAndFlip (b : Bitmap) (start cnt : Nat) (value : Bool) : Kernel (Option Nat × Bitmap) := do
  let idx ← b.scan start cnt value
  match idx with
  | some i => return (some i, ← b.setMultiple i cnt (!value))
  | none => return (none, b)

/-! ## What the functions do to the bits -/

variable {b b' : Bitmap} {start cnt idx : Nat} {value : Bool}

theorem test_eq_some {idx : Nat} {x : Bool} :
    b.test idx = some x ↔ idx < b.size ∧ b.bit idx = x := by
  simp only [test, bind_eq_some, assert_eq_some, pure_eq_some, exists_const]

theorem set_eq_some : b.set idx value = some b' ↔
    idx < b.size ∧ ⟨b.size, Function.update b.bit idx value⟩ = b' := by
  simp only [set, bind_eq_some, assert_eq_some, pure_eq_some, exists_const]

theorem setFrom_spec {n : Nat} (h : b.setFrom start value n = some b') :
    b'.size = b.size ∧ ∀ i, b'.bit i = if start ≤ i ∧ i < start + n then value else b.bit i := by
  induction n generalizing b' with
  | zero =>
    rw [setFrom, some_inj] at h
    subst h
    refine ⟨rfl, fun i ↦ ?_⟩
    rw [if_neg (by omega)]
  | succ n ih =>
    simp only [setFrom, bind_eq_some] at h
    obtain ⟨c, hc, h⟩ := h
    obtain ⟨hlt, rfl⟩ := set_eq_some.mp h
    obtain ⟨hsize, hbits⟩ := ih hc
    refine ⟨hsize, fun i ↦ ?_⟩
    dsimp only
    by_cases hi : i = start + n
    · subst hi
      rw [Function.update_self, if_pos (by omega)]
    · rw [Function.update_of_ne hi, hbits i]
      by_cases hin : start ≤ i ∧ i < start + n
      · rw [if_pos hin, if_pos (by omega)]
      · rw [if_neg hin, if_neg (by omega)]

/-- **`bitmap_set_multiple` sets exactly the bits it is asked to set.** -/
theorem setMultiple_spec (h : b.setMultiple start cnt value = some b') :
    start + cnt ≤ b.size ∧ b'.size = b.size ∧
      ∀ i, b'.bit i = if start ≤ i ∧ i < start + cnt then value else b.bit i := by
  simp only [setMultiple, bind_eq_some, assert_eq_some] at h
  obtain ⟨_, _, _, hle, h⟩ := h
  exact ⟨hle, setFrom_spec h⟩

/-- `bitmap_set_multiple` does not panic on bits that are there. -/
theorem exists_setFrom (value : Bool) (h : start + cnt ≤ b.size) :
    ∃ b', b.setFrom start value cnt = some b' := by
  induction cnt with
  | zero => exact ⟨b, rfl⟩
  | succ n ih =>
    obtain ⟨b1, hb1⟩ := ih (by omega)
    have hsize := (setFrom_spec hb1).1
    refine ⟨_, bind_eq_some_iff.mpr ⟨b1, hb1, set_eq_some.mpr ⟨by omega, rfl⟩⟩⟩

theorem exists_setMultiple (value : Bool) (h : start + cnt ≤ b.size) :
    ∃ b', b.setMultiple start cnt value = some b' := by
  obtain ⟨b', hb'⟩ := exists_setFrom value h
  refine ⟨b', ?_⟩
  simp only [setMultiple, bind_eq_some, assert_eq_some]
  exact ⟨(), by omega, (), h, hb'⟩

theorem contains_eq_false (h : b.contains start cnt value = some false) :
    start + cnt ≤ b.size ∧ ∀ i, start ≤ i → i < start + cnt → b.bit i = !value := by
  simp only [contains, bind_eq_some, assert_eq_some, pure_eq_some, List.any_eq_false] at h
  obtain ⟨_, _, _, hle, h⟩ := h
  refine ⟨hle, fun i h1 h2 ↦ ?_⟩
  have hne := h (i - start) (List.mem_range.mpr (by omega))
  cases hv : b.bit i <;> cases value <;> simp_all

/-- **What `bitmap_scan` returns is a group of the bits it looks for.** -/
theorem scan_spec (h : b.scan start cnt value = some (some i)) :
    start ≤ i ∧ i + cnt ≤ b.size ∧ ∀ j, i ≤ j → j < i + cnt → b.bit j = value := by
  simp only [scan, bind_eq_some, assert_eq_some] at h
  obtain ⟨_, _, h⟩ := h
  split at h
  · simp only [pure_def, some_inj] at h
    have hmem := List.mem_of_find?_eq_some h
    have hprop := List.find?_some h
    rw [beq_iff_eq] at hprop
    obtain ⟨hle, hbits⟩ := contains_eq_false hprop
    rw [List.mem_range'_1] at hmem
    exact ⟨hmem.1, hle, fun j h1 h2 ↦ by simpa using hbits j h1 h2⟩
  · simp at h

/-- **`bitmap_scan_and_flip` finds a group of bits equal to `value` and flips exactly those.** -/
theorem scanAndFlip_spec (h : b.scanAndFlip start cnt value = some (some i, b')) :
    start ≤ i ∧ i + cnt ≤ b.size ∧ b'.size = b.size ∧ (∀ j, i ≤ j → j < i + cnt → b.bit j = value) ∧
      ∀ j, b'.bit j = if i ≤ j ∧ j < i + cnt then !value else b.bit j := by
  simp only [scanAndFlip, bind_eq_some] at h
  obtain ⟨idx, hscan, h⟩ := h
  cases idx with
  | none => simp at h
  | some k =>
    simp only [bind_eq_some, pure_eq_some, some_inj, Prod.mk.injEq] at h
    obtain ⟨c, hset, rfl, rfl⟩ := h
    obtain ⟨h1, h2, h3⟩ := scan_spec hscan
    obtain ⟨-, hsize, hbits⟩ := setMultiple_spec hset
    exact ⟨h1, h2, hsize, h3, hbits⟩

theorem scanAndFlip_eq_none (h : b.scanAndFlip start cnt value = some (none, b')) : b' = b := by
  simp only [scanAndFlip, bind_eq_some] at h
  obtain ⟨idx, -, h⟩ := h
  cases idx with
  | none => simpa [eq_comm] using h
  | some k => simp [bind_eq_some_iff] at h

/-- `bitmap_scan_and_flip` does not panic. -/
theorem exists_scanAndFlip (cnt : Nat) (value : Bool) (h : start ≤ b.size) :
    ∃ r, b.scanAndFlip start cnt value = some r := by
  obtain ⟨idx, hidx⟩ : ∃ idx, b.scan start cnt value = some idx := by
    simp only [scan, assert, if_pos h]
    split <;> exact ⟨_, rfl⟩
  cases idx with
  | none => exact ⟨(none, b), by simp [scanAndFlip, hidx]⟩
  | some i =>
    obtain ⟨b', hb'⟩ := exists_setMultiple (!value) (scan_spec hidx).2.1
    exact ⟨(some i, b'), by simp [scanAndFlip, hidx, hb']⟩

/-- `bitmap_all`, of bits that are there and set. -/
theorem all_eq_true (h : start + cnt ≤ b.size)
    (hbits : ∀ i, start ≤ i → i < start + cnt → b.bit i = true) : b.all start cnt = some true := by
  simp only [all, contains, assert, if_pos h, if_pos (show start ≤ b.size by omega)]
  simp only [some_bind, pure_bind, pure_eq_some, Bool.not_eq_true', List.any_eq_false,
    List.mem_range]
  intro i hi
  rw [hbits (start + i) (by omega) (by omega)]
  decide

/-- What `bitmap_all` says. -/
theorem of_all_eq_true (h : b.all start cnt = some true) :
    start + cnt ≤ b.size ∧ ∀ i, start ≤ i → i < start + cnt → b.bit i = true := by
  simp only [all, bind_eq_some, pure_eq_some, Bool.not_eq_true'] at h
  obtain ⟨c, hc, rfl⟩ := h
  exact contains_eq_false hc

/-- **`bitmap_scan` fails only if there is no such group.** -/
theorem of_scan_eq_none (h : b.scan start cnt value = some none) (hi : start ≤ i)
    (hle : i + cnt ≤ b.size) : ∃ j, i ≤ j ∧ j < i + cnt ∧ b.bit j ≠ value := by
  simp only [scan, bind_eq_some, assert_eq_some] at h
  obtain ⟨-, -, h⟩ := h
  rw [if_pos (by omega), pure_def, some_inj, List.find?_eq_none] at h
  have hnot := h i (List.mem_range'_1.mpr (by omega))
  simp only [contains, assert, if_pos hle, if_pos (show i ≤ b.size by omega), some_bind, beq_iff_eq,
    pure_eq_some, Bool.not_eq_false, List.any_eq_true, List.mem_range] at hnot
  obtain ⟨j, hj, hbit⟩ := hnot
  refine ⟨i + j, by omega, by omega, ?_⟩
  rw [hbit]
  cases value <;> simp

/-- `contains` on bits that are there and all have the other value. -/
theorem contains_not_eq (h : start + cnt ≤ b.size)
    (hbits : ∀ i, start ≤ i → i < start + cnt → b.bit i = value) :
    b.contains start cnt (!value) = some false := by
  simp only [contains, assert, if_pos h, if_pos (show start ≤ b.size by omega)]
  simp only [some_bind, pure_eq_some, List.any_eq_false, List.mem_range]
  intro i hi
  rw [hbits (start + i) (by omega) (by omega)]
  cases value <;> decide

/-- A bit that is set is not in a group of clear ones. -/
theorem not_within (hclear : ∀ j, start ≤ j → j < start + cnt → b.bit j = false)
    (h : b.bit i = true) : ¬ (start ≤ i ∧ i < start + cnt) := by
  rintro ⟨hle, hlt⟩
  cases h.symm.trans (hclear i hle hlt)

/-- **`bitmap_scan` finds the first such group.** -/
theorem le_of_scan {j : Nat} (h : b.scan start cnt value = some (some i)) (hj : start ≤ j)
    (hle : j + cnt ≤ b.size) (hbits : ∀ k, j ≤ k → k < j + cnt → b.bit k = value) : i ≤ j := by
  simp only [scan, bind_eq_some, assert_eq_some] at h
  obtain ⟨_, _, h⟩ := h
  rw [if_pos (by omega), pure_def, some_inj, List.find?_range'_eq_some] at h
  by_contra hlt
  have hnot := h.2.2 j hj (by omega)
  rw [contains_not_eq hle hbits] at hnot
  cases hnot

theorem scan_of_scanAndFlip {i : Option Nat} (h : b.scanAndFlip start cnt value = some (i, b')) :
    b.scan start cnt value = some i := by
  simp only [scanAndFlip, bind_eq_some] at h
  obtain ⟨idx, hscan, h⟩ := h
  cases idx with
  | none =>
    cases h
    exact hscan
  | some k =>
    simp only [bind_eq_some, pure_eq_some, Prod.mk.injEq] at h
    obtain ⟨_, -, rfl, -⟩ := h
    exact hscan

end Bitmap

end Pintos
