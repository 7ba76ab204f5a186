import Pintos.Devices.Block

/-!
# The swap area

`vm/swap.c`.  The swap area is a bitmap with one bit a slot and a block device on which slot `i`
occupies the eight sectors from `8 * i`.  The numbers handed out by `swap_out` are one more than
the slot, so that 0 can stand for "no slot"; `swap_in` and `swap_clear` subtract the one again.

Each function runs under `swap_lock` from its first to its last access to the bitmap, so it is one
step here.
-/

set_option autoImplicit false

namespace Pintos

/-- The bytes of a page, by offset. -/
abbrev PageData := Nat → UInt8

/-- The `i`-th sector of a page, at `kaddr + BLOCK_SECTOR_SIZE * i`. -/
def PageData.sector (page : PageData) (i : Nat) : Sector :=
  fun o ↦ page (blockSectorSize * i + o)

/-- The swap area: `swap_bitmap` and the device with role `BLOCK_SWAP`. -/
structure Swap where
  bitmap : Bitmap
  block : Block

namespace Swap

/-- `swap_init`, on the swap device `block`. -/
def init (size : Nat) (block : Block) : Swap := ⟨Bitmap.create size, block⟩

/-- The first `n` of the `block_write`s of `swap_out`, to the sectors from `base`. -/
def writeSectors (block : Block) (base : Nat) (page : PageData) : Nat → Kernel Block
  | 0 => some block
  | n + 1 => do
    let block' ← writeSectors block base page n
    block'.write (base + n) (page.sector n)

/-- The first `n` of the `block_read`s of `swap_in`, into a page that holds `page`. -/
def readSectors (block : Block) (base : Nat) (page : PageData) : Nat → Kernel PageData
  | 0 => some page
  | n + 1 => do
    let page' ← readSectors block base page n
    let sector ← block.read (base + n)
    return fun o ↦ if o / blockSectorSize = n then sector (o % blockSectorSize) else page' o

/-- `swap_out`: the slot number it returns is one more than the index of the bit. -/
def swapOut (sw : Swap) (page : PageData) : Kernel (Swap × Nat) := do
  let (swapIndex, bitmap) ← sw.bitmap.scanAndFlip 0 1 false
  -- `BITMAP_ERROR` runs into `NOT_REACHED ()`.
  let swapIndex ← swapIndex
  let block ← writeSectors sw.block (8 * swapIndex) page 8
  return (⟨bitmap, block⟩, swapIndex + 1)

/-- `swap_in`, into a page that holds `page`. -/
def swapIn (sw : Swap) (usedIndex : Nat) (page : PageData) : Kernel (Swap × PageData) := do
  assert (usedIndex ≠ 0)
  let page ← readSectors sw.block (8 * (usedIndex - 1)) page 8
  let bitmap ← sw.bitmap.setMultiple (usedIndex - 1) 1 false
  return (⟨bitmap, sw.block⟩, page)

/-- `swap_clear`. -/
def swapClear (sw : Swap) (usedIndex : Nat) : Kernel Swap :=
  if usedIndex = 0 then some sw
  else do
    let bitmap ← sw.bitmap.setMultiple (usedIndex - 1) 1 false
    return ⟨bitmap, sw.block⟩

/-! ## The bit of a slot number -/

/-- The bit that belongs to a slot number is set. -/
def InUse (sw : Swap) (slot : Nat) : Prop := sw.bitmap.test (slot - 1) = some true

instance (sw : Swap) (slot : Nat) : Decidable (sw.InUse slot) :=
  inferInstanceAs (Decidable (sw.bitmap.test (slot - 1) = some true))

variable {sw sw' : Swap} {slot : Nat} {page page' : PageData}

/-- **`swap_out` takes a slot that was free, and touches no other bit.** -/
theorem swapOut_spec (h : sw.swapOut page = some (sw', slot)) :
    1 ≤ slot ∧ ¬ sw.InUse slot ∧ sw'.InUse slot ∧
      ∀ n, 1 ≤ n → n ≠ slot → (sw'.InUse n ↔ sw.InUse n) := by
  simp only [swapOut, bind_eq_some, Prod.exists, pure_eq_some, Prod.mk.injEq] at h
  obtain ⟨idx, bitmap, hscan, i, rfl, block, -, rfl, rfl⟩ := h
  obtain ⟨-, hle, hsize, hold, hnew⟩ := Bitmap.scanAndFlip_spec hscan
  simp only [InUse, Bitmap.test_eq_some, Nat.add_sub_cancel, hsize]
  refine ⟨by omega, ?_, ?_, fun n hn hne ↦ ?_⟩
  · rw [hold i (by omega) (by omega)]
    simp
  · rw [hnew i, if_pos (by omega)]
    exact ⟨by omega, rfl⟩
  · rw [hnew, if_neg (by omega)]

theorem clear_bit {bitmap : Bitmap} (hslot : 1 ≤ slot)
    (h : sw.bitmap.setMultiple (slot - 1) 1 false = some bitmap) (block : Block) :
    ∀ n, 1 ≤ n → (InUse ⟨bitmap, block⟩ n ↔ n ≠ slot ∧ sw.InUse n) := by
  intro n hn
  obtain ⟨-, hsize, hbits⟩ := Bitmap.setMultiple_spec h
  simp only [InUse, Bitmap.test_eq_some, hsize, hbits]
  by_cases hns : n = slot
  · subst hns
    rw [if_pos (by omega)]
    simp
  · rw [if_neg (by omega)]
    simp [hns]

/-- **`swap_in` frees the slot it reads, and touches no other bit.** -/
theorem swapIn_spec (h : sw.swapIn slot page = some (sw', page')) :
    1 ≤ slot ∧ ∀ n, 1 ≤ n → (sw'.InUse n ↔ n ≠ slot ∧ sw.InUse n) := by
  simp only [swapIn, bind_eq_some, assert_eq_some, pure_eq_some, Prod.mk.injEq] at h
  obtain ⟨_, hne, _, -, bitmap, hset, rfl, -⟩ := h
  exact ⟨by omega, clear_bit (by omega) hset _⟩

/-- **`swap_clear` frees the slot it is given, and touches no other bit.**  On the number 0 it
does nothing. -/
theorem swapClear_spec (h : sw.swapClear slot = some sw') :
    ∀ n, 1 ≤ n → (sw'.InUse n ↔ n ≠ slot ∧ sw.InUse n) := by
  rw [swapClear] at h
  split at h
  · rename_i hslot
    rw [Option.some_inj] at h
    subst h hslot
    intro n hn
    exact ⟨fun h ↦ ⟨by omega, h⟩, fun h ↦ h.2⟩
  · simp only [bind_eq_some, pure_eq_some] at h
    obtain ⟨bitmap, hset, rfl⟩ := h
    exact clear_bit (by omega) hset _

/-! ## The contents of a slot -/

/-- The `block_read`s of `swap_in` fill the page with the sectors of the slot. -/
theorem readSectors_eq {block : Block} {base n : Nat} (h : base + n ≤ block.size) :
    readSectors block base page n = some fun o ↦
      if o / blockSectorSize < n then block.data (base + o / blockSectorSize) (o % blockSectorSize)
      else page o := by
  induction n with
  | zero => simp [readSectors]
  | succ n ih =>
    have hread : block.read (base + n) = some (block.data (base + n)) :=
      Block.read_eq_some.mpr ⟨by omega, rfl⟩
    rw [readSectors, ih (by omega)]
    simp only [some_bind, hread, pure_eq_some]
    funext o
    rcases Nat.lt_trichotomy (o / blockSectorSize) n with hlt | heq | hgt
    · rw [if_neg (by omega), if_pos hlt, if_pos (by omega)]
    · rw [if_pos heq, if_pos (by omega), heq]
    · rw [if_neg (by omega), if_neg (by omega), if_neg (by omega)]

/-- **`swap_in` brings back what the slot holds.** -/
theorem swapIn_page (page : PageData) (hslot : 1 ≤ slot) (hbit : slot ≤ sw.bitmap.size)
    (hblock : 8 * (slot - 1) + 8 ≤ sw.block.size) :
    ∃ sw' page', sw.swapIn slot page = some (sw', page') ∧ ∀ o < 8 * blockSectorSize,
      page' o = sw.block.data (8 * (slot - 1) + o / blockSectorSize) (o % blockSectorSize) := by
  obtain ⟨bitmap, hset⟩ :=
    Bitmap.exists_setMultiple false (show slot - 1 + 1 ≤ sw.bitmap.size by omega)
  have hin : sw.swapIn slot page = some (⟨bitmap, sw.block⟩, fun o ↦
      if o / blockSectorSize < 8 then
        sw.block.data (8 * (slot - 1) + o / blockSectorSize) (o % blockSectorSize)
      else page o) := by
    simp only [swapIn, bind_eq_some, assert_eq_some, pure_eq_some]
    exact ⟨(), by omega, _, readSectors_eq hblock, bitmap, hset, rfl⟩
  refine ⟨_, _, hin, fun o ho ↦ if_pos ?_⟩
  rw [Nat.div_lt_iff_lt_mul (by decide)]
  exact ho

end Swap

end Pintos
