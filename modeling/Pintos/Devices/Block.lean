import Pintos.Kernel.Bitmap

/-!
# Block devices

`block_read` and `block_write` of `devices/block.c`, over a device that is its size in sectors and
the contents of each sector.  `check_sector` panics on a sector past the end of the device; the
drivers below it are the identity on contents.
-/

set_option autoImplicit false

namespace Pintos

/-- `BLOCK_SECTOR_SIZE`. -/
abbrev blockSectorSize : Nat := 512

/-- The bytes of a sector, by offset. -/
abbrev Sector := Nat → UInt8

/-- `struct block`. -/
structure Block where
  /-- The size in sectors. -/
  size : Nat
  /-- What each sector holds. -/
  data : Nat → Sector

namespace Block

/-- `block_read`. -/
def read (b : Block) (sector : Nat) : Kernel Sector := do
  assert (sector < b.size)
  return b.data sector

/-- `block_write`. -/
def write (b : Block) (sector : Nat) (buffer : Sector) : Kernel Block := do
  assert (sector < b.size)
  return { b with data := Function.update b.data sector buffer }

variable {b b' : Block} {sector : Nat} {buffer : Sector}

theorem read_eq_some : b.read sector = some buffer ↔ sector < b.size ∧ b.data sector = buffer := by
  simp only [read, bind_eq_some, assert_eq_some, pure_eq_some, exists_const]

theorem write_eq_some : b.write sector buffer = some b' ↔
    sector < b.size ∧ { b with data := Function.update b.data sector buffer } = b' := by
  simp only [write, bind_eq_some, assert_eq_some, pure_eq_some, exists_const]

end Block

end Pintos
