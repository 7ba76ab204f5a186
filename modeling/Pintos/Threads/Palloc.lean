import Pintos.Kernel.Bitmap
import Pintos.Logic.Run

/-!
# The page allocator

`threads/palloc.c`.  The memory from 1 MB to the end of RAM is divided into two pools, one for the
kernel and one for user pages.  The first pages of a pool hold its bitmap, in which there is one bit
for each of the pages that are left, and a group of pages is found by `bitmap_scan_and_flip`.

* `Palloc.pallocInit_geometry` — where the pools and their bitmaps are, for each size of the memory;
* `Palloc.getMultiple_some` and `Palloc.freeMultiple_eq` — a group is a run of bits of its pool;
* `PageUse.Exact.step` — the groups that are in use are exactly the bits that are set.

The lock of a pool is held during a search, so the calls come one after the other.
-/

set_option autoImplicit false

namespace Pintos

open List Option

/-! ## Addresses -/

/-- `PGSIZE`. -/
abbrev pgSize : Nat := 4096

/-- `PHYS_BASE`. -/
abbrev physBase : Nat := 0xC0000000

/-- A number as an `uint32_t`, `size_t` or pointer. -/
def wrap (n : Nat) : Nat := n % 2 ^ 32

/-- `pg_no`. -/
def pgNo (va : Nat) : Nat := va / pgSize

/-- `pg_ofs`. -/
def pgOfs (va : Nat) : Nat := va % pgSize

/-- `ptov`. -/
def ptov (paddr : Nat) : Kernel Nat := do
  assert (paddr < physBase)
  return wrap (paddr + physBase)

/-- `memset`. -/
def memset (mem : Nat → UInt8) (dst : Nat) (value : UInt8) (size : Nat) : Nat → UInt8 :=
  fun a ↦ if dst ≤ a ∧ a < dst + size then value else mem a

/-- `bitmap_buf_size`: a `struct bitmap` and the bits, in words of 32. -/
def bitmapBufSize (bitCnt : Nat) : Nat := 8 + 4 * ((bitCnt + 31) / 32)

/-! ## The functions of `palloc.c` -/

/-- `struct pool`, without the lock. -/
structure Pool where
  /-- The address of the bitmap. -/
  mapAddr : Nat
  usedMap : Bitmap
  base : Nat

/-- The two pools, and the memory. -/
structure Palloc where
  kernelPool : Pool
  userPool : Pool
  mem : Nat → UInt8

/-- `enum palloc_flags`. -/
structure PallocFlags where
  palAssert : Bool
  palZero : Bool
  palUser : Bool

/-- `init_pool`; `none` if there is not enough memory for the bitmap. -/
def initPool (base pageCnt : Nat) : Kernel Pool :=
  let bmPages := (bitmapBufSize pageCnt + pgSize - 1) / pgSize
  if pageCnt < bmPages then none
  else do
    let pageCnt := pageCnt - bmPages
    -- `bitmap_create_in_buf`.
    assert (bitmapBufSize pageCnt ≤ bmPages * pgSize)
    return ⟨base, .create pageCnt, wrap (base + bmPages * pgSize)⟩

/-- `page_from_pool`. -/
def pageFromPool (pool : Pool) (page : Nat) : Bool :=
  let pageNo := pgNo page
  let startPage := pgNo pool.base
  let endPage := startPage + pool.usedMap.size
  startPage ≤ pageNo && pageNo < endPage

namespace Palloc

/-- The pool that `PAL_USER` selects. -/
def pool (s : Palloc) (user : Bool) : Pool := if user then s.userPool else s.kernelPool

/-- A pool with another bitmap. -/
def setMap (s : Palloc) (user : Bool) (usedMap : Bitmap) : Palloc :=
  if user then { s with userPool := { s.userPool with usedMap } }
  else { s with kernelPool := { s.kernelPool with usedMap } }

/-- `palloc_init`, in a machine with `initRamPages` pages of memory. -/
def pallocInit (mem : Nat → UInt8) (initRamPages userPageLimit : Nat) : Kernel Palloc := do
  let freeStart ← ptov (1024 * 1024)
  let freeEnd ← ptov (wrap (initRamPages * pgSize))
  let freePages := wrap (freeEnd + 2 ^ 32 - freeStart) / pgSize
  let userPages := freePages / 2
  let userPages := if userPageLimit < userPages then userPageLimit else userPages
  let kernelPages := freePages - userPages
  let kernelPool ← initPool freeStart kernelPages
  let userPool ← initPool (wrap (freeStart + kernelPages * pgSize)) userPages
  return ⟨kernelPool, userPool, mem⟩

/-- `palloc_get_multiple`; `0` is the null pointer. -/
def getMultiple (s : Palloc) (flags : PallocFlags) (pageCnt : Nat) : Kernel (Nat × Palloc) :=
  if pageCnt = 0 then some (0, s)
  else do
    let pool := s.pool flags.palUser
    let (pageIdx, usedMap) ← pool.usedMap.scanAndFlip 0 pageCnt false
    let s := s.setMap flags.palUser usedMap
    let pages := match pageIdx with
      | some pageIdx => wrap (pool.base + pgSize * pageIdx)
      | none => 0
    if pages ≠ 0 then
      if flags.palZero then
        return (pages, { s with mem := memset s.mem pages 0 (pgSize * pageCnt) })
      else return (pages, s)
    else if flags.palAssert then none
    else return (pages, s)

/-- The pool that `palloc_free_multiple` finds for a page. -/
def findPool (s : Palloc) (page : Nat) : Kernel Bool :=
  if pageFromPool s.kernelPool page then some false
  else if pageFromPool s.userPool page then some true
  else none

/-- `palloc_free_multiple`. -/
def freeMultiple (s : Palloc) (pages pageCnt : Nat) : Kernel Palloc := do
  assert (pgOfs pages = 0)
  if pages = 0 ∨ pageCnt = 0 then return s
  let user ← s.findPool pages
  let pageIdx := pgNo pages - pgNo (s.pool user).base
  let s := { s with mem := memset s.mem pages 0xcc (pgSize * pageCnt) }
  assert ((← (s.pool user).usedMap.all pageIdx pageCnt) = true)
  return s.setMap user (← (s.pool user).usedMap.setMultiple pageIdx pageCnt false)

/-! ## Where the pools are -/

end Palloc

/-- The pool lies between `start` and `stop`: the pages of its bitmap, and then its own. -/
structure Pool.Laid (p : Pool) (start stop : Nat) : Prop where
  mapAddr : p.mapAddr = start
  aligned : p.base % pgSize = 0
  map_le : start + bitmapBufSize p.usedMap.size ≤ p.base
  eq_stop : p.base + pgSize * p.usedMap.size = stop
  small : stop < 2 ^ 32

/-- The address is in a page that holds the bitmap of the pool. -/
def Pool.InMap (p : Pool) (a : Nat) : Prop := p.mapAddr ≤ a ∧ a < p.base

/-- The address is in a page that the pool hands out. -/
def Pool.InPages (p : Pool) (a : Nat) : Prop := p.base ≤ a ∧ a < p.base + pgSize * p.usedMap.size

variable {b : Bitmap} {a : Nat} {p : Pool}

theorem Pool.Laid.setMap {start stop : Nat} (h : p.Laid start stop)
    (hb : b.size = p.usedMap.size) : Pool.Laid { p with usedMap := b } start stop := by
  refine ⟨h.mapAddr, h.aligned, ?_, ?_, h.small⟩
  · dsimp only
    rw [hb]
    exact h.map_le
  · dsimp only
    rw [hb]
    exact h.eq_stop

/-- **`init_pool`** has not panicked. -/
theorem initPool_laid {base pageCnt : Nat} (hbase : base % pgSize = 0)
    (hsmall : base + pgSize * pageCnt < 2 ^ 32) (h : initPool base pageCnt = some p) :
    p.Laid base (base + pgSize * pageCnt) ∧ ∀ i, p.usedMap.bit i = false := by
  simp only [initPool] at h
  split at h
  · cases h
  simp only [bind_eq_some, assert_eq_some, pure_eq_some] at h
  obtain ⟨-, hfits, rfl⟩ := h
  have hpos : 0 < (bitmapBufSize pageCnt + pgSize - 1) / pgSize := by
    simp only [bitmapBufSize, pgSize]
    omega
  generalize (bitmapBufSize pageCnt + pgSize - 1) / pgSize = bmPages at *
  next hle =>
  have hwrap : wrap (base + bmPages * pgSize) = base + bmPages * pgSize := by
    simp only [wrap, pgSize] at *
    exact Nat.mod_eq_of_lt (by omega)
  refine ⟨⟨rfl, ?_, ?_, ?_, hsmall⟩, fun _ ↦ rfl⟩
  · dsimp only
    rw [hwrap, Nat.add_mul_mod_self_right, hbase]
  · dsimp only [Bitmap.create]
    omega
  · simp only [Bitmap.create, pgSize] at *
    omega

namespace Palloc

variable {s s' : Palloc} {ramPages cnt idx i : Nat} {user user' : Bool} {b : Bitmap}
  {flags : PallocFlags}

/-- What `page_from_pool` tests. -/
theorem pageFromPool_iff {start stop : Nat} (h : p.Laid start stop) :
    pageFromPool p a = true ↔ p.base ≤ a ∧ a < stop := by
  have haligned := h.aligned
  have hstop := h.eq_stop
  rw [pageFromPool, Bool.and_eq_true, decide_eq_true_iff, decide_eq_true_iff]
  simp only [pgNo, pgSize] at *
  omega

/-- The pools are next to each other, from 1 MB to the end of RAM. -/
structure Geometry (ramPages : Nat) (s : Palloc) : Prop where
  kernel : s.kernelPool.Laid (physBase + 1024 * 1024) s.userPool.mapAddr
  user : s.userPool.Laid s.userPool.mapAddr (physBase + pgSize * ramPages)

/-- **`palloc_init`** has not panicked: the pools are laid out, and all their pages are free. -/
theorem pallocInit_geometry {mem : Nat → UInt8} {userPageLimit : Nat} (hlow : 256 < ramPages)
    (hhigh : ramPages < 2 ^ 18) (h : pallocInit mem ramPages userPageLimit = some s) :
    Geometry ramPages s ∧ ∀ user i, (s.pool user).usedMap.bit i = false := by
  have hram : wrap (ramPages * pgSize) = ramPages * pgSize :=
    Nat.mod_eq_of_lt (by simp only [pgSize]; omega)
  have hstart : wrap (1024 * 1024 + physBase) = physBase + 1024 * 1024 := by decide
  have hstop : wrap (ramPages * pgSize + physBase) = physBase + pgSize * ramPages := by
    rw [wrap, Nat.mod_eq_of_lt (by simp only [physBase, pgSize]; omega), Nat.add_comm, Nat.mul_comm]
  have hfree : wrap (physBase + pgSize * ramPages + 2 ^ 32 - (physBase + 1024 * 1024)) / pgSize =
      ramPages - 256 := by
    simp only [wrap, physBase, pgSize]
    omega
  simp only [pallocInit, ptov, hram, hstart, hstop, bind_eq_some, assert_eq_some, pure_eq_some] at h
  obtain ⟨_, ⟨-, -, rfl⟩, _, ⟨-, -, rfl⟩, kernelPool, hkernel, userPool, huser, rfl⟩ := h
  rw [hfree] at hkernel huser
  have hle : (if userPageLimit < (ramPages - 256) / 2 then userPageLimit
      else (ramPages - 256) / 2) ≤ ramPages - 256 := by
    split <;> omega
  generalize (if userPageLimit < (ramPages - 256) / 2 then userPageLimit
    else (ramPages - 256) / 2) = userPages at *
  obtain ⟨kernelPages, hpages⟩ := Nat.exists_eq_add_of_le hle
  rw [hpages, Nat.add_sub_cancel_left] at hkernel huser
  have hmid : wrap (physBase + 1024 * 1024 + kernelPages * pgSize) =
      physBase + 1024 * 1024 + pgSize * kernelPages := by
    simp only [wrap, physBase, pgSize]
    omega
  rw [hmid] at huser
  obtain ⟨hk, hkbits⟩ := initPool_laid (by decide) (by simp only [physBase, pgSize]; omega) hkernel
  obtain ⟨hu, hubits⟩ := initPool_laid (by simp only [physBase, pgSize]; omega)
    (by simp only [physBase, pgSize]; omega) huser
  refine ⟨⟨?_, ?_⟩, fun user ↦ ?_⟩
  · rw [hu.mapAddr]
    exact hk
  · rw [hu.mapAddr, show physBase + pgSize * ramPages =
      physBase + 1024 * 1024 + pgSize * kernelPages + pgSize * userPages by
        simp only [physBase, pgSize]; omega]
    exact hu
  · cases user
    · exact hkbits
    · exact hubits

/-- What a pool is after a bitmap has been stored. -/
theorem pool_setMap : (s.setMap user b).pool user' =
    if user' = user then { s.pool user with usedMap := b } else s.pool user' := by
  cases user <;> cases user' <;> rfl

theorem pool_setMem (s : Palloc) (mem : Nat → UInt8) (user : Bool) :
    Palloc.pool { s with mem } user = s.pool user := by
  cases user <;> rfl

theorem setMap_self (s : Palloc) (user : Bool) : s.setMap user (s.pool user).usedMap = s := by
  cases user <;> rfl

section

variable (h : Geometry ramPages s)

include h

theorem Geometry.setMap (hb : b.size = (s.pool user).usedMap.size) :
    Geometry ramPages (s.setMap user b) := by
  cases user with
  | false => exact ⟨h.kernel.setMap hb, h.user⟩
  | true => exact ⟨h.kernel, h.user.setMap hb⟩

/-- Where a pool begins and ends. -/
theorem Geometry.laid (user : Bool) :
    ∃ start stop, (s.pool user).Laid start stop := by
  cases user
  · exact ⟨_, _, h.kernel⟩
  · exact ⟨_, _, h.user⟩

/-- A page of a pool. -/
theorem Geometry.page_lt (hi : i ≤ (s.pool user).usedMap.size) :
    wrap ((s.pool user).base + pgSize * i) = (s.pool user).base + pgSize * i := by
  obtain ⟨start, stop, hl⟩ := h.laid user
  have hstop := hl.eq_stop
  have hsmall := hl.small
  have hle : pgSize * i ≤ pgSize * (s.pool user).usedMap.size := Nat.mul_le_mul_left _ hi
  exact Nat.mod_eq_of_lt (by omega)

theorem Geometry.page_ne_zero (user : Bool) (i : Nat) : (s.pool user).base + pgSize * i ≠ 0 := by
  obtain ⟨start, stop, hl⟩ := h.laid user
  have hle := hl.map_le
  simp only [bitmapBufSize] at hle
  omega

/-- The pages of the pools and those of their bitmaps are apart, and between 1 MB and the end of
RAM. -/
theorem Geometry.apart (ha : (s.pool user).InPages a) :
    physBase + 1024 * 1024 ≤ a ∧ a < physBase + pgSize * ramPages ∧ ∀ user',
      ¬ (s.pool user').InMap a ∧ ((s.pool user').InPages a ↔ user' = user) := by
  have hk := h.kernel.map_le
  have hk' := h.kernel.eq_stop
  have hm := h.kernel.mapAddr
  have hu := h.user.map_le
  have hu' := h.user.eq_stop
  cases user with
  | false =>
    simp only [pool, Bool.false_eq_true, if_false, Pool.InPages, Pool.InMap] at *
    refine ⟨by omega, by omega, ?_⟩
    rintro (_ | _) <;>
      simp only [Bool.false_eq_true, Bool.true_eq_false, if_true, if_false, iff_true, iff_false] <;>
      omega
  | true =>
    simp only [pool, if_true, Pool.InPages, Pool.InMap] at *
    refine ⟨by omega, by omega, ?_⟩
    rintro (_ | _) <;>
      simp only [Bool.false_eq_true, if_true, if_false, iff_true, iff_false] <;> omega

/-! ## The calls -/

/-- **`palloc_get_multiple`** takes the first group that is free. -/
theorem getMultiple_some (h0 : 0 < cnt)
    (hscan : (s.pool flags.palUser).usedMap.scanAndFlip 0 cnt false = some (some idx, b)) :
    ∃ mem, s.getMultiple flags cnt = some ((s.pool flags.palUser).base + pgSize * idx,
      { s.setMap flags.palUser b with mem }) := by
  obtain ⟨-, hrange, -⟩ := Bitmap.scanAndFlip_spec hscan
  have hpos := h.page_ne_zero flags.palUser idx
  rw [getMultiple, if_neg (by omega)]
  dsimp only
  rw [hscan]
  dsimp only [some_bind]
  simp only [h.page_lt (show idx ≤ (s.pool flags.palUser).usedMap.size by omega), if_pos hpos]
  split
  · exact ⟨_, rfl⟩
  · exact ⟨_, rfl⟩

end

theorem getMultiple_none (h0 : 0 < cnt)
    (hscan : (s.pool flags.palUser).usedMap.scanAndFlip 0 cnt false = some (none, b)) :
    s.getMultiple flags cnt = if flags.palAssert then none else some (0, s) := by
  obtain rfl := Bitmap.scanAndFlip_eq_none hscan
  rw [getMultiple, if_neg (by omega)]
  dsimp only
  rw [hscan]
  dsimp only [some_bind]
  rw [if_neg (by decide), setMap_self]
  rfl

/-- The kernel pool is asked first; the pages of the user pool are behind it. -/
theorem findPool_eq (h : Geometry ramPages s) (hidx : idx < (s.pool user).usedMap.size) :
    s.findPool ((s.pool user).base + pgSize * idx) = some user := by
  have hin : ∀ {p : Pool} {start stop : Nat}, p.Laid start stop → idx < p.usedMap.size →
      pageFromPool p (p.base + pgSize * idx) = true := by
    intro p start stop hl hlt
    have hstop := hl.eq_stop
    refine (pageFromPool_iff hl).mpr ⟨Nat.le_add_right _ _, ?_⟩
    simp only [pgSize] at *
    omega
  cases user with
  | false => exact if_pos (hin h.kernel hidx)
  | true =>
    have hnot : ¬ pageFromPool s.kernelPool (s.userPool.base + pgSize * idx) = true := by
      intro hk
      have hlt := ((pageFromPool_iff h.kernel).mp hk).2
      have hle := h.user.map_le
      omega
    exact (if_neg hnot).trans (if_pos (hin h.user hidx))

/-- **`palloc_free_multiple`** finds the pool of a group, and clears its bits there. -/
theorem freeMultiple_eq (h : Geometry ramPages s) (h0 : 0 < cnt)
    (hrange : idx + cnt ≤ (s.pool user).usedMap.size)
    (hset : ∀ i, idx ≤ i → i < idx + cnt → (s.pool user).usedMap.bit i = true) :
    ∃ b mem, (s.pool user).usedMap.setMultiple idx cnt false = some b ∧
      s.freeMultiple ((s.pool user).base + pgSize * idx) cnt =
        some { s.setMap user b with mem } := by
  obtain ⟨b, hb⟩ := Bitmap.exists_setMultiple false hrange
  refine ⟨b, memset s.mem ((s.pool user).base + pgSize * idx) 0xcc (pgSize * cnt), hb, ?_⟩
  obtain ⟨start, stop, hl⟩ := h.laid user
  have haligned := hl.aligned
  have hofs : pgOfs ((s.pool user).base + pgSize * idx) = 0 := by
    rw [pgOfs, Nat.add_mul_mod_self_left, haligned]
  have hidx : pgNo ((s.pool user).base + pgSize * idx) - pgNo (s.pool user).base = idx := by
    simp only [pgNo, pgSize] at *
    omega
  have hpos : ¬ ((s.pool user).base + pgSize * idx = 0 ∨ cnt = 0) :=
    not_or.mpr ⟨h.page_ne_zero user idx, by omega⟩
  rw [freeMultiple, hofs]
  refine bind_eq_some_iff.mpr ⟨(), if_pos rfl, ?_⟩
  rw [if_neg hpos]
  refine bind_eq_some_iff.mpr ⟨user, findPool_eq h (by omega), ?_⟩
  dsimp only
  rw [hidx, pool_setMem]
  refine bind_eq_some_iff.mpr ⟨true, Bitmap.all_eq_true hrange hset, ?_⟩
  refine bind_eq_some_iff.mpr ⟨(), if_pos rfl, ?_⟩
  refine bind_eq_some_iff.mpr ⟨b, hb, ?_⟩
  cases user <;> rfl

end Palloc

/-! ## The groups that are in use -/

/-- A group of pages that has been obtained. -/
structure PageGroup where
  pages : Nat
  cnt : Nat
  /-- Whether it was obtained with `PAL_USER`. -/
  user : Bool
  deriving DecidableEq

/-- The group has the byte at this address. -/
def PageGroup.Covers (g : PageGroup) (a : Nat) : Prop :=
  g.pages ≤ a ∧ a < g.pages + pgSize * g.cnt

/-- The allocator, and the groups that have been obtained and not yet freed. -/
structure PageUse where
  palloc : Palloc
  live : List PageGroup

/-- A call of the allocator. -/
inductive PallocCall where
  | get (flags : PallocFlags) (pageCnt : Nat)
  | free (g : PageGroup)

variable {p : Palloc}

namespace PageUse

/-- A call; only groups that are live are freed. -/
def step (s : PageUse) : PallocCall → Option PageUse
  | .get flags pageCnt => do
    let (pages, palloc) ← s.palloc.getMultiple flags pageCnt
    return ⟨palloc, if pages = 0 then s.live else ⟨pages, pageCnt, flags.palUser⟩ :: s.live⟩
  | .free g =>
    if g ∈ s.live then do
      let palloc ← s.palloc.freeMultiple g.pages g.cnt
      return ⟨palloc, s.live.erase g⟩
    else none

/-- The group is the one of `cnt` pages from page `idx` of its pool on. -/
structure Placed (s : Palloc) (g : PageGroup) (idx : Nat) : Prop where
  pages : g.pages = (s.pool g.user).base + pgSize * idx
  pos : 0 < g.cnt
  range : idx + g.cnt ≤ (s.pool g.user).usedMap.size

/-- Two groups have no byte in common. -/
def Apart (g g' : PageGroup) : Prop := ∀ a, ¬ (g.Covers a ∧ g'.Covers a)

/-- The pages that are marked are exactly those of the live groups. -/
structure Exact (ramPages : Nat) (s : PageUse) : Prop where
  geometry : s.palloc.Geometry ramPages
  placed : ∀ g ∈ s.live, ∃ idx, Placed s.palloc g idx
  apart : s.live.Pairwise Apart
  bits : ∀ user, ∀ i < (s.palloc.pool user).usedMap.size,
    (s.palloc.pool user).usedMap.bit i = true ↔
      ∃ g ∈ s.live, g.user = user ∧ g.Covers ((s.palloc.pool user).base + pgSize * i)

variable {s s' : PageUse} {ramPages idx i cnt : Nat} {g g' : PageGroup} {user : Bool}

theorem Apart.symm (h : Apart g g') : Apart g' g := fun a ha ↦ h a ha.symm

/-- The pages of a group, by their number in the pool. -/
theorem Placed.covers_iff (h : Placed p g idx) :
    g.Covers ((p.pool g.user).base + pgSize * i) ↔ idx ≤ i ∧ i < idx + g.cnt := by
  rw [PageGroup.Covers, h.pages]
  simp only [pgSize]
  omega

/-- A byte of a group is in one of its pages. -/
theorem Placed.exists_page (h : Placed p g idx) (ha : g.Covers a) :
    ∃ i, idx ≤ i ∧ i < idx + g.cnt ∧ (p.pool g.user).base + pgSize * i ≤ a ∧
      a < (p.pool g.user).base + pgSize * (i + 1) := by
  rw [PageGroup.Covers, h.pages] at ha
  refine ⟨(a - (p.pool g.user).base) / pgSize, ?_⟩
  simp only [pgSize] at *
  omega

/-- The groups of a pool lie in its pages. -/
theorem Placed.mem_pool {start stop : Nat} (h : Placed p g idx)
    (hl : (p.pool g.user).Laid start stop) (ha : g.Covers a) :
    (p.pool g.user).base ≤ a ∧ a < stop := by
  have hrange := h.range
  have hstop := hl.eq_stop
  rw [PageGroup.Covers, h.pages] at ha
  simp only [pgSize] at *
  omega

/-- Groups of different pools have no byte in common. -/
theorem Placed.apart_of_ne {idx' : Nat} (hg : p.Geometry ramPages)
    (h : Placed p g idx) (h' : Placed p g' idx') (hne : g.user ≠ g'.user) : Apart g g' := by
  -- Which of the two is the user's does not matter.
  have key : ∀ {k u : PageGroup} {i j : Nat}, Placed p k i → Placed p u j → k.user = false →
      u.user = true → Apart k u := by
    rintro k u i j hk hu hkf hut a ⟨hka, hua⟩
    have hlaid : (p.pool k.user).Laid (physBase + 1024 * 1024) p.userPool.mapAddr := by
      rw [hkf]
      exact hg.kernel
    have h1 := hk.mem_pool hlaid hka
    have h2 := hu.mem_pool (by rw [hut]; exact hg.user) hua
    rw [hut] at h2
    have hle := hg.user.map_le
    simp only [Palloc.pool, if_true] at h2
    omega
  cases hu : g.user with
  | false => exact key h h' hu (by simpa [hu] using hne)
  | true => exact (key h' h (by simpa [hu] using hne) hu).symm

/-- The pools are where they were, and one of them has another bitmap. -/
structure Remapped (p : Palloc) (user : Bool) (b : Bitmap) (p' : Palloc) : Prop where
  base : ∀ u, (p'.pool u).base = (p.pool u).base
  size : ∀ u, (p'.pool u).usedMap.size = (p.pool u).usedMap.size
  bit : ∀ u i, (p'.pool u).usedMap.bit i =
    if u = user then b.bit i else (p.pool u).usedMap.bit i

theorem remapped (mem : Nat → UInt8) (hb : b.size = (p.pool user).usedMap.size) :
    Remapped p user b { p.setMap user b with mem } := by
  refine ⟨fun u ↦ ?_, fun u ↦ ?_, fun u i ↦ ?_⟩ <;>
    rw [Palloc.pool_setMem, Palloc.pool_setMap] <;> split
  · next hu => rw [hu]
  · rfl
  · next hu => rw [hu, ← hb]
  · rfl
  · rfl
  · rfl

theorem Remapped.placed {p' : Palloc} (h : Remapped p user b p')
    (hp : Placed p g idx) : Placed p' g idx :=
  ⟨by rw [h.base, hp.pages], hp.pos, by rw [h.size]; exact hp.range⟩

section

variable (h : Exact ramPages s)

include h

/-- A group has been taken. -/
theorem Exact.take (mem : Nat → UInt8) (h0 : 0 < cnt)
    (hscan : (s.palloc.pool user).usedMap.scanAndFlip 0 cnt false = some (some idx, b)) :
    Exact ramPages ⟨{ s.palloc.setMap user b with mem },
      ⟨(s.palloc.pool user).base + pgSize * idx, cnt, user⟩ :: s.live⟩ := by
  obtain ⟨-, hrange, hsize, hclear, hflip⟩ := Bitmap.scanAndFlip_spec hscan
  have hmap := remapped mem hsize
  generalize hg : PageGroup.mk ((s.palloc.pool user).base + pgSize * idx) cnt user = g
  have hnew : Placed s.palloc g idx := by
    subst hg
    exact ⟨rfl, h0, hrange⟩
  obtain ⟨hcnt, huser⟩ : g.cnt = cnt ∧ g.user = user := by
    subst hg
    exact ⟨rfl, rfl⟩
  -- A page of the new group was not marked, so it is in no other group.
  have hapart : ∀ g' ∈ s.live, Apart g g' := by
    intro g' hg'
    obtain ⟨idx', hp'⟩ := h.placed g' hg'
    by_cases hne : g.user = g'.user
    · rintro a ⟨ha, ha'⟩
      obtain ⟨i, hle, hlt, hpage⟩ := hnew.exists_page ha
      obtain ⟨j, hle', hlt', hpage'⟩ := hp'.exists_page ha'
      rw [← hne] at hpage'
      obtain rfl : i = j := by
        simp only [pgSize] at *
        omega
      rw [hcnt] at hlt
      have hbit := hclear i hle hlt
      rw [(h.bits user i (by omega)).mpr ⟨g', hg', by rw [← hne, huser], ?_⟩] at hbit
      · cases hbit
      · rw [← huser, hne]
        exact hp'.covers_iff.mpr ⟨hle', hlt'⟩
    · exact hnew.apart_of_ne h.geometry hp' hne
  refine ⟨⟨(h.geometry.setMap hsize).kernel, (h.geometry.setMap hsize).user⟩, ?_, ?_, ?_⟩
  · intro g' hg'
    rcases mem_cons.mp hg' with rfl | hg'
    · exact ⟨idx, hmap.placed hnew⟩
    · obtain ⟨idx', hp'⟩ := h.placed g' hg'
      exact ⟨idx', hmap.placed hp'⟩
  · exact pairwise_cons.mpr ⟨hapart, h.apart⟩
  · intro u i hi
    dsimp only at hi ⊢
    rw [hmap.size] at hi
    rw [hmap.bit, hmap.base]
    simp only [mem_cons, exists_eq_or_imp]
    rw [← h.bits u i hi]
    split
    · next hu =>
      subst hu
      rw [hflip, ← hcnt]
      have hcovers := hnew.covers_iff (i := i)
      rw [huser] at hcovers
      split
      · next hin => simp [huser, hcovers, hin]
      · next hin => simp [huser, hcovers, hin]
    · next hu => simp [huser, Ne.symm hu]

/-- The pages of a live group are marked. -/
theorem Exact.bit_of_live (hg : g ∈ s.live) (hp : Placed s.palloc g idx)
    (hle : idx ≤ i) (hlt : i < idx + g.cnt) : (s.palloc.pool g.user).usedMap.bit i = true := by
  have hrange := hp.range
  exact (h.bits g.user i (by omega)).mpr ⟨g, hg, rfl, hp.covers_iff.mpr ⟨hle, hlt⟩⟩

/-- A group has been given back. -/
theorem Exact.give (mem : Nat → UInt8) (hg : g ∈ s.live) (hp : Placed s.palloc g idx)
    (hset : (s.palloc.pool g.user).usedMap.setMultiple idx g.cnt false = some b) :
    Exact ramPages ⟨{ s.palloc.setMap g.user b with mem }, s.live.erase g⟩ := by
  obtain ⟨-, hsize, hbits⟩ := Bitmap.setMultiple_spec hset
  have hmap := remapped mem hsize
  have hperm : s.live.Perm (g :: s.live.erase g) := perm_cons_erase hg
  have hpair := pairwise_cons.mp ((hperm.pairwise_iff Apart.symm).mp h.apart)
  refine ⟨⟨(h.geometry.setMap hsize).kernel, (h.geometry.setMap hsize).user⟩, ?_, hpair.2, ?_⟩
  · intro g' hg'
    obtain ⟨idx', hp'⟩ := h.placed g' (mem_of_mem_erase hg')
    exact ⟨idx', hmap.placed hp'⟩
  · intro u i hi
    dsimp only at hi ⊢
    rw [hmap.size] at hi
    rw [hmap.bit, hmap.base]
    have hold := h.bits u i hi
    simp only [hperm.mem_iff, mem_cons, exists_eq_or_imp] at hold
    split
    · next hu =>
      subst hu
      rw [hbits]
      split
      · next hin =>
        -- The page is in the group, so it is in no other one.
        refine ⟨nofun, ?_⟩
        rintro ⟨g', hg', -, hcov⟩
        exact absurd ⟨hp.covers_iff.mpr hin, hcov⟩ (hpair.1 g' hg' _)
      · next hin =>
        rw [hold]
        exact or_iff_right fun hcov ↦ hin (hp.covers_iff.mp hcov.2)
    · next hu =>
      rw [hold]
      exact or_iff_right fun hcov ↦ hu hcov.1.symm

/-- **A live group can be freed**, and goes back to its pool. -/
theorem Exact.freeMultiple (hg : g ∈ s.live) :
    ∃ idx b mem, Placed s.palloc g idx ∧
      (s.palloc.pool g.user).usedMap.setMultiple idx g.cnt false = some b ∧
      s.palloc.freeMultiple g.pages g.cnt = some { s.palloc.setMap g.user b with mem } := by
  obtain ⟨idx, hp⟩ := h.placed g hg
  obtain ⟨b, mem, hset, hfree⟩ := Palloc.freeMultiple_eq h.geometry hp.pos hp.range
    fun i ↦ h.bit_of_live hg hp
  rw [← hp.pages] at hfree
  exact ⟨idx, b, mem, hp, hset, hfree⟩

/-- **A call keeps the books exact.** -/
theorem Exact.step {c : PallocCall} (hs : s.step c = some s') :
    Exact ramPages s' := by
  cases c with
  | get flags pageCnt =>
    simp only [PageUse.step, bind_eq_some] at hs
    obtain ⟨⟨pages, palloc⟩, hget, heq⟩ := hs
    cases heq
    rcases Nat.eq_zero_or_pos pageCnt with rfl | h0
    · cases hget
      exact h
    obtain ⟨⟨idx, b⟩, hscan⟩ := Bitmap.exists_scanAndFlip pageCnt false
      (Nat.zero_le (s.palloc.pool flags.palUser).usedMap.size)
    cases idx with
    | none =>
      rw [Palloc.getMultiple_none h0 hscan] at hget
      split at hget
      · cases hget
      · cases hget
        exact h
    | some idx =>
      obtain ⟨mem, heq⟩ := Palloc.getMultiple_some h.geometry h0 hscan
      cases heq.symm.trans hget
      dsimp only
      rw [if_neg (h.geometry.page_ne_zero flags.palUser idx)]
      exact h.take mem h0 hscan
  | free g =>
    dsimp only [PageUse.step] at hs
    split at hs
    · next hg =>
      obtain ⟨idx, b, mem, hp, hset, hfree⟩ := h.freeMultiple hg
      rw [hfree] at hs
      cases hs
      exact h.give mem hg hp hset
    · cases hs

end

/-- There are `cnt` consecutive pages in the pool that are in no live group. -/
def FreeRun (s : PageUse) (user : Bool) (cnt : Nat) : Prop :=
  ∃ i, i + cnt ≤ (s.palloc.pool user).usedMap.size ∧ ∀ j, i ≤ j → j < i + cnt →
    ∀ g ∈ s.live, ¬ g.Covers ((s.palloc.pool user).base + pgSize * j)

theorem Exact.of_init {mem : Nat → UInt8} {userPageLimit : Nat} (hlow : 256 < ramPages)
    (hhigh : ramPages < 2 ^ 18) (hinit : Palloc.pallocInit mem ramPages userPageLimit = some p) :
    Exact ramPages ⟨p, []⟩ := by
  obtain ⟨hgeo, hfree⟩ := Palloc.pallocInit_geometry hlow hhigh hinit
  exact ⟨hgeo, nofun, .nil, fun user i _ ↦ by simp [hfree user i]⟩

/-- The pages of a live group are pages of its pool. -/
theorem Exact.inPages (h : Exact ramPages s) (hg : g ∈ s.live) (ha : g.Covers a) :
    (s.palloc.pool g.user).InPages a := by
  obtain ⟨idx, hp⟩ := h.placed g hg
  obtain ⟨start, stop, hl⟩ := h.geometry.laid g.user
  have hmem := hp.mem_pool hl ha
  rw [← hl.eq_stop] at hmem
  exact hmem

/-- Freeing a live group clears its pages in its own pool. -/
theorem Exact.bit_of_free (h : Exact ramPages s) (hg : g ∈ s.live) :
    Returns (s.palloc.freeMultiple g.pages g.cnt) fun p ↦ ∀ user,
      ∀ i < (s.palloc.pool user).usedMap.size, (p.pool user).usedMap.bit i = true ↔
        (s.palloc.pool user).usedMap.bit i = true ∧
          ¬ (user = g.user ∧ g.Covers ((s.palloc.pool user).base + pgSize * i)) := by
  obtain ⟨idx, b, mem, hp, hset, hfree⟩ := h.freeMultiple hg
  obtain ⟨-, hsize, hbits⟩ := Bitmap.setMultiple_spec hset
  refine ⟨_, hfree, fun user i hi ↦ ?_⟩
  rw [(remapped mem hsize).bit]
  split
  · next hu =>
    subst hu
    rw [hbits, hp.covers_iff]
    split
    · next hin => simp [hin]
    · next hin => simp [hin]
  · next hu => simp [hu]

/-- Where no page is marked, none is in a live group. -/
theorem Exact.freeRun_iff (h : Exact ramPages s) (user : Bool) (cnt : Nat) :
    s.FreeRun user cnt ↔ ∃ i, i + cnt ≤ (s.palloc.pool user).usedMap.size ∧
      ∀ j, i ≤ j → j < i + cnt → (s.palloc.pool user).usedMap.bit j = false := by
  refine exists_congr fun i ↦ and_congr_right fun hrange ↦ forall_congr' fun j ↦
    forall_congr' fun hle ↦ forall_congr' fun hlt ↦ ?_
  have hj : j < (s.palloc.pool user).usedMap.size := by omega
  rw [← Bool.not_eq_true, h.bits user j hj]
  constructor
  · rintro hno ⟨g, hg, -, hcov⟩
    exact hno g hg hcov
  · intro hno g hg hcov
    -- The page is one of this pool, so the group is, too.
    have hpage : (s.palloc.pool user).InPages ((s.palloc.pool user).base + pgSize * j) := by
      simp only [Pool.InPages, pgSize]
      omega
    have huser := ((h.geometry.apart (h.inPages hg hcov)).2.2 user).2.mp hpage
    exact hno ⟨g, hg, huser.symm, hcov⟩

/-- A null pointer is returned if and only if there are no such pages. -/
theorem Exact.getMultiple_eq_zero {flags : PallocFlags} {cnt : Nat} (h : Exact ramPages s)
    (h0 : 0 < cnt) (hassert : flags.palAssert = false) :
    Returns (s.palloc.getMultiple flags cnt) fun r ↦ r.1 = 0 ↔ ¬ s.FreeRun flags.palUser cnt := by
  rw [h.freeRun_iff]
  obtain ⟨⟨idx, b⟩, hscan⟩ := Bitmap.exists_scanAndFlip cnt false
    (Nat.zero_le (s.palloc.pool flags.palUser).usedMap.size)
  cases idx with
  | none =>
    rw [Palloc.getMultiple_none h0 hscan, hassert]
    refine .pure ⟨fun _ ↦ ?_, fun _ ↦ rfl⟩
    rintro ⟨i, hrange, hclear⟩
    obtain ⟨j, hle, hlt, hne⟩ :=
      Bitmap.of_scan_eq_none (Bitmap.scan_of_scanAndFlip hscan) (Nat.zero_le i) hrange
    exact hne (hclear j hle hlt)
  | some idx =>
    obtain ⟨mem, hget⟩ := Palloc.getMultiple_some h.geometry h0 hscan
    obtain ⟨-, hrange, -, hclear, -⟩ := Bitmap.scanAndFlip_spec hscan
    refine ⟨_, hget, fun hzero ↦ ?_, fun hno ↦ absurd ⟨idx, hrange, hclear⟩ hno⟩
    exact absurd hzero (h.geometry.page_ne_zero flags.palUser idx)

/-- **No page is handed out twice.**  In every machine for which `palloc_init` does not panic, and
after any calls that only free live groups: the live groups have no byte in common; each of them is
between 1 MB and the end of RAM, in the pages of its own pool, not in those of the other one, and
not in the pages of a bitmap, whose size suffices; it can be freed, and that clears its pages in the
pool it came from and no others; and without `PAL_ASSERT` a null pointer is returned if and only if
the pool has no run of free pages that is long enough. -/
theorem pages_exclusive {mem : Nat → UInt8} {userPageLimit : Nat} {p₀ : Palloc}
    {calls : List PallocCall} (hlow : 256 < ramPages) (hhigh : ramPages < 2 ^ 18)
    (hinit : Palloc.pallocInit mem ramPages userPageLimit = some p₀)
    (hrun : Run.run step ⟨p₀, []⟩ calls = some s) : s.live.Pairwise Apart ∧
    (∀ g ∈ s.live, ∀ a, g.Covers a → physBase + 1024 * 1024 ≤ a ∧ a < physBase + pgSize * ramPages ∧
      ∀ user, ¬ (s.palloc.pool user).InMap a ∧ ((s.palloc.pool user).InPages a ↔ user = g.user)) ∧
    (∀ user, (s.palloc.pool user).mapAddr + bitmapBufSize (s.palloc.pool user).usedMap.size ≤
      (s.palloc.pool user).base) ∧
    (∀ a, ¬ (s.palloc.kernelPool.InPages a ∧ s.palloc.userPool.InPages a)) ∧
    (∀ g ∈ s.live, Returns (s.palloc.freeMultiple g.pages g.cnt) fun p ↦ ∀ user,
      ∀ i < (s.palloc.pool user).usedMap.size, (p.pool user).usedMap.bit i = true ↔
        (s.palloc.pool user).usedMap.bit i = true ∧
          ¬ (user = g.user ∧ g.Covers ((s.palloc.pool user).base + pgSize * i))) ∧
    ∀ flags cnt, 0 < cnt → flags.palAssert = false →
      Returns (s.palloc.getMultiple flags cnt) fun r ↦ r.1 = 0 ↔ ¬ s.FreeRun flags.palUser cnt := by
  have h := Run.invariant_of_step (I := Exact ramPages) (fun _ _ _ h hs ↦ h.step hs)
    (Exact.of_init hlow hhigh hinit) hrun
  refine ⟨h.apart, fun g hg a ha ↦ h.geometry.apart (h.inPages hg ha), fun user ↦ ?_, ?_,
    fun g hg ↦ h.bit_of_free hg, fun flags cnt ↦ h.getMultiple_eq_zero⟩
  · obtain ⟨start, stop, hl⟩ := h.geometry.laid user
    rw [hl.mapAddr]
    exact hl.map_le
  · rintro a ⟨hk, hu⟩
    have hkernel : (s.palloc.pool false).InPages a := hk
    have huser := ((h.geometry.apart hkernel).2.2 true).2.mp hu
    cases huser

/-- Two groups are obtained in a machine with 4 MB of memory, and the first one is freed. -/
theorem pages_exclusive_two : ∃ p₀ s, Palloc.pallocInit (fun _ ↦ 0) 1024 (2 ^ 32 - 1) = some p₀ ∧
    Run.run step ⟨p₀, []⟩ [.get ⟨false, true, false⟩ 3, .get ⟨false, false, true⟩ 1,
      .get ⟨false, false, false⟩ 2, .free ⟨0xC0101000, 3, false⟩] = some s ∧
    s.live = [⟨0xC0104000, 2, false⟩, ⟨0xC0281000, 1, true⟩] ∧ s.live.Pairwise Apart := by
  refine Run.exists_of_view₂ (fun _ s ↦ s.live) [⟨0xC0104000, 2, false⟩, ⟨0xC0281000, 1, true⟩]
    (by decide +kernel) fun p₀ s hinit hrun hlive ↦ ?_
  exact ⟨hlive, (pages_exclusive (by decide) (by decide) hinit hrun).1⟩

end PageUse

end Pintos
