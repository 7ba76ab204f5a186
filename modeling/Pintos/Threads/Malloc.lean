import Pintos.Threads.Palloc

/-!
# The heap

`threads/malloc.c`.  A block of up to 1 kB is one of the blocks of an *arena*, a page that begins
with a `struct arena`; the descriptor of its size keeps the blocks that are free on a list, with
those of all its arenas mixed.  A larger block has pages of its own, behind a `struct arena`, too.
Which arena a block is in is not stored: it is at the beginning of the page.

`palloc_get_multiple` may fail at any time, so what it returns is part of a call.  All that is asked
of it is that the pages are not in an arena already (`Heap.FreshPages`).

* `Heap.Shaped` — where the arenas are;
* `Heap.Shaped.blockToArena_small`, `Heap.Shaped.arenaToBlock_eq` — the address arithmetic is right,
  and no assertion fails;
* `Heap.Shaped.newArena_eq`, `Heap.Shaped.free_eq_of_last` — what the loops over the blocks of an
  arena store.

`Threads/HeapBlocks.lean` has what this means for the blocks that are in use.

The lock of a descriptor is held while its list is used, so the calls come one after the other.  The
list operations are those on a list of addresses; `Kernel/LinkedList.lean` has what the links do.
-/

set_option autoImplicit false

namespace Pintos

open Function List Option

/-! ## The functions of `malloc.c` -/

/-- `struct desc`, without the lock. -/
structure Desc where
  blockSize : Nat
  blocksPerArena : Nat
  freeList : List Nat
  deriving DecidableEq

/-- `ARENA_MAGIC`. -/
def arenaMagic : Nat := 0x9a548eed

/-- `sizeof (struct arena)`. -/
abbrev arenaSize : Nat := 12

/-- `struct arena`; the descriptor is its index in `descs`, and `none` for a big block. -/
structure Arena where
  magic : Nat
  desc : Option Nat
  freeCnt : Nat

/-- How many pages an arena has; for a big block that is what `free_cnt` says. -/
def Arena.pageCnt (arena : Arena) : Nat :=
  match arena.desc with
  | some _ => 1
  | none => arena.freeCnt

/-- `descs`, `desc_cnt` and the arenas, by their addresses. -/
structure Heap where
  descs : Nat → Desc
  descCnt : Nat
  arenas : Nat → Option Arena

/-- `pg_round_down`. -/
def pgRoundDown (va : Nat) : Nat := va / pgSize * pgSize

namespace Heap

/-- Store to a descriptor's list. -/
def setFreeList (h : Heap) (d : Nat) (freeList : List Nat) : Heap :=
  { h with descs := update h.descs d { h.descs d with freeList } }

/-- Store to an arena, or give up its pages. -/
def setArena (h : Heap) (a : Nat) (arena : Option Arena) : Heap :=
  { h with arenas := update h.arenas a arena }

/-- The loop of `malloc_init`. -/
def mallocInitLoop : Nat → Heap → Nat → Kernel Heap
  | 0, h, _ => some h
  | fuel + 1, h, blockSize =>
    if blockSize < pgSize / 2 then do
      let d := h.descCnt
      let h := { h with descCnt := h.descCnt + 1 }
      assert (h.descCnt ≤ 10)
      let desc : Desc := ⟨blockSize, (pgSize - arenaSize) / blockSize, []⟩
      mallocInitLoop fuel { h with descs := update h.descs d desc } (blockSize * 2)
    else some h

/-- `malloc_init`. -/
def mallocInit : Kernel Heap := mallocInitLoop pgSize ⟨fun _ ↦ ⟨0, 0, []⟩, 0, fun _ ↦ none⟩ 16

/-- `block_to_arena`. -/
def blockToArena (h : Heap) (b : Nat) : Kernel (Nat × Arena) := do
  let a := pgRoundDown b
  assert (a ≠ 0)
  let arena ← h.arenas a
  assert (arena.magic = arenaMagic)
  match arena.desc with
  | some d =>
    assert (wrap (pgOfs b + 2 ^ 32 - arenaSize) % (h.descs d).blockSize = 0)
    return (a, arena)
  | none =>
    assert (pgOfs b = arenaSize)
    return (a, arena)

/-- `arena_to_block`. -/
def arenaToBlock (h : Heap) (a idx : Nat) : Kernel Nat := do
  assert (a ≠ 0)
  let arena ← h.arenas a
  assert (arena.magic = arenaMagic)
  let d ← arena.desc
  assert (idx < (h.descs d).blocksPerArena)
  return wrap (a + arenaSize + idx * (h.descs d).blockSize)

/-- The descriptor for `size` bytes, if it is not too big for all of them. -/
def findDesc (h : Heap) (size : Nat) : Option Nat :=
  (List.range h.descCnt).find? fun d ↦ size ≤ (h.descs d).blockSize

/-- `page_cnt` for a big block. -/
def bigPages (size : Nat) : Nat := wrap (wrap (size + arenaSize) + pgSize - 1) / pgSize

/-- How many pages `malloc` asks for, if it does. -/
def pagesFor (h : Heap) (size : Nat) : Nat :=
  if (h.findDesc size).isSome then 1 else bigPages size

/-- A new arena, and its blocks at the end of the list. -/
def newArena (h : Heap) (d a : Nat) : Kernel Heap := do
  let h := h.setArena a (some ⟨arenaMagic, some d, (h.descs d).blocksPerArena⟩)
  (List.range (h.descs d).blocksPerArena).foldlM (fun (h : Heap) i ↦ do
    let b ← h.arenaToBlock a i
    return h.setFreeList d ((h.descs d).freeList ++ [b])) h

/-- The end of `malloc`: a block from the free list. -/
def takeBlock (h : Heap) (d : Nat) : Kernel (Nat × Heap) := do
  match (h.descs d).freeList with
  | [] => none
  | b :: freeList =>
    let h := h.setFreeList d freeList
    let (a, arena) ← h.blockToArena b
    return (b, h.setArena a (some { arena with freeCnt := wrap (arena.freeCnt + 2 ^ 32 - 1) }))

/-- `malloc`; `got` is what `palloc_get_multiple` returns if it is called, and `0` is the null
pointer. -/
def malloc (h : Heap) (size : Nat) (got : Option Nat) : Kernel (Nat × Heap) :=
  if size = 0 then some (0, h)
  else
    match h.findDesc size with
    | none =>
      match got with
      | none => some (0, h)
      | some a => some (wrap (a + arenaSize),
          h.setArena a (some ⟨arenaMagic, none, bigPages size⟩))
    | some d =>
      if (h.descs d).freeList = [] then
        match got with
        | none => some (0, h)
        | some a => do
          let h ← h.newArena d a
          h.takeBlock d
      else h.takeBlock d

/-- `calloc`, and the memory. -/
def calloc (h : Heap) (mem : Nat → UInt8) (a b : Nat) (got : Option Nat) :
    Kernel (Nat × Heap × (Nat → UInt8)) :=
  let size := wrap (a * b)
  if size < a ∨ size < b then some (0, h, mem)
  else do
    let (p, h) ← h.malloc size got
    if p ≠ 0 then return (p, h, memset mem p 0 size)
    else return (p, h, mem)

/-- `free`, and the pages that it gives back: their address and their number. -/
def free (h : Heap) (p : Nat) : Kernel (Option (Nat × Nat) × Heap) :=
  if p = 0 then some (none, h)
  else do
    let (a, arena) ← h.blockToArena p
    match arena.desc with
    | none => return (some (a, arena.freeCnt), h.setArena a none)
    | some d =>
      let h := h.setFreeList d (p :: (h.descs d).freeList)
      let freeCnt := wrap (arena.freeCnt + 1)
      let h := h.setArena a (some { arena with freeCnt })
      if freeCnt ≥ (h.descs d).blocksPerArena then
        assert (freeCnt = (h.descs d).blocksPerArena)
        let h ← (List.range (h.descs d).blocksPerArena).foldlM (fun (h : Heap) i ↦ do
          let b ← h.arenaToBlock a i
          return h.setFreeList d ((h.descs d).freeList.erase b)) h
        return (some (a, 1), h.setArena a none)
      else return (none, h)

/-- `block_size`. -/
def blockSize (h : Heap) (block : Nat) : Kernel Nat := do
  let (_, arena) ← h.blockToArena block
  match arena.desc with
  | some d => return (h.descs d).blockSize
  | none => return wrap (pgSize * arena.freeCnt + 2 ^ 32 - pgOfs block)

/-! ## The descriptors -/

/-- The descriptors of `malloc_init`: powers of two from 16 bytes to 1 kB. -/
structure Table (h : Heap) : Prop where
  cnt : h.descCnt = 7
  size : ∀ d < 7, (h.descs d).blockSize = 16 * 2 ^ d
  perArena : ∀ d < 7, (h.descs d).blocksPerArena = 4084 / (16 * 2 ^ d)

variable {h h' : Heap} {a b d i n size : Nat} {arena : Arena}

/-- **`malloc_init`** does not panic. -/
theorem mallocInit_table : Returns mallocInit fun h ↦ h.Table ∧ (∀ a, h.arenas a = none) ∧
    ∀ d < 7, (h.descs d).freeList = [] := by
  refine ⟨_, rfl, ⟨rfl, ?_, ?_⟩, fun _ ↦ rfl, ?_⟩ <;> decide

theorem Table.size_pos (ht : h.Table) (hd : d < 7) : 0 < (h.descs d).blockSize := by
  rw [ht.size d hd]
  exact Nat.mul_pos (by decide) (Nat.two_pow_pos d)

/-- The blocks of an arena fit into its page. -/
theorem Table.fits (ht : h.Table) (hd : d < 7) :
    (h.descs d).blocksPerArena * (h.descs d).blockSize ≤ 4084 := by
  rw [ht.size d hd, ht.perArena d hd]
  exact Nat.div_mul_le_self ..

theorem Table.perArena_pos (ht : h.Table) (hd : d < 7) : 0 < (h.descs d).blocksPerArena := by
  rw [ht.perArena d hd]
  exact (by decide : ∀ d < 7, 0 < 4084 / (16 * 2 ^ d)) d hd

theorem Table.perArena_lt (ht : h.Table) (hd : d < 7) : (h.descs d).blocksPerArena < 2 ^ 12 := by
  rw [ht.perArena d hd]
  exact (by decide : ∀ d < 7, 4084 / (16 * 2 ^ d) < 2 ^ 12) d hd

/-- The descriptor that is found is large enough. -/
theorem Table.findDesc_spec (ht : h.Table) (hd : h.findDesc size = some d) :
    d < 7 ∧ size ≤ (h.descs d).blockSize := by
  have hmem := mem_of_find?_eq_some hd
  have hle := find?_some hd
  rw [ht.cnt, mem_range] at hmem
  exact ⟨hmem, of_decide_eq_true hle⟩

theorem Table.lt_of_findDesc (ht : h.Table) (hd : h.findDesc size = none) : 1024 < size := by
  have hnot := find?_eq_none.mp hd 6 (mem_range.mpr (ht.cnt ▸ by decide))
  rw [decide_eq_true_eq, ht.size 6 (by decide)] at hnot
  exact Nat.lt_of_not_le hnot

/-! ## The blocks of an arena -/

/-- Block `i` of an arena at `a` of descriptor `d`. -/
def block (h : Heap) (a d i : Nat) : Nat := a + arenaSize + i * (h.descs d).blockSize

section

variable (ht : h.Table) (hd : d < 7) (ha : a % pgSize = 0) (hi : i < (h.descs d).blocksPerArena)

include ht hd hi

theorem Table.block_le : h.block a d i + (h.descs d).blockSize ≤ a + pgSize := by
  have hfits := ht.fits hd
  have hle : (i + 1) * (h.descs d).blockSize ≤
      (h.descs d).blocksPerArena * (h.descs d).blockSize := Nat.mul_le_mul_right _ hi
  rw [Nat.succ_mul] at hle
  simp only [block, arenaSize, pgSize]
  omega

include ha

/-- `pg_round_down` finds the arena of a block. -/
theorem Table.pgRoundDown_block : pgRoundDown (h.block a d i) = a := by
  have hle := ht.block_le (a := a) hd hi
  have hpos := ht.size_pos hd
  have hge : a ≤ h.block a d i := by
    simp only [block]
    omega
  simp only [pgRoundDown, pgSize] at *
  omega

theorem Table.pgOfs_block : pgOfs (h.block a d i) = arenaSize + i * (h.descs d).blockSize := by
  have hle := ht.block_le (a := a) hd hi
  have hpos := ht.size_pos hd
  simp only [block, pgOfs, pgSize, arenaSize] at *
  omega

end

/-! ## Where the arenas are -/

/-- There may be an arena at `a`: it is at the beginning of a page, and has no page in common with
another one. -/
structure Fits (h : Heap) (a : Nat) (arena : Arena) : Prop where
  aligned : a % pgSize = 0
  ne_zero : a ≠ 0
  magic : arena.magic = arenaMagic
  small : a + pgSize * arena.pageCnt ≤ 2 ^ 32
  pages_pos : 0 < arena.pageCnt
  desc_lt : ∀ d, arena.desc = some d → d < 7
  apart : ∀ a' arena', h.arenas a' = some arena' → a ≠ a' →
    a + pgSize * arena.pageCnt ≤ a' ∨ a' + pgSize * arena'.pageCnt ≤ a

/-- What the addresses of the arenas obey. -/
structure Shaped (h : Heap) : Prop where
  table : h.Table
  fits : ∀ a arena, h.arenas a = some arena → h.Fits a arena

/-- Pages that `palloc_get_multiple` may return: they are in no arena. -/
structure FreshPages (h : Heap) (a cnt : Nat) : Prop where
  aligned : a % pgSize = 0
  ne_zero : a ≠ 0
  small : a + pgSize * cnt ≤ 2 ^ 32
  apart : ∀ a' arena, h.arenas a' = some arena →
    a + pgSize * cnt ≤ a' ∨ a' + pgSize * arena.pageCnt ≤ a

/-- `b` is block `i` of the arena at `a`, which is of descriptor `d`. -/
structure BlockAt (h : Heap) (b a d i : Nat) : Prop where
  arena : ∃ arena, h.arenas a = some arena ∧ arena.desc = some d
  lt : i < (h.descs d).blocksPerArena
  eq : b = h.block a d i

theorem BlockAt.desc_eq (hb : h.BlockAt b a d i) (harena : h.arenas a = some arena) :
    arena.desc = some d := by
  obtain ⟨arena', harena', hdesc⟩ := hb.arena
  obtain rfl := some.inj (harena.symm.trans harena')
  exact hdesc

theorem FreshPages.fits (hf : h.FreshPages a arena.pageCnt) (hmagic : arena.magic = arenaMagic)
    (hpos : 0 < arena.pageCnt) (hdesc : ∀ d, arena.desc = some d → d < 7) : h.Fits a arena :=
  ⟨hf.aligned, hf.ne_zero, hmagic, hf.small, hpos, hdesc,
    fun a' arena' h' _ ↦ hf.apart a' arena' h'⟩

/-- The counter of a small arena may change. -/
theorem Fits.setFreeCnt (hf : h.Fits a arena) (hdesc : arena.desc = some d) (n : Nat) :
    h.Fits a { arena with freeCnt := n } := by
  have hpage : ({ arena with freeCnt := n } : Arena).pageCnt = arena.pageCnt := by
    simp only [Arena.pageCnt, hdesc]
  exact ⟨hf.aligned, hf.ne_zero, hf.magic, hpage ▸ hf.small, hpage ▸ hf.pages_pos, hf.desc_lt,
    hpage ▸ hf.apart⟩

section

variable (hs : h.Shaped)

include hs

/-- A block of an arena lies behind the `struct arena`, in the page. -/
theorem Shaped.block_mem (hb : h.BlockAt b a d i) :
    d < 7 ∧ a % pgSize = 0 ∧ a + arenaSize ≤ b ∧ b + (h.descs d).blockSize ≤ a + pgSize ∧
      a + pgSize ≤ 2 ^ 32 := by
  obtain ⟨⟨arena, harena, hdesc⟩, hlt, rfl⟩ := hb
  have hfits := hs.fits a arena harena
  have hd := hfits.desc_lt d hdesc
  have hsmall := hfits.small
  rw [Arena.pageCnt, hdesc] at hsmall
  refine ⟨hd, hfits.aligned, ?_, hs.table.block_le hd hlt, by omega⟩
  rw [block]
  omega

theorem Shaped.pgRoundDown_blockAt (hb : h.BlockAt b a d i) : pgRoundDown b = a := by
  obtain ⟨hd, ha, -⟩ := hs.block_mem hb
  rw [hb.eq, hs.table.pgRoundDown_block hd ha hb.lt]

theorem Shaped.pgRoundDown_big (harena : h.arenas a = some arena) :
    pgRoundDown (a + arenaSize) = a := by
  have ha := (hs.fits a arena harena).aligned
  simp only [pgRoundDown, pgSize, arenaSize] at *
  omega

/-- The arena and the number of a block are determined by its address. -/
theorem Shaped.blockAt_inj {a' d' i' : Nat} (hb : h.BlockAt b a d i) (hb' : h.BlockAt b a' d' i') :
    a = a' ∧ d = d' ∧ i = i' := by
  obtain rfl : a = a' := by rw [← hs.pgRoundDown_blockAt hb, hs.pgRoundDown_blockAt hb']
  obtain ⟨hd, -⟩ := hs.block_mem hb
  obtain ⟨arena, harena, hdesc⟩ := hb.arena
  obtain rfl : d = d' := some.inj (hdesc.symm.trans (hb'.desc_eq harena))
  refine ⟨rfl, rfl, ?_⟩
  have heq := hb.eq.symm.trans hb'.eq
  rw [block, block, Nat.add_right_inj] at heq
  exact Nat.eq_of_mul_eq_mul_right (hs.table.size_pos hd) heq

/-- **`block_to_arena`** finds the arena of a small block. -/
theorem Shaped.blockToArena_small (hb : h.BlockAt b a d i) (harena : h.arenas a = some arena) :
    h.blockToArena b = some (a, arena) := by
  obtain ⟨hd, ha, hle, -, hsmall⟩ := hs.block_mem hb
  have hdesc := hb.desc_eq harena
  obtain ⟨-, hlt, rfl⟩ := hb
  have hofs : wrap (pgOfs (h.block a d i) + 2 ^ 32 - arenaSize) % (h.descs d).blockSize = 0 := by
    have hpage : pgOfs (h.block a d i) < pgSize := Nat.mod_lt _ (by decide)
    rw [hs.table.pgOfs_block hd ha hlt] at hpage ⊢
    have hwrap : wrap (arenaSize + i * (h.descs d).blockSize + 2 ^ 32 - arenaSize) =
        i * (h.descs d).blockSize := by
      simp only [wrap, pgSize] at *
      omega
    rw [hwrap, Nat.mul_mod_left]
  have hfits := hs.fits a arena harena
  rw [blockToArena, hs.table.pgRoundDown_block hd ha hlt]
  simp only [assert, if_pos hfits.ne_zero, harena, hfits.magic, hdesc, hofs, if_true, some_bind,
    Option.pure_def]

/-- **`block_to_arena`** finds the arena of a big block. -/
theorem Shaped.blockToArena_big (harena : h.arenas a = some arena) (hdesc : arena.desc = none) :
    h.blockToArena (a + arenaSize) = some (a, arena) := by
  have hfits := hs.fits a arena harena
  have hofs : pgOfs (a + arenaSize) = arenaSize := by
    have ha := hfits.aligned
    simp only [pgOfs, pgSize, arenaSize] at *
    omega
  rw [blockToArena, hs.pgRoundDown_big harena]
  simp only [assert, if_pos hfits.ne_zero, harena, hfits.magic, hdesc, hofs, if_true, some_bind,
    Option.pure_def]

/-- **`arena_to_block`**. -/
theorem Shaped.arenaToBlock_eq (harena : h.arenas a = some arena) (hdesc : arena.desc = some d)
    (hi : i < (h.descs d).blocksPerArena) : h.arenaToBlock a i = some (h.block a d i) := by
  have hfits := hs.fits a arena harena
  obtain ⟨-, -, -, hle, hsmall⟩ := hs.block_mem ⟨⟨arena, harena, hdesc⟩, hi, rfl⟩
  have hpos := hs.table.size_pos (hfits.desc_lt d hdesc)
  have hwrap : wrap (a + arenaSize + i * (h.descs d).blockSize) = h.block a d i := by
    rw [block, wrap, Nat.mod_eq_of_lt]
    simp only [block] at hle
    omega
  simp only [arenaToBlock, assert, if_pos hfits.ne_zero, harena, hfits.magic, hdesc, if_pos hi,
    hwrap, if_true, some_bind, Option.pure_def]

end

/-! ## Stores to the heap -/

/-- What a call stores: a list, and the arena at `a` or that there is none any more. -/
def store (h : Heap) (d a : Nat) (freeList : List Nat) (x : Option Arena) : Heap :=
  (h.setFreeList d freeList).setArena a x

section

variable {freeList : List Nat} {x : Option Arena} {d' : Nat}

theorem descs_setFreeList_self :
    (h.setFreeList d freeList).descs d = { h.descs d with freeList } := update_self ..

theorem descs_setFreeList_of_ne (hne : d' ≠ d) : (h.setFreeList d freeList).descs d' = h.descs d' :=
  update_of_ne hne ..

theorem blockSize_setFreeList :
    ((h.setFreeList d freeList).descs d').blockSize = (h.descs d').blockSize := by
  by_cases heq : d' = d
  · rw [heq, descs_setFreeList_self]
  · rw [descs_setFreeList_of_ne heq]

theorem blocksPerArena_setFreeList :
    ((h.setFreeList d freeList).descs d').blocksPerArena = (h.descs d').blocksPerArena := by
  by_cases heq : d' = d
  · rw [heq, descs_setFreeList_self]
  · rw [descs_setFreeList_of_ne heq]

theorem block_setFreeList : (h.setFreeList d freeList).block a d' i = h.block a d' i := by
  rw [block, block, blockSize_setFreeList]

theorem setFreeList_setFreeList {l : List Nat} :
    (h.setFreeList d l).setFreeList d freeList = h.setFreeList d freeList := by
  simp only [setFreeList, update_idem, update_self]

theorem setFreeList_self : h.setFreeList d (h.descs d).freeList = h := by
  simp only [setFreeList, update_eq_self]

theorem Shaped.setFreeList (hs : h.Shaped) (d : Nat) (freeList : List Nat) :
    (h.setFreeList d freeList).Shaped := by
  refine ⟨⟨hs.table.cnt, fun d' hd' ↦ ?_, fun d' hd' ↦ ?_⟩, fun a arena harena ↦ ?_⟩
  · rw [blockSize_setFreeList, hs.table.size d' hd']
  · rw [blocksPerArena_setFreeList, hs.table.perArena d' hd']
  · obtain ⟨h1, h2, h3, h4, h5, h6, h7⟩ := hs.fits a arena harena
    exact ⟨h1, h2, h3, h4, h5, h6, h7⟩

theorem arenas_setArena_self : (h.setArena a x).arenas a = x := update_self ..

theorem arenas_setArena_of_ne {a' : Nat} (hne : a' ≠ a) :
    (h.setArena a x).arenas a' = h.arenas a' :=
  update_of_ne hne ..

theorem Shaped.setArena (hs : h.Shaped) (hx : ∀ arena, x = some arena → h.Fits a arena) :
    (h.setArena a x).Shaped := by
  refine ⟨⟨hs.table.cnt, hs.table.size, hs.table.perArena⟩, fun a' arena' harena' ↦ ?_⟩
  by_cases heq : a' = a
  · subst heq
    rw [arenas_setArena_self] at harena'
    obtain ⟨h1, h2, h3, h4, h5, h6, h7⟩ := hx arena' harena'
    refine ⟨h1, h2, h3, h4, h5, h6, fun a1 arena1 harena1 hne ↦ ?_⟩
    rw [arenas_setArena_of_ne (Ne.symm hne)] at harena1
    exact h7 a1 arena1 harena1 hne
  · rw [arenas_setArena_of_ne heq] at harena'
    obtain ⟨h1, h2, h3, h4, h5, h6, h7⟩ := hs.fits a' arena' harena'
    refine ⟨h1, h2, h3, h4, h5, h6, fun a1 arena1 harena1 hne ↦ ?_⟩
    by_cases heq1 : a1 = a
    · rw [heq1, arenas_setArena_self] at harena1
      rw [heq1]
      exact ((hx arena1 harena1).apart a' arena' harena' (Ne.symm heq)).symm
    · rw [arenas_setArena_of_ne heq1] at harena1
      exact h7 a1 arena1 harena1 hne

theorem blocksPerArena_store :
    ((h.store d a freeList x).descs d').blocksPerArena = (h.descs d').blocksPerArena :=
  blocksPerArena_setFreeList

theorem block_store {a' : Nat} : (h.store d a freeList x).block a' d' i = h.block a' d' i :=
  block_setFreeList

theorem freeList_store : ((h.store d a freeList x).descs d).freeList = freeList :=
  congrArg Desc.freeList descs_setFreeList_self

theorem arenas_store : (h.store d a freeList x).arenas a = x := arenas_setArena_self

theorem store_setFreeList {l : List Nat} {y : Option Arena} :
    ((h.store d a freeList x).setFreeList d l).setArena a y = h.store d a l y := by
  simp only [store, setArena, setFreeList, update_idem, update_self]

theorem Shaped.store (hs : h.Shaped) (hx : ∀ arena, x = some arena → h.Fits a arena) :
    (h.store d a freeList x).Shaped := by
  refine (hs.setFreeList d freeList).setArena fun arena harena ↦ ?_
  obtain ⟨h1, h2, h3, h4, h5, h6, h7⟩ := hx arena harena
  exact ⟨h1, h2, h3, h4, h5, h6, h7⟩

/-- **The loops over the blocks of an arena**, in `malloc` and in `free`: each of the blocks is
added to the list, or is taken from it. -/
theorem Shaped.foldlM_blocks (hs : h.Shaped) (harena : h.arenas a = some arena)
    (hdesc : arena.desc = some d) (f : List Nat → Nat → List Nat) (is : List Nat)
    (his : ∀ i ∈ is, i < (h.descs d).blocksPerArena) (freeList : List Nat) :
    is.foldlM (fun (h : Heap) i ↦ do
      let b ← h.arenaToBlock a i
      return h.setFreeList d (f (h.descs d).freeList b)) (h.setFreeList d freeList) =
    some (h.setFreeList d ((is.map (h.block a d)).foldl f freeList)) := by
  induction is generalizing freeList with
  | nil => rfl
  | cons i is ih =>
    have hi : i < ((h.setFreeList d freeList).descs d).blocksPerArena := by
      rw [blocksPerArena_setFreeList]
      exact his i mem_cons_self
    rw [foldlM_cons, (hs.setFreeList d freeList).arenaToBlock_eq harena hdesc hi]
    simp only [some_bind, Option.pure_def, descs_setFreeList_self, setFreeList_setFreeList,
      block_setFreeList]
    exact ih (fun j hj ↦ his j (mem_cons_of_mem i hj)) _

end

theorem Shaped.newArena_eq (hs : h.Shaped)
    (hfits : h.Fits a ⟨arenaMagic, some d, (h.descs d).blocksPerArena⟩) :
    h.newArena d a = some (h.store d a ((h.descs d).freeList ++
      (range (h.descs d).blocksPerArena).map (h.block a d))
      (some ⟨arenaMagic, some d, (h.descs d).blocksPerArena⟩)) := by
  have hs' := hs.setArena (x := some ⟨arenaMagic, some d, (h.descs d).blocksPerArena⟩)
    fun arena harena ↦ by cases harena; exact hfits
  have hfold := hs'.foldlM_blocks arenas_setArena_self rfl (fun l b ↦ l ++ [b])
    (range (h.descs d).blocksPerArena) (fun i hi ↦ mem_range.mp hi)
    (h.descs d).freeList
  rw [foldl_append_eq_append, ← flatMap_def, flatMap_singleton'] at hfold
  have hself : (h.setArena a (some ⟨arenaMagic, some d, (h.descs d).blocksPerArena⟩)).setFreeList d
      (h.descs d).freeList = h.setArena a (some ⟨arenaMagic, some d, (h.descs d).blocksPerArena⟩) :=
    setFreeList_self
  rw [hself] at hfold
  exact hfold

theorem BlockAt.setFreeList (hb : h.BlockAt b a d i) (d' : Nat) (freeList : List Nat) :
    (h.setFreeList d' freeList).BlockAt b a d i :=
  ⟨hb.arena, Nat.lt_of_lt_of_eq hb.lt blocksPerArena_setFreeList.symm,
    hb.eq.trans block_setFreeList.symm⟩

section

variable (hs : h.Shaped) (hat : h.BlockAt b a d i) (harena : h.arenas a = some arena)

include hs hat

theorem Shaped.block_ne_zero : b ≠ 0 := by
  have hge := (hs.block_mem hat).2.2.1
  simp only [arenaSize] at hge
  omega

theorem Shaped.wrap_freeCnt (hle : arena.freeCnt + 1 ≤ (h.descs d).blocksPerArena) :
    wrap (arena.freeCnt + 1) = arena.freeCnt + 1 := by
  have hlt := hs.table.perArena_lt (hs.block_mem hat).1
  simp only [wrap]
  omega

include harena

/-- `free`, if the arena has other live blocks. -/
theorem Shaped.free_eq_of_lt (hlt : arena.freeCnt + 1 < (h.descs d).blocksPerArena) :
    h.free b = some (none, h.store d a (b :: (h.descs d).freeList)
      (some { arena with freeCnt := arena.freeCnt + 1 })) := by
  have hnot : ¬ arena.freeCnt + 1 ≥ ((h.store d a (b :: (h.descs d).freeList)
      (some { arena with freeCnt := arena.freeCnt + 1 })).descs d).blocksPerArena := by
    rw [blocksPerArena_store]
    exact Nat.not_le_of_lt hlt
  rw [free, if_neg (hs.block_ne_zero hat), hs.blockToArena_small hat harena]
  simp only [some_bind, hat.desc_eq harena, hs.wrap_freeCnt hat (Nat.le_of_lt hlt)]
  exact if_neg hnot

/-- `free`, if the arena has no other live block. -/
theorem Shaped.free_eq_of_last (hlast : arena.freeCnt + 1 = (h.descs d).blocksPerArena) :
    h.free b = some (some (a, 1), h.store d a ((b :: (h.descs d).freeList).diff
      ((List.range (h.descs d).blocksPerArena).map (h.block a d))) none) := by
  obtain ⟨magic, desc, freeCnt⟩ := arena
  obtain rfl : desc = some d := hat.desc_eq harena
  let h1 := h.store d a (b :: (h.descs d).freeList) (some ⟨magic, some d, freeCnt + 1⟩)
  have hs1 : h1.Shaped := hs.store fun arena' harena' ↦ by
    cases harena'
    exact (hs.fits a _ harena).setFreeCnt rfl _
  have hcnt : (h1.descs d).blocksPerArena = (h.descs d).blocksPerArena := blocksPerArena_store
  have hself : h1.setFreeList d (b :: (h.descs d).freeList) = h1 := by
    have := setFreeList_self (h := h1) (d := d)
    rwa [freeList_store] at this
  have hfold := hs1.foldlM_blocks arenas_store rfl List.erase
    (List.range (h1.descs d).blocksPerArena) (fun i hi ↦ mem_range.mp hi)
    (b :: (h.descs d).freeList)
  rw [← diff_eq_foldl, hself] at hfold
  rw [free, if_neg (hs.block_ne_zero hat), hs.blockToArena_small hat harena]
  simp only [some_bind, hs.wrap_freeCnt hat (Nat.le_of_eq hlast)]
  refine (if_pos (Nat.le_of_eq (hcnt.trans hlast.symm))).trans ?_
  refine bind_eq_some_iff.mpr ⟨(), if_pos (hlast.trans hcnt.symm), ?_⟩
  refine bind_eq_some_iff.mpr ⟨_, hfold, ?_⟩
  have hblock : h1.block a d = h.block a d := funext fun i ↦ block_store
  rw [hcnt, hblock]
  exact congrArg (fun h' ↦ some (some (a, 1), h')) store_setFreeList

end

end Heap

end Pintos
