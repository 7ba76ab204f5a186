import Pintos.Threads.Malloc

/-!
# The blocks of the heap

Which blocks are in use is not stored anywhere in `threads/malloc.c`: a block of an arena is on the
free list or belongs to a caller.  `HeapUse` adds the second half to the state.

* `HeapUse.Sound` — the invariant: a block of an arena is live or on the free list, `free_cnt`
  counts the latter, and each arena has a live block;
* `HeapUse.Local.books` — the frame rule: a call concerns one arena, and the others are as before;
* `HeapUse.Sound.malloc_of_room` and `HeapUse.Sound.free` — the calls keep the invariant, and no
  assertion fails;
* `HeapUse.blocks_disjoint` — what follows for any calls;
* `Heap.freshPages_of_getMultiple` — what is asked of the page allocator is what it does.
-/

set_option autoImplicit false

namespace Pintos

open Function List Option

/-! ## The blocks that are in use -/

/-- The heap, and the blocks that have been obtained and not yet freed, with the size that was asked
for. -/
structure HeapUse where
  heap : Heap
  live : Nat → Option Nat

variable {got : Option Nat}

namespace HeapUse

variable {s s' : HeapUse} {a a' b d d' i n p size : Nat} {arena : Arena}

/-- The blocks of an arena that are not live, by their numbers. -/
def idle (s : HeapUse) (a d : Nat) : Finset Nat :=
  (Finset.range (s.heap.descs d).blocksPerArena).filter fun i ↦
    s.live (s.heap.block a d i) = none

theorem mem_idle : i ∈ s.idle a d ↔
    i < (s.heap.descs d).blocksPerArena ∧ s.live (s.heap.block a d i) = none := by
  rw [idle, Finset.mem_filter, Finset.mem_range]

theorem card_idle_le : (s.idle a d).card ≤ (s.heap.descs d).blocksPerArena := by
  calc (s.idle a d).card ≤ (Finset.range (s.heap.descs d).blocksPerArena).card :=
        Finset.card_filter_le ..
    _ = (s.heap.descs d).blocksPerArena := Finset.card_range _

/-- `b` is a block with room for `size` bytes. -/
inductive Placed (h : Heap) (b size : Nat) : Prop
  | small {a d i : Nat} (block : h.BlockAt b a d i) (le : size ≤ (h.descs d).blockSize)
  | big {a : Nat} {arena : Arena} (arenas : h.arenas a = some arena) (desc : arena.desc = none)
    (eq : b = a + arenaSize) (le : arenaSize + size ≤ pgSize * arena.freeCnt)

/-- The lists and the counters are right. -/
structure Books (s : HeapUse) : Prop where
  shaped : s.heap.Shaped
  count : ∀ a arena d, s.heap.arenas a = some arena → arena.desc = some d →
    arena.freeCnt = (s.idle a d).card
  nodup : ∀ d < 7, (s.heap.descs d).freeList.Nodup
  mem : ∀ d < 7, ∀ b, b ∈ (s.heap.descs d).freeList ↔
    (∃ a i, s.heap.BlockAt b a d i) ∧ s.live b = none
  placed : ∀ b size, s.live b = some size → Placed s.heap b size

/-- If there is an arena at `a`, one of its blocks is live. -/
def Busy (s : HeapUse) (a : Nat) : Prop := ∀ arena, s.heap.arenas a = some arena →
  (∀ d, arena.desc = some d → arena.freeCnt < (s.heap.descs d).blocksPerArena) ∧
  (arena.desc = none → s.live (a + arenaSize) ≠ none)

/-- The invariant between two calls. -/
structure Sound (s : HeapUse) : Prop extends Books s where
  busy : ∀ a, s.Busy a

/-- The two states differ at most in the arena at `a` and its blocks, which are of descriptor `d` if
they are small. -/
structure Local (s s' : HeapUse) (a d : Nat) : Prop where
  size : ∀ d', (s'.heap.descs d').blockSize = (s.heap.descs d').blockSize
  perArena : ∀ d', (s'.heap.descs d').blocksPerArena = (s.heap.descs d').blocksPerArena
  freeList : ∀ d' ≠ d, (s'.heap.descs d').freeList = (s.heap.descs d').freeList
  arenas : ∀ a' ≠ a, s'.heap.arenas a' = s.heap.arenas a'
  desc : ∀ arena d', s.heap.arenas a = some arena ∨ s'.heap.arenas a = some arena →
    arena.desc = some d' → d' = d
  live : ∀ b, pgRoundDown b ≠ a → s'.live b = s.live b

theorem local_store {freeList : List Nat} {x : Option Arena} {live : Nat → Option Nat}
    (hlive : ∀ b, pgRoundDown b ≠ a → live b = s.live b)
    (hdesc : ∀ arena d', s.heap.arenas a = some arena ∨ x = some arena →
      arena.desc = some d' → d' = d) : Local s ⟨s.heap.store d a freeList x, live⟩ a d where
  size _ := Heap.blockSize_setFreeList
  perArena _ := Heap.blocksPerArena_setFreeList
  freeList _ hne := congrArg Desc.freeList (Heap.descs_setFreeList_of_ne hne)
  arenas _ hne := Heap.arenas_setArena_of_ne hne
  desc arena d' h := by
    dsimp only [Heap.store] at h
    rw [Heap.arenas_setArena_self] at h
    exact hdesc arena d' h
  live := hlive

section

variable (hl : Local s s' a d)

include hl

theorem Local.block_eq (a' d' i : Nat) : s'.heap.block a' d' i = s.heap.block a' d' i := by
  rw [Heap.block, Heap.block, hl.size]

theorem Local.blockAt_iff (hne : a' ≠ a) :
    s'.heap.BlockAt b a' d' i ↔ s.heap.BlockAt b a' d' i := by
  constructor
  · rintro ⟨harena, hlt, heq⟩
    exact ⟨hl.arenas a' hne ▸ harena, hl.perArena d' ▸ hlt, hl.block_eq a' d' i ▸ heq⟩
  · rintro ⟨harena, hlt, heq⟩
    exact ⟨(hl.arenas a' hne).symm ▸ harena, (hl.perArena d').symm ▸ hlt,
      (hl.block_eq a' d' i).symm ▸ heq⟩

theorem Local.idle_eq (hs : s.heap.Shaped) (harena : s.heap.arenas a' = some arena)
    (hdesc : arena.desc = some d') (hne : a' ≠ a) : s'.idle a' d' = s.idle a' d' := by
  ext i
  rw [mem_idle, mem_idle, hl.perArena, hl.block_eq]
  refine and_congr_right fun hi ↦ ?_
  have hround := hs.pgRoundDown_blockAt ⟨⟨arena, harena, hdesc⟩, hi, rfl⟩
  rw [hl.live _ (ne_of_eq_of_ne hround hne)]

/-- **The frame rule**: the books are right if they are right for the arena that changes. -/
theorem Local.books (hb : s.Books) (hs : s'.heap.Shaped)
    (hcount : ∀ arena, s'.heap.arenas a = some arena → arena.desc = some d →
      arena.freeCnt = (s'.idle a d).card) (hnodup : (s'.heap.descs d).freeList.Nodup)
    (hmem : ∀ b, b ∈ (s'.heap.descs d).freeList ↔
      (b ∈ (s.heap.descs d).freeList ∧ pgRoundDown b ≠ a) ∨
        ((∃ i, s'.heap.BlockAt b a d i) ∧ s'.live b = none))
    (hplaced : ∀ b size, pgRoundDown b = a → s'.live b = some size → Placed s'.heap b size) :
    s'.Books := by
  refine ⟨hs, fun a' arena d' harena hdesc ↦ ?_, fun d' hd' ↦ ?_, fun d' hd' b ↦ ?_,
    fun b size hlive ↦ ?_⟩
  · by_cases heq : a' = a
    · subst heq
      obtain rfl := hl.desc arena d' (.inr harena) hdesc
      exact hcount arena harena hdesc
    · rw [hl.arenas a' heq] at harena
      rw [hl.idle_eq hb.shaped harena hdesc heq]
      exact hb.count a' arena d' harena hdesc
  · by_cases heq : d' = d
    · exact heq ▸ hnodup
    · rw [hl.freeList d' heq]
      exact hb.nodup d' hd'
  · -- A block of another arena is on the list if it was.
    have hother : b ∈ (s.heap.descs d').freeList ∧ pgRoundDown b ≠ a ↔
        (∃ a' i, s'.heap.BlockAt b a' d' i ∧ a' ≠ a) ∧ s'.live b = none := by
      rw [hb.mem d' hd']
      constructor
      · rintro ⟨⟨⟨a', i, hat⟩, hlive⟩, hne⟩
        have hround := hb.shaped.pgRoundDown_blockAt hat
        exact ⟨⟨a', i, (hl.blockAt_iff (hround ▸ hne)).mpr hat, hround ▸ hne⟩,
          (hl.live b hne).trans hlive⟩
      · rintro ⟨⟨a', i, hat, hne⟩, hlive⟩
        have hround := hs.pgRoundDown_blockAt hat
        exact ⟨⟨⟨a', i, (hl.blockAt_iff hne).mp hat⟩, hl.live b (hround ▸ hne) ▸ hlive⟩,
          hround ▸ hne⟩
    have hsplit : (∃ a' i, s'.heap.BlockAt b a' d' i) ↔
        (∃ a' i, s'.heap.BlockAt b a' d' i ∧ a' ≠ a) ∨ ∃ i, s'.heap.BlockAt b a d' i := by
      grind
    by_cases heq : d' = d
    · subst heq
      rw [hmem, hother, hsplit, or_and_right]
    · have hnone : ¬ ∃ i, s'.heap.BlockAt b a d' i := by
        rintro ⟨i, ⟨arena, harena, hdesc⟩, -⟩
        exact heq (hl.desc arena d' (.inr harena) hdesc)
      have hne : b ∈ (s.heap.descs d').freeList → pgRoundDown b ≠ a := by
        intro hin hround
        obtain ⟨⟨a', i, hat⟩, -⟩ := (hb.mem d' hd' b).mp hin
        obtain rfl : a' = a := (hb.shaped.pgRoundDown_blockAt hat).symm.trans hround
        obtain ⟨arena, harena, hdesc⟩ := hat.arena
        exact heq (hl.desc arena d' (.inl harena) hdesc)
      rw [hl.freeList d' heq, hsplit, or_iff_left hnone, ← hother, and_iff_left_of_imp hne]
  · by_cases hround : pgRoundDown b = a
    · exact hplaced b size hround hlive
    · rw [hl.live b hround] at hlive
      cases hb.placed b size hlive with
      | small hat hle =>
        have hne := hb.shaped.pgRoundDown_blockAt hat
        exact .small ((hl.blockAt_iff (hne ▸ hround)).mpr hat) (hl.size _ ▸ hle)
      | big harena hdesc heq hle =>
        have hne := hb.shaped.pgRoundDown_big harena
        rw [heq, hne] at hround
        exact .big ((hl.arenas _ hround).trans harena) hdesc heq hle

theorem Local.busy (hs : s.heap.Shaped) (hbusy : s.Busy a') (hne : a' ≠ a) : s'.Busy a' := by
  intro arena harena
  rw [hl.arenas a' hne] at harena
  obtain ⟨hsmall, hbig⟩ := hbusy arena harena
  refine ⟨fun d' hdesc ↦ hl.perArena d' ▸ hsmall d' hdesc, fun hdesc ↦ ?_⟩
  rw [hl.live _ ((hs.pgRoundDown_big harena).symm ▸ hne)]
  exact hbig hdesc

theorem Local.sound (hs : s.heap.Shaped) (hb : s'.Books) (hbusy : ∀ a' ≠ a, s.Busy a')
    (ha : s'.Busy a) : s'.Sound := by
  refine ⟨hb, fun a' ↦ ?_⟩
  by_cases heq : a' = a
  · exact heq ▸ ha
  · exact hl.busy hs (hbusy a' heq) heq

end

/-! ## The calls -/

section

variable (hb : s.Books) (hat : s.heap.BlockAt b a d i) (harena : s.heap.arenas a = some arena)

include hb hat

/-- A store to one block of an arena. -/
theorem Books.local_block (freeList : List Nat) (x : Option Arena) (v : Option Nat)
    (hx : ∀ arena', x = some arena' → arena'.desc = some d) :
    Local s ⟨s.heap.store d a freeList x, update s.live b v⟩ a d := by
  refine local_store (fun b' hne ↦ ?_) fun arena' d' harena' hdesc' ↦ ?_
  · refine update_of_ne ?_ ..
    rintro rfl
    exact hne (hb.shaped.pgRoundDown_blockAt hat)
  · have hdesc : arena'.desc = some d := harena'.elim hat.desc_eq (hx arena')
    exact some.inj (hdesc'.symm.trans hdesc)

theorem Books.block_eq_iff {j : Nat} (hj : j < (s.heap.descs d).blocksPerArena) :
    s.heap.block a d j = b ↔ j = i := by
  refine ⟨fun heq ↦ ?_, fun heq ↦ heq ▸ hat.eq.symm⟩
  exact (hb.shaped.blockAt_inj ⟨hat.arena, hj, heq.symm⟩ hat).2.2

theorem Books.idle_take (hl : Local s s' a d) (hlive : s'.live = update s.live b (some size)) :
    s'.idle a d = (s.idle a d).erase i := by
  ext j
  rw [Finset.mem_erase, mem_idle, mem_idle, hl.perArena, hl.block_eq, hlive, and_left_comm]
  refine and_congr_right fun hj ↦ ?_
  by_cases heq : j = i
  · subst heq
    rw [← hat.eq, update_self]
    simp
  · rw [update_of_ne (mt (hb.block_eq_iff hat hj).mp heq)]
    simp [heq]

theorem Books.idle_give (hl : Local s s' a d) (hlive : s'.live = update s.live b none) :
    s'.idle a d = insert i (s.idle a d) := by
  ext j
  rw [Finset.mem_insert, mem_idle, mem_idle, hl.perArena, hl.block_eq, hlive]
  by_cases heq : j = i
  · subst heq
    rw [← hat.eq, update_self]
    simp [hat.lt]
  · simp only [heq, false_or]
    refine and_congr_right fun hj ↦ ?_
    rw [update_of_ne (mt (hb.block_eq_iff hat hj).mp heq)]

/-- A block of the arena is live or on the list. -/
theorem Books.mem_iff {b' : Nat} (hround : pgRoundDown b' = a) :
    b' ∈ (s.heap.descs d).freeList ↔ (∃ i, s.heap.BlockAt b' a d i) ∧ s.live b' = none := by
  rw [hb.mem d (hb.shaped.block_mem hat).1]
  refine and_congr_left fun _ ↦ ⟨?_, fun ⟨i', hat'⟩ ↦ ⟨a, i', hat'⟩⟩
  rintro ⟨a', i', hat'⟩
  obtain rfl : a' = a := (hb.shaped.pgRoundDown_blockAt hat').symm.trans hround
  exact ⟨i', hat'⟩

include harena

/-- **The list, the counter and one block change**: it is taken, or it is given back. -/
theorem Books.setBlock {l : List Nat} {v : Option Nat} (hnodup : l.Nodup)
    (hmem : ∀ b', b' ∈ l ↔ (b' = b ∧ v = none) ∨ (b' ≠ b ∧ b' ∈ (s.heap.descs d).freeList))
    (hcount : ∀ s', Local s s' a d → s'.live = update s.live b v → n = (s'.idle a d).card)
    (hsize : ∀ size, v = some size → size ≤ (s.heap.descs d).blockSize)
    (hn : n < (s.heap.descs d).blocksPerArena) (hbusy : ∀ a' ≠ a, s.Busy a') :
    Sound ⟨s.heap.store d a l (some { arena with freeCnt := n }), update s.live b v⟩ := by
  have hdesc := hat.desc_eq harena
  have hround := hb.shaped.pgRoundDown_blockAt hat
  have hl := hb.local_block hat l (some { arena with freeCnt := n }) v
    fun arena' h ↦ by cases h; exact hdesc
  have hshaped : (s.heap.store d a l (some { arena with freeCnt := n })).Shaped :=
    hb.shaped.store fun arena' h ↦ by
      cases h
      exact (hb.shaped.fits a arena harena).setFreeCnt hdesc n
  have harena' : (s.heap.store d a l (some { arena with freeCnt := n })).arenas a =
      some { arena with freeCnt := n } := Heap.arenas_store
  have hlist : ((s.heap.store d a l (some { arena with freeCnt := n })).descs d).freeList = l :=
    Heap.freeList_store
  have hblock : ∀ {b' i'},
      (s.heap.store d a l (some { arena with freeCnt := n })).BlockAt b' a d i' ↔
        s.heap.BlockAt b' a d i' := by
    intro b' i'
    constructor
    · rintro ⟨-, hlt, heq⟩
      exact ⟨hat.arena, hl.perArena d ▸ hlt, hl.block_eq a d i' ▸ heq⟩
    · rintro ⟨-, hlt, heq⟩
      exact ⟨⟨_, harena', hdesc⟩, (hl.perArena d).symm ▸ hlt, (hl.block_eq a d i').symm ▸ heq⟩
  refine hl.sound hb.shaped (hl.books hb hshaped ?_ ?_ ?_ ?_) hbusy ?_
  · intro arena1 h1 _
    cases harena'.symm.trans h1
    exact hcount _ hl rfl
  · rw [hlist]
    exact hnodup
  · intro b'
    simp only [hblock, hlist]
    rw [hmem]
    by_cases heq : b' = b
    · subst heq
      have hex : ∃ i, s.heap.BlockAt b' a d i := ⟨i, hat⟩
      simp [hround, hex]
    · rw [update_of_ne heq]
      by_cases hr : pgRoundDown b' = a
      · rw [hb.mem_iff hat hr]
        simp [heq, hr]
      · have hno : ¬ ∃ i, s.heap.BlockAt b' a d i := by
          rintro ⟨i', hat'⟩
          exact hr (hb.shaped.pgRoundDown_blockAt hat')
        simp [heq, hr, hno]
  · intro b' size hr hlive
    dsimp only at hlive
    by_cases heq : b' = b
    · rw [heq, update_self] at hlive
      exact .small (hblock.mpr (heq ▸ hat)) (hl.size d ▸ hsize size hlive)
    · rw [update_of_ne heq] at hlive
      cases hb.placed b' size hlive with
      | small hat' hle =>
        obtain rfl := (hb.shaped.pgRoundDown_blockAt hat').symm.trans hr
        obtain rfl := some.inj (hdesc.symm.trans (hat'.desc_eq harena))
        exact .small (hblock.mpr hat') (hl.size _ ▸ hle)
      | big harena1 hdesc1 heq1 hle =>
        rw [heq1, hb.shaped.pgRoundDown_big harena1] at hr
        subst hr
        cases harena.symm.trans harena1
        cases hdesc.symm.trans hdesc1
  · intro arena1 h1
    cases harena'.symm.trans h1
    refine ⟨fun d' hd' ↦ ?_, fun hnone ↦ ?_⟩
    · obtain rfl : d = d' := some.inj (hdesc.symm.trans hd')
      rw [hl.perArena]
      exact hn
    · cases hdesc.symm.trans hnone

end

/-- **A block is taken from the free list.**  Only the arena it is in may have had no live block. -/
theorem Books.takeBlock {l : List Nat} (hb : s.Books) (hat : s.heap.BlockAt b a d i)
    (hlist : (s.heap.descs d).freeList = b :: l)
    (hsize : size ≤ (s.heap.descs d).blockSize) (hbusy : ∀ a' ≠ a, s.Busy a') :
    Returns (s.heap.takeBlock d) fun r ↦ r.1 = b ∧ s.live b = none ∧
      Sound ⟨r.2, update s.live b (some size)⟩ := by
  have hd := (hb.shaped.block_mem hat).1
  obtain ⟨arena, harena, hdesc⟩ := hat.arena
  have hfree : b ∈ (s.heap.descs d).freeList := hlist ▸ mem_cons_self
  have hlive := ((hb.mem d hd b).mp hfree).2
  have hidle : i ∈ s.idle a d := mem_idle.mpr ⟨hat.lt, hat.eq ▸ hlive⟩
  have hcnt := hb.count a arena d harena hdesc
  have hlt := hb.shaped.table.perArena_lt hd
  have hle := card_idle_le (s := s) (a := a) (d := d)
  have hpos : 0 < (s.idle a d).card := Finset.card_pos.mpr ⟨i, hidle⟩
  have hwrap : wrap (arena.freeCnt + 2 ^ 32 - 1) = arena.freeCnt - 1 := by
    simp only [wrap]
    omega
  have hnodup := hb.nodup d hd
  rw [hlist, nodup_cons] at hnodup
  refine ⟨(b, s.heap.store d a l (some { arena with freeCnt := arena.freeCnt - 1 })), ?_, rfl,
    hlive, hb.setBlock hat harena hnodup.2 (fun b' ↦ ?_) (fun s' hl hlive' ↦ ?_) ?_ (by omega)
      hbusy⟩
  · have hto := (hb.shaped.setFreeList d l).blockToArena_small (hat.setFreeList d l) harena
    simp only [Heap.takeBlock, hlist, hto, some_bind, Option.pure_def, hwrap]
    rfl
  · rw [hlist, mem_cons]
    grind
  · rw [hb.idle_take hat hl hlive', Finset.card_erase_of_mem hidle, hcnt]
  · rintro _ ⟨⟩
    exact hsize

/-- **`block_size`** of a live block: it has room for what was asked for, and is behind the
`struct arena`, in the pages of its arena. -/
theorem Books.blockSize_spec (hb : s.Books) (hlive : s.live b = some size) : ∃ a arena n,
    s.heap.arenas a = some arena ∧ pgRoundDown b = a ∧ s.heap.blockSize b = some n ∧ size ≤ n ∧
      a + arenaSize ≤ b ∧ b + n ≤ a + pgSize * arena.pageCnt ∧
      ((∃ d i, s.heap.BlockAt b a d i ∧ n = (s.heap.descs d).blockSize) ∨
        arena.desc = none ∧ b = a + arenaSize) := by
  cases hb.placed b size hlive with
  | @small a d i hat hle =>
    obtain ⟨arena, harena, hdesc⟩ := hat.arena
    obtain ⟨hd, -, hge, hlt, -⟩ := hb.shaped.block_mem hat
    refine ⟨a, arena, (s.heap.descs d).blockSize, harena, hb.shaped.pgRoundDown_blockAt hat, ?_,
      hle, hge, ?_, .inl ⟨d, i, hat, rfl⟩⟩
    · simp only [Heap.blockSize, hb.shaped.blockToArena_small hat harena, hdesc, some_bind,
        Option.pure_def]
    · simpa only [Arena.pageCnt, hdesc, Nat.mul_one] using hlt
  | @big a arena harena hdesc heq hle =>
    subst heq
    have hfits := hb.shaped.fits a arena harena
    have hofs : pgOfs (a + arenaSize) = arenaSize := by
      have ha := hfits.aligned
      simp only [pgOfs, pgSize, arenaSize] at *
      omega
    have hsmall := hfits.small
    have hwrap : wrap (pgSize * arena.freeCnt + 2 ^ 32 - arenaSize) =
        pgSize * arena.freeCnt - arenaSize := by
      have hne := hfits.ne_zero
      simp only [Arena.pageCnt, hdesc, wrap, arenaSize, pgSize] at *
      omega
    refine ⟨a, arena, pgSize * arena.freeCnt - arenaSize, harena, hb.shaped.pgRoundDown_big harena,
      ?_, by omega, Nat.le_refl _, ?_, .inr ⟨hdesc, rfl⟩⟩
    · simp only [Heap.blockSize, hb.shaped.blockToArena_big harena hdesc, hdesc, hofs, hwrap,
        some_bind, Option.pure_def]
    · simp only [Arena.pageCnt, hdesc]
      omega

/-- The live blocks of an arena: those of its descriptor, or one big block. -/
theorem Books.live_cases (hb : s.Books) (harena : s.heap.arenas a = some arena)
    (hround : pgRoundDown b = a) (hlive : s.live b ≠ none) :
    (∃ d i, arena.desc = some d ∧ s.heap.BlockAt b a d i) ∨
      (arena.desc = none ∧ b = a + arenaSize) := by
  obtain ⟨size, hsize⟩ := ne_none_iff_exists'.mp hlive
  obtain ⟨a', arena', n, harena', hround', -, -, -, -, hkind⟩ := hb.blockSize_spec hsize
  obtain rfl : a' = a := hround'.symm.trans hround
  obtain rfl : arena = arena' := some.inj (harena.symm.trans harena')
  rcases hkind with ⟨d, i, hat, -⟩ | hbig
  · exact .inl ⟨d, i, hat.desc_eq harena, hat⟩
  · exact .inr hbig

/-- There is nothing in the pages that `palloc_get_multiple` returns. -/
theorem Books.fresh (hb : s.Books) {cnt : Nat} (hf : s.heap.FreshPages a cnt) (hcnt : 0 < cnt) :
    s.heap.arenas a = none ∧ ∀ b, pgRoundDown b = a → s.live b = none := by
  have hnone : s.heap.arenas a = none := by
    cases harena : s.heap.arenas a with
    | none => rfl
    | some arena =>
      have hpos := (hb.shaped.fits a arena harena).pages_pos
      have hapart := hf.apart a arena harena
      simp only [pgSize] at hapart
      omega
  refine ⟨hnone, fun b hround ↦ ?_⟩
  cases hlive : s.live b with
  | none => rfl
  | some size =>
    obtain ⟨a', arena, -, harena, hround', -⟩ := hb.blockSize_spec hlive
    rw [← hround'.symm.trans hround, harena] at hnone
    cases hnone

/-- **A new arena**: its blocks are on the list, and none of them is live. -/
theorem Books.newArena (hb : s.Books) (hd : d < 7) (hf : s.heap.FreshPages a 1)
    (hempty : (s.heap.descs d).freeList = []) :
    Returns (s.heap.newArena d a) fun h ↦ Books ⟨h, s.live⟩ ∧ Local s ⟨h, s.live⟩ a d ∧
      ∃ b l, (h.descs d).freeList = b :: l ∧ h.BlockAt b a d 0 := by
  obtain ⟨hnone, hdead⟩ := hb.fresh hf Nat.one_pos
  let arena : Arena := ⟨arenaMagic, some d, (s.heap.descs d).blocksPerArena⟩
  let l := (List.range (s.heap.descs d).blocksPerArena).map (s.heap.block a d)
  have hfits : s.heap.Fits a arena :=
    Heap.FreshPages.fits hf rfl Nat.one_pos fun d' hd' ↦ by cases hd'; exact hd
  have hl : Local s ⟨s.heap.store d a l (some arena), s.live⟩ a d := by
    refine local_store (fun _ _ ↦ rfl) fun arena' d' harena' hdesc ↦ ?_
    rcases harena' with harena' | harena'
    · cases hnone.symm.trans harena'
    · cases harena'
      exact (some.inj hdesc).symm
  have hshaped : (s.heap.store d a l (some arena)).Shaped :=
    hb.shaped.store fun arena' h ↦ by cases h; exact hfits
  have harena : (s.heap.store d a l (some arena)).arenas a = some arena := Heap.arenas_store
  have hlist : ((s.heap.store d a l (some arena)).descs d).freeList = l := Heap.freeList_store
  have hblock : ∀ {b i}, (s.heap.store d a l (some arena)).BlockAt b a d i ↔
      i < (s.heap.descs d).blocksPerArena ∧ s.heap.block a d i = b := by
    intro b i
    constructor
    · rintro ⟨-, hlt, heq⟩
      exact ⟨hl.perArena d ▸ hlt, (heq.trans (hl.block_eq a d i)).symm⟩
    · rintro ⟨hlt, rfl⟩
      exact ⟨⟨arena, harena, rfl⟩, (hl.perArena d).symm ▸ hlt, (hl.block_eq a d i).symm⟩
  have hround : ∀ i < (s.heap.descs d).blocksPerArena, pgRoundDown (s.heap.block a d i) = a :=
    fun i hi ↦ hshaped.pgRoundDown_blockAt (hblock.mpr ⟨hi, rfl⟩)
  have hmem : ∀ b, b ∈ l ↔ ∃ i, (s.heap.store d a l (some arena)).BlockAt b a d i := by
    intro b
    simp only [l, List.mem_map, mem_range, hblock]
  refine ⟨s.heap.store d a l (some arena), ?_, hl.books hb hshaped ?_ ?_ ?_ ?_, hl, ?_⟩
  · rw [hb.shaped.newArena_eq hfits, hempty, nil_append]
  · intro arena' harena' _
    cases harena.symm.trans harena'
    have hfull : (⟨s.heap.store d a l (some arena), s.live⟩ : HeapUse).idle a d =
        Finset.range (s.heap.descs d).blocksPerArena := by
      ext i
      rw [mem_idle, Finset.mem_range, hl.perArena, hl.block_eq]
      exact and_iff_left_of_imp fun hi ↦ hdead _ (hround i hi)
    rw [hfull, Finset.card_range]
  · rw [hlist]
    refine List.Nodup.map_on (fun i hi j hj heq ↦ ?_) nodup_range
    rw [mem_range] at hi hj
    exact (hshaped.blockAt_inj (hblock.mpr ⟨hi, heq⟩) (hblock.mpr ⟨hj, rfl⟩)).2.2
  · intro b
    rw [hlist, hempty, hmem]
    simp only [not_mem_nil, false_and, false_or]
    refine (and_iff_left_of_imp ?_).symm
    rintro ⟨i, hat⟩
    exact hdead b (hshaped.pgRoundDown_blockAt hat)
  · intro b size hr hlive
    cases (hdead b hr).symm.trans hlive
  · have hpos := hb.shaped.table.perArena_pos hd
    obtain ⟨k, hk⟩ := Nat.exists_eq_succ_of_ne_zero hpos.ne'
    refine ⟨s.heap.block a d 0, (List.range k).map fun i ↦ s.heap.block a d (i + 1), ?_,
      hblock.mpr ⟨hpos, rfl⟩⟩
    rw [hlist]
    simp only [l, hk, range_succ_eq_map, map_cons, List.map_map]
    rfl

/-- **The pages of a big block** are obtained or given back; the lists do not change. -/
theorem Sound.setBig {x : Option Arena} {v : Option Nat} (hs : s.Sound) (ha : a % pgSize = 0)
    (hold : ∀ arena, s.heap.arenas a = some arena → arena.desc = none)
    (hx : ∀ arena, x = some arena → arena.desc = none ∧ s.heap.Fits a arena ∧
      ∃ size, v = some size ∧ arenaSize + size ≤ pgSize * arena.freeCnt) (hv : x = none → v = none)
    (hdead : ∀ b, pgRoundDown b = a → b ≠ a + arenaSize → s.live b = none) :
    Sound ⟨s.heap.setArena a x, update s.live (a + arenaSize) v⟩ := by
  have hround : pgRoundDown (a + arenaSize) = a := by
    simp only [pgRoundDown, pgSize, arenaSize] at *
    omega
  have hl : Local s ⟨s.heap.store 0 a (s.heap.descs 0).freeList x,
      update s.live (a + arenaSize) v⟩ a 0 := by
    refine local_store (fun b hne ↦ update_of_ne ?_ ..) fun arena d harena hdesc ↦ ?_
    · rintro rfl
      exact hne hround
    · have hnone : arena.desc = none := harena.elim (hold arena) fun h ↦ (hx arena h).1
      cases hnone.symm.trans hdesc
  rw [Heap.store, Heap.setFreeList_self] at hl
  have harena : (s.heap.setArena a x).arenas a = x := Heap.arenas_setArena_self
  have hno : ∀ b i, ¬ (s.heap.setArena a x).BlockAt b a 0 i := by
    rintro b i ⟨⟨arena, harena', hdesc⟩, -⟩
    cases (hx arena (harena.symm.trans harena')).1.symm.trans hdesc
  refine hl.sound hs.shaped (hl.books hs.toBooks (hs.shaped.setArena fun arena h ↦ (hx arena h).2.1)
    ?_ (hs.nodup 0 (by decide)) ?_ ?_) (fun a' _ ↦ hs.busy a') ?_
  · intro arena harena' hdesc
    cases (hx arena (harena.symm.trans harena')).1.symm.trans hdesc
  · intro b
    have hne : b ∈ (s.heap.descs 0).freeList → pgRoundDown b ≠ a := by
      intro hin heq
      obtain ⟨⟨a', i, hat⟩, -⟩ := (hs.mem 0 (by decide) b).mp hin
      obtain rfl := (hs.shaped.pgRoundDown_blockAt hat).symm.trans heq
      obtain ⟨arena, harena', hdesc⟩ := hat.arena
      cases (hold arena harena').symm.trans hdesc
    have hiff : b ∈ ((s.heap.setArena a x).descs 0).freeList ↔ b ∈ (s.heap.descs 0).freeList := .rfl
    rw [hiff, and_iff_left_of_imp hne]
    simp [hno]
  · intro b size hr hlive
    dsimp only at hlive
    by_cases heq : b = a + arenaSize
    · rw [heq, update_self] at hlive
      cases x with
      | none => cases (hv rfl).symm.trans hlive
      | some arena =>
        obtain ⟨hdesc, -, size', hsize', hle⟩ := hx arena rfl
        cases hsize'.symm.trans hlive
        exact .big harena hdesc heq hle
    · rw [update_of_ne heq, hdead b hr heq] at hlive
      cases hlive
  · intro arena harena'
    obtain ⟨hdesc, -, size, hsize, -⟩ := hx arena (harena.symm.trans harena')
    refine ⟨fun d hd ↦ ?_, fun _ ↦ ?_⟩
    · cases hdesc.symm.trans hd
    · dsimp only
      rw [update_self, hsize]
      exact some_ne_none size

theorem bigPages_spec (h1024 : 1024 < size) (hsize : size ≤ 2 ^ 31) :
    0 < Heap.bigPages size ∧ arenaSize + size ≤ pgSize * Heap.bigPages size := by
  simp only [Heap.bigPages, wrap, arenaSize, pgSize]
  omega

/-- There is memory for a request: a block on the list of its descriptor, or pages. -/
def Available (h : Heap) (size : Nat) (got : Option Nat) : Prop :=
  got ≠ none ∨ ∃ d, h.findDesc size = some d ∧ (h.descs d).freeList ≠ []

/-- **`malloc`** returns a null pointer, and then nothing has changed, or a block that was not
live.  If there are pages for a big block, they have room for `n` bytes. -/
theorem Sound.malloc_of_room (hs : s.Sound) (hn : n ≤ size)
    (hgot : ∀ a, got = some a → s.heap.FreshPages a (s.heap.pagesFor size))
    (hroom : s.heap.findDesc size = none → got ≠ none →
      0 < Heap.bigPages size ∧ arenaSize + n ≤ pgSize * Heap.bigPages size) :
    Returns (s.heap.malloc size got) fun r ↦
      (size = 0 ∨ ¬ Available s.heap size got) ∧ r = (0, s.heap) ∨
      (size ≠ 0 ∧ Available s.heap size got) ∧ r.1 ≠ 0 ∧ s.live r.1 = none ∧
        Sound ⟨r.2, update s.live r.1 (some n)⟩ := by
  rw [Heap.malloc.eq_def]
  by_cases h0 : size = 0
  · rw [if_pos h0]
    exact .pure (.inl ⟨.inl h0, rfl⟩)
  rw [if_neg h0]
  -- A block that is taken from a list
  have htake : ∀ {h : Heap} {b a d i : Nat} {l : List Nat}, Books ⟨h, s.live⟩ → h.BlockAt b a d i →
      (h.descs d).freeList = b :: l → size ≤ (h.descs d).blockSize →
      (∀ a' ≠ a, Busy ⟨h, s.live⟩ a') → Available s.heap size got →
      Returns (h.takeBlock d) fun r ↦ (size = 0 ∨ ¬ Available s.heap size got) ∧ r = (0, s.heap) ∨
        (size ≠ 0 ∧ Available s.heap size got) ∧ r.1 ≠ 0 ∧ s.live r.1 = none ∧
          Sound ⟨r.2, update s.live r.1 (some n)⟩ := by
    intro h b a d i l hb hat hlist hle hbusy havail
    refine (hb.takeBlock hat hlist (hn.trans hle) hbusy).mono ?_
    rintro ⟨_, h'⟩ ⟨rfl, hlive, hsound⟩
    have hge := (hb.shaped.block_mem hat).2.2.1
    exact .inr ⟨⟨h0, havail⟩, by simp only [arenaSize] at hge; omega, hlive, hsound⟩
  cases hfind : s.heap.findDesc size with
  | none =>
    cases got with
    | none =>
      refine .pure (.inl ⟨.inr ?_, rfl⟩)
      rintro (hne | ⟨d, hd, -⟩)
      · exact hne rfl
      · cases hfind.symm.trans hd
    | some a =>
      obtain ⟨hpos, hroom⟩ := hroom hfind (some_ne_none a)
      have hf := hgot a rfl
      rw [Heap.pagesFor, hfind, isSome_none, if_neg Bool.false_ne_true] at hf
      obtain ⟨hnone, hdead⟩ := hs.fresh hf hpos
      have hwrap : wrap (a + arenaSize) = a + arenaSize := by
        have hsmall := hf.small
        simp only [wrap, arenaSize, pgSize] at *
        omega
      have hround : pgRoundDown (a + arenaSize) = a := by
        have ha := hf.aligned
        simp only [pgRoundDown, pgSize, arenaSize] at *
        omega
      refine .pure (.inr ?_)
      rw [hwrap]
      refine ⟨⟨h0, .inl (some_ne_none a)⟩, Nat.succ_ne_zero _, hdead _ hround,
        hs.setBig hf.aligned ?_ ?_ (by rintro ⟨⟩) fun b hb _ ↦ hdead b hb⟩
      · intro arena harena
        cases hnone.symm.trans harena
      · rintro _ ⟨⟩
        exact ⟨rfl, hf.fits rfl hpos (by simp), n, rfl, hroom⟩
  | some d =>
    obtain ⟨hd, hle⟩ := hs.shaped.table.findDesc_spec hfind
    dsimp only
    by_cases hempty : (s.heap.descs d).freeList = []
    · rw [if_pos hempty]
      cases got with
      | none =>
        refine .pure (.inl ⟨.inr ?_, rfl⟩)
        rintro (hne | ⟨d', hd', hlist⟩)
        · exact hne rfl
        · cases hfind.symm.trans hd'
          exact hlist hempty
      | some a =>
        have hf := hgot a rfl
        rw [Heap.pagesFor, hfind, isSome_some, if_pos rfl] at hf
        refine Returns.bind (hs.newArena hd hf hempty) ?_
        rintro h ⟨hb, hl, b, l, hlist, hat⟩
        exact htake hb hat hlist (hl.size d ▸ hle)
          (fun a' hne ↦ hl.busy hs.shaped (hs.busy a') hne) (.inl (some_ne_none a))
    · rw [if_neg hempty]
      obtain ⟨b, l, hlist⟩ := exists_cons_of_ne_nil hempty
      obtain ⟨⟨a, i, hat⟩, -⟩ := (hs.mem d hd b).mp (hlist ▸ mem_cons_self)
      exact htake hs.toBooks hat hlist hle (fun a' _ ↦ hs.busy a') (.inr ⟨d, hfind, hempty⟩)

/-- `malloc`, for up to 2 GB. -/
theorem Sound.malloc (hs : s.Sound) (hsize : size ≤ 2 ^ 31)
    (hgot : ∀ a, got = some a → s.heap.FreshPages a (s.heap.pagesFor size)) :
    Returns (s.heap.malloc size got) fun r ↦ r = (0, s.heap) ∨
      r.1 ≠ 0 ∧ s.live r.1 = none ∧ Sound ⟨r.2, update s.live r.1 (some size)⟩ :=
  (hs.malloc_of_room (Nat.le_refl size) hgot fun hfind _ ↦
    bigPages_spec (hs.shaped.table.lt_of_findDesc hfind) hsize).mono
      fun _ hr ↦ hr.imp And.right And.right

section

variable (hs : s.Sound) (hat : s.heap.BlockAt p a d i) (hlive : s.live p = some size)

include hs hat hlive

theorem Sound.not_mem_freeList : p ∉ (s.heap.descs d).freeList := by
  intro hmem
  rw [hs.mem d (hs.shaped.block_mem hat).1, hlive] at hmem
  cases hmem.2

theorem Sound.nodup_cons : (p :: (s.heap.descs d).freeList).Nodup :=
  List.nodup_cons.mpr ⟨hs.not_mem_freeList hat hlive, hs.nodup d (hs.shaped.block_mem hat).1⟩

omit hs in
theorem not_mem_idle : i ∉ s.idle a d := by
  rw [mem_idle, ← hat.eq, hlive]
  simp

/-- **Whether a block is the last one** of its arena can be told from the counter. -/
theorem Sound.card_idle_lt_iff : (s.idle a d).card + 1 < (s.heap.descs d).blocksPerArena ↔
    ∃ b ≠ p, pgRoundDown b = a ∧ s.live b ≠ none := by
  have hidle := not_mem_idle hat hlive
  rw [← Finset.card_insert_of_notMem hidle]
  constructor
  · intro hlt
    by_contra hno
    push Not at hno
    refine absurd hlt (Nat.not_lt.mpr ?_)
    have hsub : Finset.range (s.heap.descs d).blocksPerArena ⊆ insert i (s.idle a d) := by
      intro j hj
      rw [Finset.mem_range] at hj
      rw [Finset.mem_insert, mem_idle]
      by_cases heq : j = i
      · exact .inl heq
      · refine .inr ⟨hj, hno _ (mt (hs.block_eq_iff hat hj).mp heq) ?_⟩
        exact hs.shaped.pgRoundDown_blockAt ⟨hat.arena, hj, rfl⟩
    simpa only [Finset.card_range] using Finset.card_le_card hsub
  · rintro ⟨b, hne, hround, hb⟩
    obtain ⟨size', hsize'⟩ := ne_none_iff_exists'.mp hb
    obtain ⟨arena, harena, hdesc⟩ := hat.arena
    rcases hs.live_cases harena hround hb with ⟨d', j, hdesc', hat'⟩ | ⟨hnone, -⟩
    · obtain rfl : d = d' := some.inj (hdesc.symm.trans hdesc')
      have hj : j ∉ insert i (s.idle a d) := by
        rw [Finset.mem_insert, not_or]
        refine ⟨?_, not_mem_idle hat' hsize'⟩
        rintro rfl
        exact hne (hat'.eq.trans hat.eq.symm)
      have hsub : insert i (s.idle a d) ⊂ Finset.range (s.heap.descs d).blocksPerArena := by
        refine Finset.ssubset_iff_subset_ne.mpr ⟨fun k hk ↦ ?_, fun heq ↦ ?_⟩
        · rw [Finset.mem_insert, mem_idle] at hk
          exact Finset.mem_range.mpr (hk.elim (fun heq ↦ heq ▸ hat.lt) And.left)
        · exact hj (heq ▸ Finset.mem_range.mpr hat'.lt)
      simpa only [Finset.card_range] using Finset.card_lt_card hsub
    · cases hdesc.symm.trans hnone

/-- **The last block of an arena is given back**, and with it the page. -/
theorem Sound.dropArena (hdead : ∀ b ≠ p, pgRoundDown b = a → s.live b = none) :
    Sound ⟨s.heap.store d a ((p :: (s.heap.descs d).freeList).diff
        ((List.range (s.heap.descs d).blocksPerArena).map (s.heap.block a d))) none,
      update s.live p none⟩ := by
  have hnodup := hs.nodup_cons hat hlive
  have hl := hs.local_block hat ((p :: (s.heap.descs d).freeList).diff
    ((List.range (s.heap.descs d).blocksPerArena).map (s.heap.block a d))) none none nofun
  refine hl.sound hs.shaped (hl.books hs.toBooks (hs.shaped.store nofun) ?_ ?_ ?_ ?_)
    (fun a' _ ↦ hs.busy a') ?_
  · intro arena harena
    cases Heap.arenas_store.symm.trans harena
  · rw [Heap.freeList_store]
    exact hnodup.diff
  · intro b
    have hno : ¬ ∃ i, (s.heap.store d a ((p :: (s.heap.descs d).freeList).diff ((List.range
        (s.heap.descs d).blocksPerArena).map (s.heap.block a d))) none).BlockAt b a d i := by
      rintro ⟨i, ⟨arena, harena, -⟩, -⟩
      cases Heap.arenas_store.symm.trans harena
    rw [Heap.freeList_store, hnodup.mem_sdiff_iff, mem_cons, List.mem_map]
    simp only [hno, false_and, or_false, mem_range]
    constructor
    · rintro ⟨rfl | hmem, hblock⟩
      · exact absurd ⟨i, hat.lt, hat.eq.symm⟩ hblock
      · refine ⟨hmem, fun hround ↦ hblock ?_⟩
        obtain ⟨⟨j, hat'⟩, -⟩ := (hs.mem_iff hat hround).mp hmem
        exact ⟨j, hat'.lt, hat'.eq.symm⟩
    · rintro ⟨hmem, hround⟩
      refine ⟨.inr hmem, ?_⟩
      rintro ⟨j, hj, rfl⟩
      exact hround (hs.shaped.pgRoundDown_blockAt ⟨hat.arena, hj, rfl⟩)
  · intro b size' hround hb
    dsimp only at hb
    by_cases heq : b = p
    · rw [heq, update_self] at hb
      cases hb
    · rw [update_of_ne heq, hdead b heq hround] at hb
      cases hb
  · intro arena harena
    cases Heap.arenas_store.symm.trans harena

end

/-- **`free`** of a live block does not panic, and gives back the pages of its arena if no other
block in them is live. -/
theorem Sound.free (hs : s.Sound) (hlive : s.live p = some size) :
    Returns (s.heap.free p) fun r ↦ Sound ⟨r.2, update s.live p none⟩ ∧
      ((∃ b ≠ p, pgRoundDown b = pgRoundDown p ∧ s.live b ≠ none) → r.1 = none) ∧
      ((¬ ∃ b ≠ p, pgRoundDown b = pgRoundDown p ∧ s.live b ≠ none) →
        ∃ arena, s.heap.arenas (pgRoundDown p) = some arena ∧
          r.1 = some (pgRoundDown p, arena.pageCnt)) := by
  obtain ⟨a, arena, _, harena, hround, -, -, -, -, hkind⟩ := hs.blockSize_spec hlive
  rw [hround]
  rcases hkind with ⟨d, i, hat, -⟩ | ⟨hdesc, rfl⟩
  · have hdesc := hat.desc_eq harena
    have hcnt := hs.count a arena d harena hdesc
    have hbusy := (hs.busy a arena harena).1 d hdesc
    have hiff := hs.card_idle_lt_iff hat hlive
    rw [← hcnt] at hiff
    by_cases hlt : arena.freeCnt + 1 < (s.heap.descs d).blocksPerArena
    · refine ⟨_, hs.shaped.free_eq_of_lt hat harena hlt, ?_, fun _ ↦ rfl,
        fun hno ↦ absurd (hiff.mp hlt) hno⟩
      refine hs.setBlock hat harena (hs.nodup_cons hat hlive) (fun b ↦ ?_)
        (fun s' hl hlive' ↦ ?_) (by simp) hlt fun a' _ ↦ hs.busy a'
      · have hne := hs.not_mem_freeList hat hlive
        rw [mem_cons]
        grind
      · rw [hs.idle_give hat hl hlive', Finset.card_insert_of_notMem (not_mem_idle hat hlive),
          hcnt]
    · have hno := mt hiff.mpr hlt
      refine ⟨_, hs.shaped.free_eq_of_last hat harena (by omega), ?_, fun hex ↦ absurd hex hno,
        fun _ ↦ ⟨arena, harena, ?_⟩⟩
      · push Not at hno
        exact hs.dropArena hat hlive hno
      · rw [Arena.pageCnt, hdesc]
  · have hno : ∀ b, pgRoundDown b = a → b ≠ a + arenaSize → s.live b = none := by
      intro b hb hne
      by_contra hsome
      rcases hs.live_cases harena hb hsome with ⟨d, i, hdesc', -⟩ | ⟨-, heq⟩
      · cases hdesc.symm.trans hdesc'
      · exact hne heq
    refine ⟨(some (a, arena.freeCnt), s.heap.setArena a none), ?_, ?_, ?_,
      fun _ ↦ ⟨arena, harena, ?_⟩⟩
    · have hne : a + arenaSize ≠ 0 := Nat.succ_ne_zero _
      rw [Heap.free, if_neg hne, hs.shaped.blockToArena_big harena hdesc]
      simp only [some_bind, hdesc, Option.pure_def]
    · refine hs.setBig (hs.shaped.fits a arena harena).aligned ?_ (by simp) (fun _ ↦ rfl) hno
      intro arena' harena'
      cases harena.symm.trans harena'
      exact hdesc
    · rintro ⟨b, hne, hb, hsome⟩
      exact absurd (hno b hb hne) hsome
    · rw [Arena.pageCnt, hdesc]

/-- The ranges of two live blocks do not overlap. -/
theorem Books.apart {b' n' : Nat} (hb : s.Books) (hne : b ≠ b') (hlive : s.live b ≠ none)
    (hlive' : s.live b' ≠ none) (hn : s.heap.blockSize b = some n)
    (hn' : s.heap.blockSize b' = some n') : b + n ≤ b' ∨ b' + n' ≤ b := by
  obtain ⟨size, hsize⟩ := ne_none_iff_exists'.mp hlive
  obtain ⟨size', hsize'⟩ := ne_none_iff_exists'.mp hlive'
  obtain ⟨a, arena, _, harena, hround, hn1, -, hge, hle, hkind⟩ := hb.blockSize_spec hsize
  obtain ⟨a', arena', _, harena', hround', hn1', -, hge', hle', hkind'⟩ := hb.blockSize_spec hsize'
  cases hn.symm.trans hn1
  cases hn'.symm.trans hn1'
  by_cases heq : a = a'
  · subst heq
    cases harena.symm.trans harena'
    rcases hkind with ⟨d, i, hat, rfl⟩ | ⟨hbig, rfl⟩
    · rcases hkind' with ⟨d', i', hat', rfl⟩ | ⟨hbig', rfl⟩
      · obtain rfl : d = d' :=
          some.inj ((hat.desc_eq harena).symm.trans (hat'.desc_eq harena))
        -- Block `i` ends where block `i + 1` begins.
        have hmul : ∀ {j k : Nat}, j < k →
            j * (s.heap.descs d).blockSize + (s.heap.descs d).blockSize ≤
              k * (s.heap.descs d).blockSize := by
          intro j k hjk
          rw [← Nat.succ_mul]
          exact Nat.mul_le_mul_right _ hjk
        rw [hat.eq, hat'.eq, Heap.block, Heap.block] at hne ⊢
        rcases Nat.lt_trichotomy i i' with hlt | rfl | hlt
        · have := hmul hlt
          omega
        · exact absurd rfl hne
        · have := hmul hlt
          omega
      · cases hbig'.symm.trans (hat.desc_eq harena)
    · rcases hkind' with ⟨d', i', hat', rfl⟩ | ⟨hbig', rfl⟩
      · cases hbig.symm.trans (hat'.desc_eq harena)
      · exact absurd rfl hne
  · have hapart := (hb.shaped.fits a arena harena).apart a' arena' harena' heq
    omega

/-- The counter of an arena is the number of its blocks on the free list. -/
theorem Books.freeCnt_eq (hb : s.Books) (harena : s.heap.arenas a = some arena)
    (hdesc : arena.desc = some d) :
    arena.freeCnt = ((s.heap.descs d).freeList.filter fun b ↦ pgRoundDown b = a).length := by
  have hd := (hb.shaped.fits a arena harena).desc_lt d hdesc
  have himage : ((s.heap.descs d).freeList.filter fun b ↦ pgRoundDown b = a).toFinset =
      (s.idle a d).image (s.heap.block a d) := by
    ext b
    rw [List.mem_toFinset, mem_filter, decide_eq_true_eq, hb.mem d hd, Finset.mem_image]
    constructor
    · rintro ⟨⟨⟨a', i, hat⟩, hlive⟩, hround⟩
      obtain rfl : a' = a := (hb.shaped.pgRoundDown_blockAt hat).symm.trans hround
      exact ⟨i, mem_idle.mpr ⟨hat.lt, hat.eq ▸ hlive⟩, hat.eq.symm⟩
    · rintro ⟨i, hi, rfl⟩
      obtain ⟨hlt, hlive⟩ := mem_idle.mp hi
      have hat : s.heap.BlockAt (s.heap.block a d i) a d i := ⟨⟨arena, harena, hdesc⟩, hlt, rfl⟩
      exact ⟨⟨⟨a, i, hat⟩, hlive⟩, hb.shaped.pgRoundDown_blockAt hat⟩
  rw [← toFinset_card_of_nodup ((hb.nodup d hd).filter _), himage, Finset.card_image_of_injOn]
  · exact hb.count a arena d harena hdesc
  · intro i hi j hj heq
    have hlt := (mem_idle.mp hi).1
    exact (hb.block_eq_iff ⟨⟨arena, harena, hdesc⟩, (mem_idle.mp hj).1, rfl⟩ hlt).mp heq

/-- There is an arena if and only if one of its blocks is live. -/
theorem Sound.arenas_isSome_iff (hs : s.Sound) :
    s.heap.arenas a ≠ none ↔ ∃ b, pgRoundDown b = a ∧ s.live b ≠ none := by
  constructor
  · intro hsome
    obtain ⟨arena, harena⟩ := ne_none_iff_exists'.mp hsome
    obtain ⟨hsmall, hbig⟩ := hs.busy a arena harena
    cases hdesc : arena.desc with
    | none => exact ⟨a + arenaSize, hs.shaped.pgRoundDown_big harena, hbig hdesc⟩
    | some d =>
      by_contra hno
      push Not at hno
      have hfull : s.idle a d = Finset.range (s.heap.descs d).blocksPerArena := by
        ext i
        rw [mem_idle, Finset.mem_range]
        refine and_iff_left_of_imp fun hi ↦ hno _ ?_
        exact hs.shaped.pgRoundDown_blockAt ⟨⟨arena, harena, hdesc⟩, hi, rfl⟩
      have hlt := hsmall d hdesc
      rw [hs.count a arena d harena hdesc, hfull, Finset.card_range] at hlt
      exact Nat.lt_irrefl _ hlt
  · rintro ⟨b, hround, hlive⟩
    obtain ⟨size, hsize⟩ := ne_none_iff_exists'.mp hlive
    obtain ⟨a', arena, -, harena, hround', -⟩ := hs.blockSize_spec hsize
    obtain rfl := hround'.symm.trans hround
    rw [harena]
    exact some_ne_none arena

/-! ## Runs -/

/-- A call; `got` is what `palloc_get_multiple` returns, if it is called. -/
inductive Call where
  | malloc (size : Nat) (got : Option Nat)
  | free (p : Nat)

/-- A call, and what is live after it. -/
def step (s : HeapUse) : Call → Option HeapUse
  | .malloc size got => do
    let (b, heap) ← s.heap.malloc size got
    return ⟨heap, if b = 0 then s.live else update s.live b (some size)⟩
  | .free p => do
    let (_, heap) ← s.heap.free p
    return ⟨heap, update s.live p none⟩

/-- The size is at most 2 GB, the page allocator does not return the pages of an arena, and only
live blocks are freed, or the null pointer. -/
def Allowed (s : HeapUse) : Call → Prop
  | .malloc size got => size ≤ 2 ^ 31 ∧
    ∀ a, got = some a → s.heap.FreshPages a (s.heap.pagesFor size)
  | .free p => p = 0 ∨ s.live p ≠ none

theorem Sound.live_zero (hs : s.Sound) : s.live 0 = none := by
  by_contra hlive
  obtain ⟨size, hsize⟩ := ne_none_iff_exists'.mp hlive
  obtain ⟨a, -, -, -, -, -, -, hge, -⟩ := hs.blockSize_spec hsize
  simp only [arenaSize] at hge
  omega

/-- A call of `malloc` that returns a null pointer or a block that is sound. -/
theorem Sound.step_malloc (hs : s.Sound)
    (hm : Returns (s.heap.malloc size got) fun r ↦ r = (0, s.heap) ∨
      r.1 ≠ 0 ∧ s.live r.1 = none ∧ Sound ⟨r.2, update s.live r.1 (some size)⟩) :
    Returns (s.step (.malloc size got)) Sound := by
  refine Returns.bind hm ?_
  rintro ⟨b, heap⟩ (heq | ⟨hne, -, hsound⟩)
  · cases heq
    exact .pure hs
  · refine .pure ?_
    rw [if_neg hne]
    exact hsound

/-- **Every call returns**, and keeps the invariant. -/
theorem Sound.step {c : Call} (hs : s.Sound) (hc : s.Allowed c) : Returns (s.step c) Sound := by
  cases c with
  | malloc size got => exact hs.step_malloc (hs.malloc hc.1 hc.2)
  | free p =>
    rcases hc with rfl | hlive
    · refine .pure ?_
      rw [← hs.live_zero, update_eq_self]
      exact hs
    · obtain ⟨size, hsize⟩ := ne_none_iff_exists'.mp hlive
      exact Returns.bind (hs.free hsize) fun r hr ↦ .pure hr.1

theorem sound_of_init {h0 : Heap} (hinit : Heap.mallocInit = some h0) :
    Sound ⟨h0, fun _ ↦ none⟩ := by
  obtain ⟨h, heq, ht, hnone, hlist⟩ := Heap.mallocInit_table
  cases hinit.symm.trans heq
  refine ⟨⟨⟨ht, fun a arena harena ↦ ?_⟩, fun a arena d harena ↦ ?_, fun d hd ↦ ?_, fun d hd b ↦ ?_,
    nofun⟩, fun a arena harena ↦ ?_⟩
  · cases (hnone a).symm.trans harena
  · cases (hnone a).symm.trans harena
  · dsimp only
    rw [hlist d hd]
    exact nodup_nil
  · dsimp only
    rw [hlist d hd]
    refine iff_of_false not_mem_nil ?_
    rintro ⟨⟨a, i, ⟨arena, harena, -⟩, -⟩, -⟩
    cases (hnone a).symm.trans harena
  · cases (hnone a).symm.trans harena

/-- **The heap hands out disjoint blocks.**  After `malloc_init` and any calls of `malloc`, for up
to 2 GB, and of `free`, for live blocks, and whenever the page allocator fails, no assertion fails;
and in the state that is reached:

* each live block is at least as long as was asked for, and no two of them have a byte in common;
* the free list of a descriptor has exactly the blocks of its arenas that are not live, each once;
* the counter of an arena is the number of its blocks on the list, and less than it has blocks;
* `free` of a live block gives the pages of its arena back if no other block in them is live, and no
  page otherwise; so there is an arena exactly as long as one of its blocks is live. -/
theorem blocks_disjoint {h₀ : Heap} {calls : List Call} (hinit : Heap.mallocInit = some h₀)
    (hcalls : Run.Meets step Allowed ⟨h₀, fun _ ↦ none⟩ calls) :
    Returns (Run.run step ⟨h₀, fun _ ↦ none⟩ calls) fun s ↦
      (∀ b size, s.live b = some size → Returns (s.heap.blockSize b) fun n ↦ size ≤ n) ∧
      (∀ b b' n n', b ≠ b' → s.live b ≠ none → s.live b' ≠ none → s.heap.blockSize b = some n →
        s.heap.blockSize b' = some n' → b + n ≤ b' ∨ b' + n' ≤ b) ∧
      (∀ d < s.heap.descCnt, (s.heap.descs d).freeList.Nodup ∧ ∀ b, b ∈ (s.heap.descs d).freeList ↔
          (∃ a i, s.heap.BlockAt b a d i) ∧ s.live b = none) ∧
      (∀ a arena d, s.heap.arenas a = some arena → arena.desc = some d →
        arena.freeCnt = ((s.heap.descs d).freeList.filter fun b ↦ pgRoundDown b = a).length ∧
        arena.freeCnt < (s.heap.descs d).blocksPerArena) ∧
      (∀ p, s.live p ≠ none → Returns (s.heap.free p) fun r ↦
        ((∃ b ≠ p, pgRoundDown b = pgRoundDown p ∧ s.live b ≠ none) → r.1 = none) ∧
        ((¬ ∃ b ≠ p, pgRoundDown b = pgRoundDown p ∧ s.live b ≠ none) →
          ∃ arena, s.heap.arenas (pgRoundDown p) = some arena ∧
            r.1 = some (pgRoundDown p, arena.pageCnt))) ∧
      ∀ a, s.heap.arenas a ≠ none ↔ ∃ b, pgRoundDown b = a ∧ s.live b ≠ none := by
  have hrun := Run.simulates (f := fun (_ : Unit) _ ↦ ()) (R := fun s _ ↦ Sound s) (x := ())
    (fun _ _ _ hs hc ↦ hs.step hc) (sound_of_init hinit) hcalls
  refine hrun.mono fun s hs ↦ ⟨fun b size hlive ↦ ?_, fun b b' n n' ↦ hs.apart, fun d hd ↦ ?_,
    fun a arena d harena hdesc ↦ ?_, fun p hlive ↦ ?_, fun a ↦ hs.arenas_isSome_iff⟩
  · obtain ⟨-, -, n, -, -, hn, hle, -⟩ := hs.blockSize_spec hlive
    exact ⟨n, hn, hle⟩
  · rw [hs.shaped.table.cnt] at hd
    exact ⟨hs.nodup d hd, hs.mem d hd⟩
  · exact ⟨hs.freeCnt_eq harena hdesc, (hs.busy a arena harena).1 d hdesc⟩
  · obtain ⟨size, hsize⟩ := ne_none_iff_exists'.mp hlive
    exact (hs.free hsize).mono fun _ hr ↦ hr.2

/-- The first arena of an empty heap. -/
theorem allowed_first {h₀ : Heap} (hinit : Heap.mallocInit = some h₀) :
    Allowed ⟨h₀, fun _ ↦ none⟩ (.malloc 1000 (some 0xC0101000)) := by
  obtain ⟨h, heq, -, hnone, -⟩ := Heap.mallocInit_table
  cases hinit.symm.trans heq
  have hpages : Heap.mallocInit.map (fun h ↦ h.pagesFor 1000) = some 1 := rfl
  rw [heq, map_some, some_inj] at hpages
  refine ⟨by decide, ?_⟩
  rintro _ ⟨⟩
  dsimp only
  rw [hpages]
  refine ⟨by decide, by decide, by decide, fun a' arena harena ↦ ?_⟩
  cases (hnone a').symm.trans harena

/-- Two blocks of 1000 bytes are obtained from one arena, the page allocator fails for a big block,
and the first block is freed. -/
theorem blocks_disjoint_two : ∃ h₀ s, Heap.mallocInit = some h₀ ∧
    Run.run step ⟨h₀, fun _ ↦ none⟩ [.malloc 1000 (some 0xC0101000), .malloc 1000 none,
      .malloc 5000 none, .free 0xC010100C] = some s ∧
    s.live 0xC010100C = none ∧ s.live 0xC010140C = some 1000 ∧
    Returns (s.heap.blockSize 0xC010140C) fun n ↦ 1000 ≤ n := by
  have heval : (Heap.mallocInit.bind fun h ↦ Run.run step ⟨h, fun _ ↦ none⟩
      [.malloc 1000 (some 0xC0101000), .malloc 1000 none, .malloc 5000 none,
        .free 0xC010100C]).map (fun s ↦ (s.live 0xC010100C, s.live 0xC010140C)) =
      some (none, some 1000) := by
    decide +kernel
  have heval' : (Heap.mallocInit.bind fun h ↦ Run.run step ⟨h, fun _ ↦ none⟩
      [.malloc 1000 (some 0xC0101000), .malloc 1000 none, .malloc 5000 none]).map
      (fun s ↦ s.live 0xC010100C) = some (some 1000) := by
    decide +kernel
  obtain ⟨s, hs, hlive⟩ := map_eq_some_iff.mp heval
  obtain ⟨h₀, hinit, hrun⟩ := bind_eq_some_iff.mp hs
  have hcalls : Run.Meets step Allowed ⟨h₀, fun _ ↦ none⟩ [.malloc 1000 (some 0xC0101000),
      .malloc 1000 none, .malloc 5000 none, .free 0xC010100C] := by
    refine ⟨allowed_first hinit, fun s₁ h₁ ↦ ⟨⟨by decide, nofun⟩, fun s₂ h₂ ↦
      ⟨⟨by decide, nofun⟩, fun s₃ h₃ ↦ ⟨.inr ?_, fun _ _ ↦ trivial⟩⟩⟩⟩
    have hrun₃ : Run.run step ⟨h₀, fun _ ↦ none⟩ [.malloc 1000 (some 0xC0101000),
        .malloc 1000 none, .malloc 5000 none] = some s₃ :=
      Run.run_cons.mpr ⟨s₁, h₁, Run.run_cons.mpr ⟨s₂, h₂, Run.run_cons.mpr ⟨s₃, h₃, rfl⟩⟩⟩
    rw [hinit, bind_some, hrun₃, map_some, some_inj] at heval'
    rw [heval']
    exact some_ne_none 1000
  obtain ⟨s', hs', hsize, -⟩ := blocks_disjoint hinit hcalls
  cases hrun.symm.trans hs'
  rw [Prod.mk.injEq] at hlive
  exact ⟨h₀, s, hinit, hrun, hlive.1, hlive.2, hsize _ _ hlive.2⟩

end HeapUse

/-- **The page allocator returns fresh pages**, if the arenas are among its live groups. -/
theorem Heap.freshPages_of_getMultiple {h : Heap} {u : PageUse} {palloc : Palloc}
    {flags : PallocFlags} {ramPages pages cnt : Nat} (hu : u.Exact ramPages)
    (harenas : ∀ a arena, h.arenas a = some arena → ⟨a, arena.pageCnt, false⟩ ∈ u.live)
    (hget : u.palloc.getMultiple flags cnt = some (pages, palloc)) (hne : pages ≠ 0) :
    h.FreshPages pages cnt := by
  have hstep : u.step (.get flags cnt) = some ⟨palloc, ⟨pages, cnt, flags.palUser⟩ :: u.live⟩ := by
    simp only [PageUse.step, hget, some_bind, Option.pure_def, if_neg hne]
  have hu' := hu.step hstep
  obtain ⟨idx, hp⟩ := hu'.placed _ mem_cons_self
  obtain ⟨start, stop, hl⟩ := hu'.geometry.laid flags.palUser
  have hpages := hp.pages
  have hrange := hp.range
  have haligned := hl.aligned
  have hstop := hl.eq_stop
  have hsmall := hl.small
  dsimp only at hpages hrange haligned hstop
  refine ⟨?_, hne, ?_, fun a' arena harena ↦ ?_⟩
  · rw [hpages, Nat.add_mul_mod_self_left, haligned]
  · have hle := Nat.mul_le_mul_left pgSize hrange
    rw [Nat.mul_add] at hle
    omega
  · have hapart := (pairwise_cons.mp hu'.apart).1 _ (harenas a' arena harena) (max pages a')
    have hpos := hp.pos
    obtain ⟨_, hp'⟩ := hu.placed _ (harenas a' arena harena)
    have hpos' := hp'.pos
    simp only [PageGroup.Covers, pgSize] at *
    omega

/-- Pages for a heap with one arena, in a machine with 4 MB of memory. -/
theorem Heap.freshPages_of_getMultiple_second : ∃ h₀ s, Heap.mallocInit = some h₀ ∧
    HeapUse.step ⟨h₀, fun _ ↦ none⟩ (.malloc 1000 (some 0xC0101000)) = some s ∧
    s.heap.arenas 0xC0101000 ≠ none ∧
    ∃ p₀ u, Palloc.pallocInit (fun _ ↦ 0) 1024 (2 ^ 32 - 1) = some p₀ ∧
      PageUse.step ⟨p₀, []⟩ (.get ⟨false, false, false⟩ 1) = some u ∧
      Returns (u.palloc.getMultiple ⟨false, false, false⟩ 3) fun r ↦
        r.1 = 0xC0102000 ∧ s.heap.FreshPages r.1 3 := by
  refine Run.exists_of_view₂
    (fun _ s ↦ ((s.heap.arenas 0xC0101000).map Arena.pageCnt, s.live 0xC010100C))
    (some 1, some 1000) (by decide +kernel) fun h₀ s hinit hstep hview ↦ ?_
  obtain ⟨hcnt, hlive⟩ := Prod.mk.inj hview
  have honly : ∀ b, s.live b ≠ none → b = 0xC010100C := by
    obtain ⟨⟨b, heap⟩, -, heq⟩ := bind_eq_some_iff.mp hstep
    cases heq
    grind [update_apply]
  have hsound := ((HeapUse.sound_of_init hinit).step (HeapUse.allowed_first hinit)).of_eq hstep
  refine ⟨?_, Run.exists_of_view₂
    (fun _ u ↦ (u.live, (u.palloc.getMultiple ⟨false, false, false⟩ 3).map Prod.fst))
    ([⟨0xC0101000, 1, false⟩], some 0xC0102000) (by decide +kernel)
    fun p₀ u hpalloc hget hview ↦ ?_⟩
  · intro hnone
    rw [hnone] at hcnt
    cases hcnt
  obtain ⟨hgroups, hpages⟩ := Prod.mk.inj hview
  obtain ⟨⟨pages, palloc⟩, hr, rfl⟩ := map_eq_some_iff.mp hpages
  refine ⟨_, hr, rfl, Heap.freshPages_of_getMultiple
    ((PageUse.Exact.of_init (by decide) (by decide) hpalloc).step hget) (fun a arena ha ↦ ?_) hr
    (by simp)⟩
  -- The arena of the block is the only one.
  obtain ⟨b, rfl, hb⟩ := hsound.arenas_isSome_iff.mp (ha ▸ some_ne_none arena)
  obtain rfl := honly b hb
  have hone : arena.pageCnt = 1 := by
    rw [show s.heap.arenas 0xC0101000 = some arena from ha, map_some, some_inj] at hcnt
    exact hcnt
  rw [hgroups, hone]
  exact mem_singleton_self _

end Pintos
