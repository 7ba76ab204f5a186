import Pintos.Threads.HeapBlocks

/-!
# Requests that do not fit

`malloc` and `calloc` of `threads/malloc.c` compute with `size_t`: the number of pages for a big
block, and the product that `calloc` is asked for.  Both may wrap around, and then a block is
returned that is too small.

* `HeapUse.Sound.malloc_room` — up to 2³² − 12 bytes there is room, or a null pointer; the pages
  that `malloc` asks for are none at all once `DIV_ROUND_UP` wraps around.
* `HeapUse.Sound.malloc_short` — for more, the `struct arena` makes the sum wrap around to a single
  page.
* `HeapMem.requests_served_iff` — after any requests that have been served, which ones are.
-/

set_option autoImplicit false

namespace Pintos

open Function Option

/-- What `palloc_get_multiple` may return for a request: nothing, or pages that are not in use, and
it returns nothing if it is asked for no page. -/
def Heap.Granted (h : Heap) (size : Nat) (got : Option Nat) : Prop :=
  ∀ a, got = some a → 0 < h.pagesFor size ∧ h.FreshPages a (h.pagesFor size)

namespace HeapUse

variable {s : HeapUse} {size p n : Nat} {got : Option Nat}

/-- The pages for a big block have room for it, if any are asked for. -/
theorem bigPages_room (hsize : size ≤ 2 ^ 32 - 12) (hpos : 0 < Heap.bigPages size) :
    arenaSize + size ≤ pgSize * Heap.bigPages size := by
  simp only [Heap.bigPages, wrap, arenaSize, pgSize] at *
  omega

/-- **A request that fits** is served with a block that has room for it, or with a null pointer. -/
theorem Sound.malloc_room (hs : s.Sound) (hgot : s.heap.Granted size got)
    (hfits : size ≤ 2 ^ 32 - 12 ∨ ¬ Available s.heap size got) :
    Returns (s.heap.malloc size got) fun r ↦
      (size = 0 ∨ ¬ Available s.heap size got) ∧ r = (0, s.heap) ∨
      (size ≠ 0 ∧ Available s.heap size got) ∧ r.1 ≠ 0 ∧ s.live r.1 = none ∧
        Sound ⟨r.2, update s.live r.1 (some size)⟩ := by
  refine hs.malloc_of_room (Nat.le_refl size) (fun a ha ↦ (hgot a ha).2) fun hfind hne ↦ ?_
  obtain ⟨a, rfl⟩ := ne_none_iff_exists'.mp hne
  have hpos := (hgot a rfl).1
  rw [Heap.pagesFor, hfind, isSome_none, if_neg Bool.false_ne_true] at hpos
  rcases hfits with hle | hno
  · exact ⟨hpos, bigPages_room hle hpos⟩
  · exact absurd (.inl hne) hno

/-- **A request that does not fit** gets one page. -/
theorem Sound.malloc_short (hs : s.Sound) (hsize : size < 2 ^ 32)
    (hgot : s.heap.Granted size got) (hlt : 2 ^ 32 - 12 < size)
    (havail : Available s.heap size got) : Returns (s.heap.malloc size got) fun r ↦ r.1 ≠ 0 ∧
      Returns (r.2.blockSize r.1) fun n ↦ n < size := by
  have hfind : s.heap.findDesc size = none := by
    by_contra hsome
    obtain ⟨d, hd⟩ := ne_none_iff_exists'.mp hsome
    obtain ⟨hd, hle⟩ := hs.shaped.table.findDesc_spec hd
    rw [hs.shaped.table.size d hd] at hle
    have := Nat.pow_le_pow_right (show 0 < 2 by decide) (show d ≤ 6 by omega)
    omega
  obtain ⟨a, rfl⟩ : ∃ a, got = some a := by
    rcases havail with hne | ⟨d, hd, -⟩
    · exact ne_none_iff_exists'.mp hne
    · cases hfind.symm.trans hd
  have hpages : Heap.bigPages size = 1 := by
    simp only [Heap.bigPages, wrap, arenaSize, pgSize]
    omega
  have hfresh := (hgot a rfl).2
  rw [Heap.pagesFor, hfind, isSome_none, if_neg Bool.false_ne_true, hpages] at hfresh
  have hs' : (s.heap.setArena a (some ⟨arenaMagic, none, 1⟩)).Shaped := by
    refine hs.shaped.setArena ?_
    rintro _ ⟨⟩
    exact hfresh.fits rfl Nat.one_pos (by simp)
  have halign := hfresh.aligned
  have hsmall := hfresh.small
  have hwrap : wrap (a + arenaSize) = a + arenaSize := by
    simp only [wrap, arenaSize, pgSize] at *
    omega
  have hofs : pgOfs (a + arenaSize) = arenaSize := by
    simp only [pgOfs, pgSize, arenaSize] at *
    omega
  refine ⟨_, by rw [Heap.malloc, if_neg (by omega), hfind], ?_⟩
  rw [hwrap, hpages]
  refine ⟨Nat.succ_ne_zero _, 4084, ?_, by omega⟩
  rw [Heap.blockSize, hs'.blockToArena_big Heap.arenas_setArena_self rfl]
  rw [hofs]
  rfl

/-- `block_size` of a block with room for `n` bytes; no block has 2³² of them. -/
theorem Sound.blockSize_live (hs : s.Sound) (hlive : s.live p = some n) :
    Returns (s.heap.blockSize p) fun m ↦ n ≤ m ∧ m < 2 ^ 32 := by
  obtain ⟨a, arena, m, harena, -, hm, hle, hge, hin, -⟩ := hs.blockSize_spec hlive
  have hsmall := (hs.shaped.fits a arena harena).small
  simp only [arenaSize] at hge
  exact ⟨m, hm, hle, by omega⟩

end HeapUse

/-! ## Requests -/

/-- The heap with the blocks in use, and the memory. -/
structure HeapMem where
  use : HeapUse
  mem : Nat → UInt8

namespace HeapMem

open HeapUse

/-- A call; `got` is what `palloc_get_multiple` returns, if it is called. -/
inductive Request where
  | malloc (size : Nat) (got : Option Nat)
  | calloc (a b : Nat) (got : Option Nat)
  | free (p : Nat)

/-- A call, and what is live after it. -/
def serve (s : HeapMem) : Request → Option HeapMem
  | .malloc size got => do
    let use ← s.use.step (.malloc size got)
    return ⟨use, s.mem⟩
  | .calloc a b got => do
    let (p, heap, mem) ← s.use.heap.calloc s.mem a b got
    return ⟨⟨heap, if p = 0 then s.use.live else Function.update s.use.live p (some (a * b))⟩, mem⟩
  | .free p => do
    let use ← s.use.step (.free p)
    return ⟨use, s.mem⟩

/-- What a call can be: the arguments are of type `size_t`, the pages are not in use, and only a
live block is freed, or the null pointer. -/
def Valid (s : HeapMem) : Request → Prop
  | .malloc size got => size < 2 ^ 32 ∧ s.use.heap.Granted size got
  | .calloc a b got => a < 2 ^ 32 ∧ b < 2 ^ 32 ∧ s.use.heap.Granted (wrap (a * b)) got
  | .free p => p = 0 ∨ s.use.live p ≠ none

/-- The calls that do not go wrong: there is no memory; or the size is at most 2³² − 12, as a number
and not only modulo 2³²; or `calloc` finds out that the product has been reduced. -/
def Fits (s : HeapMem) : Request → Prop
  | .malloc size got => size ≤ 2 ^ 32 - 12 ∨ ¬ Available s.use.heap size got
  | .calloc a b got => a * b ≤ 2 ^ 32 - 12 ∨ wrap (a * b) < a ∨ wrap (a * b) < b ∨
    ¬ Available s.use.heap (wrap (a * b)) got
  | .free _ => True

/-- A call returns, and a block that it returns has as many bytes as were asked for; those from
`calloc` are all zero. -/
def Served (s : HeapMem) : Request → Prop
  | .malloc size got => Returns (s.use.heap.malloc size got) fun (p, h) ↦ p ≠ 0 →
    Returns (h.blockSize p) fun n ↦ size ≤ n
  | .calloc a b got => Returns (s.use.heap.calloc s.mem a b got) fun (p, h, mem) ↦ p ≠ 0 →
    Returns (h.blockSize p) fun n ↦ a * b ≤ n ∧ ∀ i < a * b, mem (p + i) = 0
  | .free p => Returns (s.use.heap.free p) fun _ ↦ True

variable {s : HeapMem} {a b size : Nat} {got : Option Nat}

theorem calloc_of_lt {h : Heap} {mem : Nat → UInt8} (hlt : wrap (a * b) < a ∨ wrap (a * b) < b) :
    h.calloc mem a b got = some (0, h, mem) := if_pos hlt

/-- What `calloc` returns is what `malloc` returns. -/
theorem returns_calloc {h : Heap} {mem : Nat → UInt8} {Q : Nat × Heap → Prop}
    (hge : ¬ (wrap (a * b) < a ∨ wrap (a * b) < b)) (hm : Returns (h.malloc (wrap (a * b)) got) Q) :
    Returns (h.calloc mem a b got) fun r ↦ Q (r.1, r.2.1) ∧
      (r.1 ≠ 0 → r.2.2 = memset mem r.1 0 (wrap (a * b))) := by
  rw [Heap.calloc, if_neg hge]
  refine Returns.bind hm fun ⟨p, h'⟩ hQ ↦ ?_
  dsimp only
  by_cases hp : p = 0
  · rw [hp]
    exact .pure ⟨hp ▸ hQ, fun h ↦ absurd rfl h⟩
  · rw [if_pos hp]
    exact .pure ⟨hQ, fun _ ↦ rfl⟩

/-- **`calloc`**, if the product is right or is found not to be: a null pointer, or a block with
room for the product, all zero. -/
theorem calloc_room (hs : s.use.Sound) (hgot : s.use.heap.Granted (wrap (a * b)) got)
    (hfits : s.Fits (.calloc a b got)) :
    Returns (s.use.heap.calloc s.mem a b got) fun r ↦ (r.1 = 0 ∧ r.2.1 = s.use.heap) ∨
      r.1 ≠ 0 ∧ Sound ⟨r.2.1, update s.use.live r.1 (some (a * b))⟩ ∧
        r.2.2 = memset s.mem r.1 0 (a * b) := by
  by_cases hnull : wrap (a * b) < a ∨ wrap (a * b) < b
  · rw [calloc_of_lt hnull]
    exact .pure (.inl ⟨rfl, rfl⟩)
  have hfits' : wrap (a * b) = a * b ∧ a * b ≤ 2 ^ 32 - 12 ∨
      ¬ Available s.use.heap (wrap (a * b)) got := by
    rcases hfits with hle | hlt | hlt | hno
    · exact .inl ⟨Nat.mod_eq_of_lt (by omega), hle⟩
    · exact absurd (.inl hlt) hnull
    · exact absurd (.inr hlt) hnull
    · exact .inr hno
  have hm := hs.malloc_room hgot (hfits'.imp_left fun h ↦ h.1.trans_le h.2)
  refine (returns_calloc hnull hm).mono ?_
  rintro ⟨p, h, mem⟩ ⟨⟨-, heq⟩ | ⟨⟨-, havail⟩, hp, -, hsound⟩, hmem⟩
  · obtain ⟨rfl, rfl⟩ := Prod.mk.injEq .. ▸ heq
    exact .inl ⟨rfl, rfl⟩
  · obtain ⟨heq, -⟩ := hfits'.resolve_right (not_not.mpr havail)
    rw [heq] at hsound hmem
    exact .inr ⟨hp, hsound, hmem hp⟩

/-- **`calloc`**, if the product is wrong and this is not found: a block that is too small. -/
theorem calloc_short (hs : s.use.Sound) (hgot : s.use.heap.Granted (wrap (a * b)) got)
    (hfits : ¬ s.Fits (.calloc a b got)) :
    Returns (s.use.heap.calloc s.mem a b got) fun r ↦ r.1 ≠ 0 ∧
      Returns (r.2.1.blockSize r.1) fun n ↦ n < a * b := by
  simp only [Fits, not_or, not_not, Nat.not_le, Nat.not_lt] at hfits
  obtain ⟨hprod, ha, hb, havail⟩ := hfits
  have hle : wrap (a * b) ≤ a * b := Nat.mod_le _ _
  have hlt : wrap (a * b) < 2 ^ 32 := Nat.mod_lt _ (by decide)
  have hnull : ¬ (wrap (a * b) < a ∨ wrap (a * b) < b) := by omega
  have hm : Returns (s.use.heap.malloc (wrap (a * b)) got) fun r ↦ r.1 ≠ 0 ∧
      Returns (r.2.blockSize r.1) fun n ↦ n < a * b := by
    by_cases hsize : wrap (a * b) ≤ 2 ^ 32 - 12
    · -- The product has been reduced, and no block has 2³² bytes.
      have hbig : 2 ^ 32 ≤ a * b := by
        by_contra hsmall
        have : wrap (a * b) = a * b := Nat.mod_eq_of_lt (by omega)
        omega
      have hne : wrap (a * b) ≠ 0 := by
        intro h0
        obtain rfl : a = 0 := by omega
        omega
      refine (hs.malloc_room hgot (.inl hsize)).mono ?_
      rintro ⟨p, h⟩ (⟨h0 | hno, -⟩ | ⟨-, hp, -, hsound⟩)
      · exact absurd h0 hne
      · exact absurd havail hno
      · refine ⟨hp, (hsound.blockSize_live (update_self ..)).mono fun n hn ↦ ?_⟩
        exact Nat.lt_of_lt_of_le hn.2 hbig
    · refine (hs.malloc_short hlt hgot (by omega) havail).mono ?_
      exact fun r hr ↦ ⟨hr.1, hr.2.mono fun n hn ↦ Nat.lt_of_lt_of_le hn hle⟩
  exact (returns_calloc hnull hm).mono fun r hr ↦ hr.1

/-- **Which calls are served**, in a state in which the heap is sound. -/
theorem served_iff_fits (hs : s.use.Sound) {r : Request} (hr : s.Valid r) :
    s.Served r ↔ s.Fits r := by
  cases r with
  | malloc size got =>
    obtain ⟨hsize, hgot⟩ := hr
    refine ⟨fun hserved ↦ ?_, fun hfits ↦ ?_⟩
    · by_contra hno
      simp only [Fits, not_or, not_not, Nat.not_le] at hno
      obtain ⟨⟨p, h⟩, heq, hp, n, hn, hlt⟩ := hs.malloc_short hsize hgot hno.1 hno.2
      have hle := (hserved.of_eq heq hp).of_eq hn
      omega
    · refine (hs.malloc_room hgot hfits).mono ?_
      rintro ⟨p, h⟩ (⟨-, heq⟩ | ⟨-, hp, -, hsound⟩)
      · cases heq
        exact fun hne ↦ absurd rfl hne
      · exact fun _ ↦ (hsound.blockSize_live (update_self ..)).mono fun n hn ↦ hn.1
  | calloc a b got =>
    obtain ⟨-, -, hgot⟩ := hr
    refine ⟨fun hserved ↦ ?_, fun hfits ↦ ?_⟩
    · by_contra hno
      obtain ⟨⟨p, h, mem⟩, heq, hp, n, hn, hlt⟩ := calloc_short hs hgot hno
      have hle := ((hserved.of_eq heq hp).of_eq hn).1
      omega
    · refine (calloc_room hs hgot hfits).mono ?_
      rintro ⟨p, h, mem⟩ (⟨rfl, -⟩ | ⟨hp, hsound, hmem⟩)
      · exact fun hne ↦ absurd rfl hne
      · refine fun _ ↦ (hsound.blockSize_live (update_self ..)).mono fun n hn ↦
          ⟨hn.1, fun i hi ↦ ?_⟩
        rw [show mem = memset s.mem p 0 (a * b) from hmem]
        exact if_pos ⟨Nat.le_add_right p i, Nat.add_lt_add_left hi p⟩
  | free p =>
    refine iff_of_true ?_ trivial
    rcases hr with rfl | hlive
    · exact .pure trivial
    · obtain ⟨size, hsize⟩ := ne_none_iff_exists'.mp hlive
      exact (hs.free hsize).mono fun _ _ ↦ trivial

/-- A call that fits keeps the heap sound. -/
theorem sound_serve (hs : s.use.Sound) {r : Request} (hr : s.Valid r) (hfits : s.Fits r) :
    Returns (s.serve r) fun s' ↦ s'.use.Sound := by
  cases r with
  | malloc size got =>
    have hm := (hs.malloc_room hr.2 hfits).mono fun _ h ↦ h.imp And.right And.right
    exact Returns.bind (hs.step_malloc hm) fun use huse ↦ .pure huse
  | calloc a b got =>
    refine Returns.bind (calloc_room hs hr.2.2 hfits) ?_
    rintro ⟨p, h, mem⟩ (⟨rfl, rfl⟩ | ⟨hp, hsound, -⟩)
    · exact .pure hs
    · refine .pure ?_
      rw [if_neg hp]
      exact hsound
  | free p => exact Returns.bind (hs.step (c := .free p) hr) fun use huse ↦ .pure huse

/-- **Which requests are not shrunk.**  After `malloc_init` and any calls that fit, a call of
`malloc`, `calloc` or `free` is served as it should be if and only if it fits, too. -/
theorem requests_served_iff {h₀ : Heap} {mem : Nat → UInt8} {requests : List Request}
    (hinit : Heap.mallocInit = some h₀)
    (hrequests : Run.Meets serve (fun s r ↦ s.Valid r ∧ s.Fits r) ⟨⟨h₀, fun _ ↦ none⟩, mem⟩
      requests) : Returns (Run.run serve ⟨⟨h₀, fun _ ↦ none⟩, mem⟩ requests) fun s ↦
      ∀ r, s.Valid r → (s.Served r ↔ s.Fits r) := by
  have hrun := Run.simulates (f := fun (_ : Unit) _ ↦ ()) (R := fun s _ ↦ s.use.Sound) (x := ())
    (fun s r _ hs hr ↦ sound_serve hs hr.1 hr.2) (sound_of_init hinit) hrequests
  exact hrun.mono fun s hs r hr ↦ served_iff_fits hs hr

/-- After a block of 1000 bytes has been obtained. -/
theorem requests_served_first : ∃ h₀, Heap.mallocInit = some h₀ ∧
    Returns (Run.run serve ⟨⟨h₀, fun _ ↦ none⟩, fun _ ↦ 0⟩ [.malloc 1000 (some 0xC0101000)])
      fun s ↦ ∀ r, s.Valid r → (s.Served r ↔ s.Fits r) := by
  obtain ⟨h₀, heq, -, hnone, -⟩ := Heap.mallocInit_table
  have hpages : h₀.pagesFor 1000 = 1 := by
    have hpages : Heap.mallocInit.map (fun h ↦ h.pagesFor 1000) = some 1 := rfl
    rwa [heq, map_some, some_inj] at hpages
  refine ⟨h₀, heq, requests_served_iff heq ⟨⟨⟨by decide, ?_⟩, .inl (by decide)⟩, fun _ _ ↦ trivial⟩⟩
  rintro _ ⟨⟩
  rw [hpages]
  refine ⟨Nat.one_pos, by decide, by decide, by decide, fun a' arena harena ↦ ?_⟩
  cases (hnone a').symm.trans harena

/-- With a page at hand, `malloc (0xFFFFFFFF)` returns a block of 4084 bytes, and
`calloc (65537, 65537)` one of 135156. -/
theorem requests_shrunk :
    (do
      let h ← Heap.mallocInit
      let (p, h) ← h.malloc 0xFFFFFFFF (some 0xC0101000)
      return (p, ← h.blockSize p)) = some (0xC010100C, 4084) ∧
    (do
      let h ← Heap.mallocInit
      let (p, h, _) ← h.calloc (fun _ ↦ 0xCC) 65537 65537 (some 0xC0101000)
      return (p, ← h.blockSize p)) = some (0xC010100C, 135156) ∧
    135156 < 65537 * 65537 := by
  decide +kernel

end HeapMem

end Pintos
