import Pintos.Userprog.Load

/-!
# The four tables agree

`list_LRU`, `sup_page_tab`, the page directories and the page entries describe the same pages, and
every function of `Pintos.Vm.Page` updates all four.  `Vm.Consistent` says in which sense they
agree between two operations, when each operation runs to its end before the next one starts; the
functions are shown to keep it one after the other.

Each function first gets a lemma that says what it does to each table (`Freed` for `__free_page`,
`Evicted` for `replacement_mem`), and only that lemma unfolds it.
-/

set_option autoImplicit false

namespace Pintos

open Function Option

variable {entry : PageEntry}

namespace Vm

variable {s s' : Vm} {t u v w e f pge kaddr upage : Nat} {page : Page}

/-- The frame that the page directory of thread `t` maps the page `vaddr` to. -/
def frameOf (s : Vm) (t vaddr : Nat) : Option Nat :=
  (s.procs t).pagedir.bind fun pd ↦ pd.getPage vaddr

/-- The tables agree. -/
structure Consistent (s : Vm) : Prop where
  /-- Only the processes there are have page entries. -/
  thread : ∀ {t v e}, s.getPge t v = some e → t ∈ s.threads
  /-- `sup_page_tab` points to entries on the heap, and finds each under its own address. -/
  entry : ∀ {t v e}, s.getPge t v = some e → ∃ pge, s.heap e = some pge ∧ pge.vaddr = v
  /-- No entry is in two tables. -/
  inj : ∀ {t v e u w}, s.getPge t v = some e → s.getPge u w = some e → t = u ∧ v = w
  /-- A page on `list_LRU` is loaded, mapped and in use. -/
  lru : ∀ {p}, p ∈ s.listLRU → ∃ pge, s.heap p.pge = some pge ∧ pge.isLoaded = true ∧
    s.frameOf p.thread pge.vaddr = some p.kaddr ∧ s.userPool.bit p.kaddr = true
  /-- No two pages on `list_LRU` share a frame. -/
  kaddr : ∀ {p q}, p ∈ s.listLRU → q ∈ s.listLRU → p.kaddr = q.kaddr → p = q
  /-- No two pages on `list_LRU` share a page entry. -/
  pge : ∀ {p q}, p ∈ s.listLRU → q ∈ s.listLRU → p.pge = q.pge → p = q
  /-- A page is on `list_LRU` once. -/
  nodup : s.listLRU.Nodup
  /-- A page on `list_LRU` belongs to the process whose table holds its entry. -/
  own : ∀ {p t v}, p ∈ s.listLRU → s.getPge t v = some p.pge → t = p.thread
  /-- A loaded entry of a table has its page on `list_LRU`. -/
  resident : ∀ {t v e pge}, s.getPge t v = some e → s.heap e = some pge → pge.isLoaded = true →
    ∃ p ∈ s.listLRU, p.pge = e
  /-- A mapped page is on `list_LRU`, and its process has an entry for it. -/
  mapped : ∀ {t v f}, s.frameOf t v = some f → (∃ e, s.getPge t v = some e) ∧
    ∃ p ∈ s.listLRU, p.thread = t ∧ p.kaddr = f ∧ ∃ pge, s.heap p.pge = some pge ∧ pge.vaddr = v

/-! ## The elementary updates -/

@[simp] theorem getPge_setPge (o : Option PageEntry) : (s.setPge e o).getPge t v = s.getPge t v :=
  rfl

@[simp] theorem frameOf_setPge (o : Option PageEntry) :
    (s.setPge e o).frameOf t v = s.frameOf t v := rfl

theorem frameOf_setPagedir {pd : PageDir} :
    (s.setPagedir u pd).frameOf t v = if t = u then pd.getPage v else s.frameOf t v := by
  by_cases h : t = u <;> simp [frameOf, setPagedir, setProc, h]

theorem getPge_setPagedir {pd : PageDir} : (s.setPagedir u pd).getPge t v = s.getPge t v := by
  by_cases h : t = u <;> simp [getPge, setPagedir, setProc, h]

theorem frameOf_insertPge : (s.insertPge u w e).frameOf t v = s.frameOf t v := by
  unfold insertPge
  split
  · rfl
  · by_cases h : t = u <;> simp [frameOf, setProc, h]

theorem getPge_insertPge : (s.insertPge u w e).getPge t v =
    if t = u ∧ v = w ∧ s.getPge u w = none then some e else s.getPge t v := by
  unfold insertPge
  split
  · rename_i h; simp [h]
  · rename_i h
    by_cases ht : t = u
    · by_cases hv : v = w
      · subst ht hv
        rw [if_pos ⟨rfl, rfl, h⟩]
        simp [getPge, setProc, AList.lookup_insert]
      · simp [getPge, setProc, ht, hv, AList.lookup_insert_ne hv]
    · simp [getPge, setProc, ht]

@[simp] theorem insertPge_heap : (s.insertPge u w e).heap = s.heap := by
  unfold insertPge; split <;> rfl

@[simp] theorem insertPge_threads : (s.insertPge u w e).threads = s.threads := by
  unfold insertPge; split <;> rfl

@[simp] theorem insertPge_listLRU : (s.insertPge u w e).listLRU = s.listLRU := by
  unfold insertPge; split <;> rfl

@[simp] theorem insertPge_userPool : (s.insertPge u w e).userPool = s.userPool := by
  unfold insertPge; split <;> rfl

@[simp] theorem insertPge_swap : (s.insertPge u w e).swap = s.swap := by
  unfold insertPge; split <;> rfl

/-! ## What `__free_page` and `replacement_mem` do to the tables -/

/-- `s'` is `s` after `__free_page` of a page mapped at `vaddr`. -/
structure Freed (s : Vm) (page : Page) (vaddr : Nat) (s' : Vm) : Prop where
  threads : s'.threads = s.threads
  heap : s'.heap = s.heap
  getPge : ∀ t v, s'.getPge t v = s.getPge t v
  frameOf : ∀ t v, s'.frameOf t v = if t = page.thread ∧ v = vaddr then none else s.frameOf t v
  listLRU : s'.listLRU = s.listLRU.erase page
  bit : ∀ f, s'.userPool.bit f = if f = page.kaddr then false else s.userPool.bit f
  swap : s'.swap = s.swap
  mem : s'.mem page.kaddr = fun _ ↦ 0xcc

theorem pallocFreePage_spec (h : s.pallocFreePage kaddr = some s') :
    s'.threads = s.threads ∧ s'.heap = s.heap ∧ s'.procs = s.procs ∧ s'.listLRU = s.listLRU ∧
      s'.swap = s.swap ∧ s.userPool.bit kaddr = true ∧
      (∀ f, s'.userPool.bit f = if f = kaddr then false else s.userPool.bit f) ∧
      s'.mem kaddr = fun _ ↦ 0xcc := by
  simp only [pallocFreePage, Bitmap.all, bind_eq_some, assert_eq_some, pure_eq_some] at h
  obtain ⟨used, ⟨c, hc, hused⟩, _, htrue, pool, hset, rfl⟩ := h
  obtain ⟨-, -, hbit⟩ := Bitmap.setMultiple_spec hset
  have hfalse : c = false := by rw [htrue] at hused; simpa using hused
  subst hfalse
  refine ⟨rfl, rfl, rfl, rfl, rfl, ?_, fun f ↦ ?_, update_self ..⟩
  · simpa using (Bitmap.contains_eq_false hc).2 kaddr (by omega) (by omega)
  · rw [hbit f]
    by_cases hf : f = kaddr
    · rw [if_pos (by omega), if_pos hf]
    · rw [if_neg (by omega), if_neg hf]

theorem freePage_spec (h : s.freePage page = some s') :
    ∃ entry, s.heap page.pge = some entry ∧ Freed s page entry.vaddr s' := by
  simp only [freePage, bind_eq_some] at h
  obtain ⟨pd, hpd, entry, hentry, pd', hclear, h⟩ := h
  obtain ⟨h1, h2, h3, h4, h5, -, h6, h7⟩ := pallocFreePage_spec h
  refine ⟨entry, hentry, h1, h2, fun t v ↦ ?_, fun t v ↦ ?_, h4, h6, h5, h7⟩
  · rw [Vm.getPge, h3]
    exact getPge_setPagedir
  · rw [Vm.frameOf, h3]
    refine Eq.trans (b := (s.setPagedir page.thread pd').frameOf t v) rfl ?_
    rw [frameOf_setPagedir]
    by_cases ht : t = page.thread
    · subst ht
      rw [if_pos rfl, PageDir.getPage_clearPage hclear, Vm.frameOf, hpd]
      by_cases hv : v = entry.vaddr <;> simp [hv]
    · simp [ht]

/-- What `writeBack` leaves the victim's entry as. -/
theorem writeBack_spec {entry' : PageEntry} {dirty : Bool}
    (h : s.writeBack page entry dirty = some (s', entry')) :
    ((entry.type = .bin ∧ dirty = false) ∧ s' = s ∧ entry' = entry) ∨
      (¬ (entry.type = .bin ∧ dirty = false) ∧ ∃ swap slot,
        s.swap.swapOut (s.mem page.kaddr) = some (swap, slot) ∧
        s' = { s with swap } ∧ entry' = { entry with swapSlot := slot, type := .anon }) := by
  unfold writeBack at h
  split at h
  · rename_i hbin
    rw [some_inj, Prod.mk.injEq] at h
    exact Or.inl ⟨⟨hbin, rfl⟩, h.1.symm, h.2.symm⟩
  · simp only [bind_eq_some, Prod.exists, pure_eq_some, Prod.mk.injEq] at h
    obtain ⟨swap, slot, hout, rfl, rfl⟩ := h
    exact Or.inr ⟨by simp, swap, slot, hout, rfl, rfl⟩
  · rename_i hanon
    simp only [bind_eq_some, Prod.exists, pure_eq_some, Prod.mk.injEq] at h
    obtain ⟨swap, slot, hout, rfl, rfl⟩ := h
    exact Or.inr ⟨by simp [hanon], swap, slot, hout, rfl, by rw [← hanon]⟩

/-- `s'` is `s` after `replacement_mem` has taken the page `page` with the entry `entry`. -/
structure Evicted (s : Vm) (page : Page) (entry : PageEntry) (s' : Vm) : Prop where
  mem : page ∈ s.listLRU
  heap_page : s.heap page.pge = some entry
  threads : s'.threads = s.threads
  getPge : ∀ t v, s'.getPge t v = s.getPge t v
  frameOf : ∀ t v,
    s'.frameOf t v = if t = page.thread ∧ v = entry.vaddr then none else s.frameOf t v
  listLRU : s'.listLRU = s.listLRU.erase page
  bit : ∀ f, s'.userPool.bit f = if f = page.kaddr then false else s.userPool.bit f
  /-- Other entries stay as they are. -/
  heap_ne : ∀ e, e ≠ page.pge → s'.heap e = s.heap e
  /-- The victim is dropped if it is a clean page of the file, and else written to a slot. -/
  back : (s'.swap = s.swap ∧ entry.type = .bin ∧
      s'.heap page.pge = some { entry with isLoaded := false }) ∨
    ∃ slot, s.swap.swapOut (s.mem page.kaddr) = some (s'.swap, slot) ∧
      s'.heap page.pge = some { entry with swapSlot := slot, type := .anon, isLoaded := false }

theorem replacementMem_spec (h : s.replacementMem page = some s') :
    ∃ entry, Evicted s page entry s' := by
  simp only [replacementMem, bind_eq_some, assert_eq_some, Prod.exists] at h
  obtain ⟨_, hmem, pd, hpd, entry, hentry, m, entry', hback, h⟩ := h
  obtain ⟨entry'', hentry'', hfreed⟩ := freePage_spec h
  simp only [setPge, update_self, some_inj] at hentry''
  subst hentry''
  -- Everything but the swap area and the victim's entry is what `__free_page` leaves.
  have hm : m.threads = s.threads ∧ m.listLRU = s.listLRU ∧ m.userPool = s.userPool ∧
      m.heap = s.heap ∧ m.procs = s.procs ∧ entry'.vaddr = entry.vaddr := by
    rcases writeBack_spec hback with ⟨-, rfl, rfl⟩ | ⟨-, swap, slot, -, rfl, rfl⟩ <;> simp
  obtain ⟨hm1, hm2, hm3, hm4, hm5, hv⟩ := hm
  refine ⟨entry, hmem, hentry, hfreed.threads.trans hm1, fun t v ↦ ?_, fun t v ↦ ?_, ?_, fun f ↦ ?_,
    fun e he ↦ ?_, ?_⟩
  · rw [hfreed.getPge, getPge_setPge, Vm.getPge, hm5, Vm.getPge]
  · rw [hfreed.frameOf, frameOf_setPge, Vm.frameOf, hm5, ← Vm.frameOf]
    simp [hv]
  · rw [hfreed.listLRU, ← hm2]; rfl
  · rw [hfreed.bit, ← hm3]; rfl
  · rw [hfreed.heap, setPge]
    simp [update_of_ne he, hm4]
  · have hheap : s'.heap page.pge = some { entry' with isLoaded := false } := by
      rw [hfreed.heap, setPge]; simp
    have hswap : s'.swap = m.swap := hfreed.swap
    rcases writeBack_spec hback with ⟨hbin, rfl, rfl⟩ | ⟨-, swap, slot, hout, rfl, rfl⟩
    · exact Or.inl ⟨hswap, hbin.1, hheap⟩
    · exact Or.inr ⟨slot, hswap ▸ hout, hheap⟩

/-! ## The operations keep the tables consistent -/

section

variable (hc : s.Consistent)

include hc

/-- Two pages on `list_LRU` that are mapped at the same place are the same page. -/
theorem Consistent.eq_of_place {p q : Page} {x y : PageEntry}
    (hp : p ∈ s.listLRU) (hq : q ∈ s.listLRU) (hx : s.heap p.pge = some x)
    (hy : s.heap q.pge = some y) (ht : p.thread = q.thread) (hv : x.vaddr = y.vaddr) : p = q := by
  obtain ⟨x', hx', -, hfx, -⟩ := hc.lru hp
  obtain ⟨y', hy', -, hfy, -⟩ := hc.lru hq
  obtain rfl : x' = x := some_inj.mp (hx'.symm.trans hx)
  obtain rfl : y' = y := some_inj.mp (hy'.symm.trans hy)
  rw [ht, hv, hfy, some_inj] at hfx
  exact hc.kaddr hp hq hfx.symm

/-- Taking a page off `list_LRU` together with its mapping and its frame keeps the tables
consistent, if its entry is no longer loaded or no longer in a table. -/
theorem Consistent.erase {page : Page}
    (hmem : page ∈ s.listLRU) (hentry : s.heap page.pge = some entry)
    (hthread : ∀ t v e, s'.getPge t v = some e → s.getPge t v = some e ∧ t ∈ s'.threads)
    (hkeep : ∀ t v e, s.getPge t v = some e → ¬ (t = page.thread ∧ v = entry.vaddr) →
      s'.getPge t v = some e) (hframe : ∀ t v, s'.frameOf t v =
      if t = page.thread ∧ v = entry.vaddr then none else s.frameOf t v)
    (hlru : s'.listLRU = s.listLRU.erase page)
    (hbit : ∀ f, s'.userPool.bit f = if f = page.kaddr then false else s.userPool.bit f)
    (hheap : ∀ t v e, s'.getPge t v = some e → ∃ pge, s'.heap e = some pge ∧ pge.vaddr = v ∧
      (pge.isLoaded = true → e ≠ page.pge ∧ s.heap e = some pge))
    (hother : ∀ p ∈ s.listLRU, p ≠ page → s'.heap p.pge = s.heap p.pge) : s'.Consistent := by
  have hsub : ∀ {p}, p ∈ s'.listLRU → p ∈ s.listLRU ∧ p ≠ page := by
    intro p hp
    rw [hlru, hc.nodup.mem_erase_iff] at hp
    exact ⟨hp.2, hp.1⟩
  have hsup : ∀ {p}, p ∈ s.listLRU → p ≠ page → p ∈ s'.listLRU := by
    intro p hp hne
    rw [hlru, hc.nodup.mem_erase_iff]
    exact ⟨hne, hp⟩
  refine ⟨?_, ?_, ?_, ?_, ?_, ?_, ?_, ?_, ?_, ?_⟩
  · intro t v e h
    exact (hthread t v e h).2
  · intro t v e h
    obtain ⟨x, hx, hv, -⟩ := hheap t v e h
    exact ⟨x, hx, hv⟩
  · intro t v e u w h h'
    exact hc.inj (hthread t v e h).1 (hthread u w e h').1
  · intro p hp
    obtain ⟨hp, hne⟩ := hsub hp
    obtain ⟨x, hx, hload, hf, hb⟩ := hc.lru hp
    refine ⟨x, (hother p hp hne).trans hx, hload, ?_, ?_⟩
    · rw [hframe, if_neg]
      · exact hf
      · rintro ⟨ht, hv⟩
        exact hne (hc.eq_of_place hp hmem hx hentry ht hv)
    · rw [hbit, if_neg]
      · exact hb
      · exact fun hk ↦ hne (hc.kaddr hp hmem hk)
  · intro p q hp hq
    exact hc.kaddr (hsub hp).1 (hsub hq).1
  · intro p q hp hq
    exact hc.pge (hsub hp).1 (hsub hq).1
  · rw [hlru]
    exact hc.nodup.erase page
  · intro p t v hp h
    exact hc.own (hsub hp).1 (hthread t v _ h).1
  · intro t v e x h hx hload
    obtain ⟨y, hy, -, hloaded⟩ := hheap t v e h
    obtain rfl : y = x := some_inj.mp (hy.symm.trans hx)
    obtain ⟨hne, hold⟩ := hloaded hload
    obtain ⟨p, hp, rfl⟩ := hc.resident (hthread t v e h).1 hold hload
    exact ⟨p, hsup hp (fun h ↦ hne (h ▸ rfl)), rfl⟩
  · intro t v f h
    rw [hframe] at h
    split at h
    · simp at h
    · rename_i hplace
      obtain ⟨⟨e, he⟩, p, hp, ht, hk, x, hx, hv⟩ := hc.mapped h
      have hne : p ≠ page := by
        rintro rfl
        rw [hentry, some_inj] at hx
        exact hplace ⟨ht.symm, by rw [hx, hv]⟩
      exact ⟨⟨e, hkeep t v e he hplace⟩, p, hsup hp hne, ht, hk, x, (hother p hp hne).trans hx, hv⟩

/-- **`replacement_mem` keeps the tables consistent.** -/
theorem Evicted.consistent (h : Evicted s page entry s') : s'.Consistent := by
  have hpage : ∃ x, s'.heap page.pge = some x ∧ x.vaddr = entry.vaddr ∧ x.isLoaded = false := by
    rcases h.back with ⟨-, -, hx⟩ | ⟨slot, -, hx⟩ <;> exact ⟨_, hx, rfl, rfl⟩
  refine hc.erase h.mem h.heap_page (fun t v e he ↦ ?_) (fun t v e he _ ↦ ?_) h.frameOf h.listLRU
    h.bit (fun t v e he ↦ ?_) (fun p hp hne ↦ ?_)
  · rw [h.getPge] at he
    exact ⟨he, h.threads ▸ hc.thread he⟩
  · rwa [h.getPge]
  · rw [h.getPge] at he
    obtain ⟨x, hx, hv⟩ := hc.entry he
    by_cases hep : e = page.pge
    · subst hep
      obtain ⟨y, hy, hyv, hyl⟩ := hpage
      obtain rfl : entry = x := some_inj.mp (h.heap_page.symm.trans hx)
      exact ⟨y, hy, hyv.trans hv, by simp [hyl]⟩
    · exact ⟨x, (h.heap_ne e hep).trans hx, hv, fun _ ↦ ⟨hep, hx⟩⟩
  · exact h.heap_ne _ fun hpge ↦ hne (hc.pge hp h.mem hpge)

/-- Putting a frame that is on no list to use changes nothing. -/
theorem Consistent.pool {b : Bitmap}
    (hb : ∀ f, s.userPool.bit f = true → b.bit f = true) : Consistent { s with userPool := b } := by
  refine ⟨hc.thread, hc.entry, hc.inj, fun hp ↦ ?_, hc.kaddr, hc.pge, hc.nodup, hc.own,
    hc.resident, hc.mapped⟩
  obtain ⟨x, hx, hl, hf, hbit⟩ := hc.lru hp
  exact ⟨x, hx, hl, hf, hb _ hbit⟩

/-- The contents of the frames, the flag bits and the swap area do not matter. -/
theorem Consistent.congr (hheap : s'.heap = s.heap)
    (hget : ∀ t v, s'.getPge t v = s.getPge t v) (hframe : ∀ t v, s'.frameOf t v = s.frameOf t v)
    (hlist : s'.listLRU = s.listLRU) (hpool : s'.userPool = s.userPool)
    (hthread : ∀ {t v e}, s.getPge t v = some e → t ∈ s'.threads) : s'.Consistent := by
  refine ⟨fun h ↦ hthread (hget _ _ ▸ h), fun h ↦ hheap ▸ hc.entry (hget _ _ ▸ h), fun h h' ↦ ?_,
    fun h ↦ ?_, hlist ▸ hc.kaddr, hlist ▸ hc.pge, hlist ▸ hc.nodup, fun hp h ↦ ?_, fun h hx hl ↦ ?_,
    fun h ↦ ?_⟩
  · exact hc.inj (hget _ _ ▸ h) (hget _ _ ▸ h')
  · obtain ⟨x, hx, hl, hf, hb⟩ := hc.lru (hlist ▸ h)
    exact ⟨x, hheap ▸ hx, hl, (hframe _ _).trans hf, hpool ▸ hb⟩
  · exact hc.own (hlist ▸ hp) (hget _ _ ▸ h)
  · exact hlist ▸ hc.resident (hget _ _ ▸ h) (hheap ▸ hx) hl
  · obtain ⟨⟨e, he⟩, p, hp, ht, hk, x, hx, hv⟩ := hc.mapped ((hframe _ _).symm.trans h)
    exact ⟨⟨e, (hget _ _).trans he⟩, p, hlist ▸ hp, ht, hk, x, hheap ▸ hx, hv⟩

end

/-- What `alloc_page` returns: a frame that is in use and on no list, in a state that is `s` after
at most one eviction. -/
structure Allocated (s : Vm) (kaddr : Nat) (s' : Vm) : Prop where
  /-- The state before the frame was taken. -/
  before : ∃ m, (m = s ∨ ∃ page entry, Evicted s page entry m) ∧ m.userPool.bit kaddr = false ∧
    ∃ b, s' = { m with userPool := b } ∧
      ∀ f, b.bit f = if f = kaddr then true else m.userPool.bit f

theorem pallocGetPage_spec {k : Option Nat} (h : s.pallocGetPage = some (k, s')) :
    (k = none ∧ s' = s) ∨ ∃ kaddr, k = some kaddr ∧ s.userPool.bit kaddr = false ∧
      ∃ b, s' = { s with userPool := b } ∧
        ∀ f, b.bit f = if f = kaddr then true else s.userPool.bit f := by
  simp only [pallocGetPage, bind_eq_some, Prod.exists, pure_eq_some, Prod.mk.injEq] at h
  obtain ⟨idx, used, hscan, rfl, rfl⟩ := h
  cases idx with
  | none => exact Or.inl ⟨rfl, by rw [Bitmap.scanAndFlip_eq_none hscan]⟩
  | some i =>
    obtain ⟨-, -, -, hold, hnew⟩ := Bitmap.scanAndFlip_spec hscan
    refine Or.inr ⟨i, rfl, hold i (by omega) (by omega), used, rfl, fun f ↦ ?_⟩
    rw [hnew f]
    by_cases hf : f = i
    · rw [if_pos (by omega), if_pos hf]; rfl
    · rw [if_neg (by omega), if_neg hf]

theorem allocPage_spec {memory : Bool} {k : Option Nat}
    (h : s.allocPage memory page = some (k, s')) :
    (k = none ∧ s' = s) ∨ ∃ kaddr, k = some kaddr ∧ Allocated s kaddr s' := by
  unfold allocPage at h
  split at h
  · simp only [bind_eq_some, Prod.exists] at h
    obtain ⟨a, m, hget, h⟩ := h
    rcases pallocGetPage_spec hget with ⟨rfl, rfl⟩ | ⟨kaddr, rfl, hfree, b, rfl, hb⟩
    · simp only [bind_eq_some, Prod.exists, pure_eq_some, Prod.mk.injEq] at h
      obtain ⟨n, hrep, a, m', hget', c, rfl, rfl, rfl⟩ := h
      obtain ⟨entry, hev⟩ := replacementMem_spec hrep
      rcases pallocGetPage_spec hget' with ⟨hnone, -⟩ | ⟨kaddr, hk, hfree, b, rfl, hb⟩
      · simp at hnone
      · rw [some_inj] at hk
        subst hk
        exact Or.inr ⟨c, rfl, ⟨n, Or.inr ⟨page, entry, hev⟩, hfree, b, rfl, hb⟩⟩
    · simp only [pure_def, some_inj, Prod.mk.injEq] at h
      obtain ⟨rfl, rfl⟩ := h
      exact Or.inr ⟨kaddr, rfl, ⟨s, Or.inl rfl, hfree, b, rfl, hb⟩⟩
  · rw [some_inj, Prod.mk.injEq] at h
    exact Or.inl ⟨h.1.symm, h.2.symm⟩

theorem Allocated.consistent (h : Allocated s kaddr s') (hc : s.Consistent) : s'.Consistent := by
  obtain ⟨m, hm, -, b, rfl, hb⟩ := h.before
  have hcm : m.Consistent := by
    rcases hm with rfl | ⟨page, entry, hev⟩
    · exact hc
    · exact hev.consistent hc
  refine hcm.pool fun f hf ↦ ?_
  rw [hb, hf]
  split <;> rfl

/-- The frame `alloc_page` returns is in use and on no list. -/
theorem Allocated.fresh (h : Allocated s kaddr s') (hc : s.Consistent) :
    s'.userPool.bit kaddr = true ∧ ∀ p ∈ s'.listLRU, p.kaddr ≠ kaddr := by
  obtain ⟨m, hm, hfree, b, rfl, hb⟩ := h.before
  have hcm : m.Consistent := by
    rcases hm with rfl | ⟨page, entry, hev⟩
    · exact hc
    · exact hev.consistent hc
  refine ⟨by rw [hb, if_pos rfl], fun p hp hk ↦ ?_⟩
  obtain ⟨x, -, -, -, hbit⟩ := hcm.lru (p := p) hp
  rw [hk, hfree] at hbit
  exact absurd hbit (by simp)

theorem Allocated.tables (h : Allocated s kaddr s') :
    s'.threads = s.threads ∧ (∀ t v, s'.getPge t v = s.getPge t v) ∧
      (∀ t v, s.frameOf t v = none → s'.frameOf t v = none) ∧
      (∀ e, s.heap e = none → s'.heap e = none) := by
  obtain ⟨m, hm, -, b, rfl, -⟩ := h.before
  rcases hm with rfl | ⟨page, entry, hev⟩
  · exact ⟨rfl, fun _ _ ↦ rfl, fun _ _ h ↦ h, fun _ h ↦ h⟩
  · refine ⟨hev.threads, hev.getPge, fun t v h ↦ ?_, fun e h ↦ ?_⟩
    · refine (hev.frameOf t v).trans ?_
      split
      · rfl
      · exact h
    · refine (hev.heap_ne e ?_).trans h
      rintro rfl
      rw [hev.heap_page] at h
      exact absurd h (by simp)

/-- A page that is put on `list_LRU` together with its mapping keeps the tables consistent. -/
theorem Consistent.add (hc : s.Consistent) (page : Page) {x : PageEntry}
    (hmem : page.thread ∈ s.threads)
    (hk : ∀ p ∈ s.listLRU, p.kaddr ≠ page.kaddr) (he : ∀ p ∈ s.listLRU, p.pge ≠ page.pge)
    (hfree : s.frameOf page.thread x.vaddr = none) (hthreads : s'.threads = s.threads)
    (hx : s'.heap page.pge = some x) (hload : x.isLoaded = true)
    (hheap : ∀ e, e ≠ page.pge → s'.heap e = s.heap e)
    (hused : s.userPool.bit page.kaddr = true) (hpool : s'.userPool = s.userPool)
    (hframe : ∀ t v, s'.frameOf t v =
      if t = page.thread ∧ v = x.vaddr then some page.kaddr else s.frameOf t v)
    (hlru : s'.listLRU = s.listLRU ++ [page])
    (hget : ∀ t v e, s'.getPge t v = some e → (s.getPge t v = some e ∧ e ≠ page.pge) ∨
      (t = page.thread ∧ v = x.vaddr ∧ e = page.pge))
    (hkeep : ∀ t v e, s.getPge t v = some e → s'.getPge t v = some e)
    (hhas : ∃ e, s'.getPge page.thread x.vaddr = some e) : s'.Consistent := by
  have hcases : ∀ {p}, p ∈ s'.listLRU → p ∈ s.listLRU ∨ p = page := by
    intro p hp
    rw [hlru, List.mem_append, List.mem_singleton] at hp
    exact hp
  have hold : ∀ {p}, p ∈ s.listLRU → p ∈ s'.listLRU := by
    intro p hp
    rw [hlru]
    exact List.mem_append_left _ hp
  have hnew : page ∈ s'.listLRU := by rw [hlru]; simp
  refine ⟨?_, ?_, ?_, ?_, ?_, ?_, ?_, ?_, ?_, ?_⟩
  · intro t v e h
    rw [hthreads]
    rcases hget t v e h with ⟨h, -⟩ | ⟨rfl, -, -⟩
    · exact hc.thread h
    · exact hmem
  · intro t v e h
    rcases hget t v e h with ⟨h, hne⟩ | ⟨-, rfl, rfl⟩
    · rw [hheap e hne]
      exact hc.entry h
    · exact ⟨x, hx, rfl⟩
  · intro t v e u w h h'
    rcases hget t v e h with ⟨h, hne⟩ | ⟨rfl, rfl, rfl⟩ <;>
      rcases hget u w _ h' with ⟨h', hne'⟩ | ⟨rfl, rfl, h''⟩
    · exact hc.inj h h'
    · exact absurd h'' hne
    · exact absurd rfl hne'
    · exact ⟨rfl, rfl⟩
  · intro p hp
    rcases hcases hp with hp | rfl
    · obtain ⟨y, hy, hl, hf, hb⟩ := hc.lru hp
      refine ⟨y, (hheap _ (he p hp)).trans hy, hl, ?_, hpool ▸ hb⟩
      rw [hframe, if_neg]
      · exact hf
      · rintro ⟨ht, hv⟩
        rw [ht, hv, hfree] at hf
        exact absurd hf (by simp)
    · exact ⟨x, hx, hload, by rw [hframe, if_pos ⟨rfl, rfl⟩], hpool ▸ hused⟩
  · intro p q hp hq h
    rcases hcases hp with hp | rfl <;> rcases hcases hq with hq | rfl
    · exact hc.kaddr hp hq h
    · exact absurd h (hk p hp)
    · exact absurd h.symm (hk q hq)
    · rfl
  · intro p q hp hq h
    rcases hcases hp with hp | rfl <;> rcases hcases hq with hq | rfl
    · exact hc.pge hp hq h
    · exact absurd h (he p hp)
    · exact absurd h.symm (he q hq)
    · rfl
  · rw [hlru]
    exact hc.nodup.append (List.nodup_singleton _)
      (List.disjoint_singleton.mpr fun h ↦ hk page h rfl)
  · intro p t v hp h
    rcases hget t v _ h with ⟨h, hne⟩ | ⟨rfl, rfl, hpge⟩
    · rcases hcases hp with hp | rfl
      · exact hc.own hp h
      · exact absurd rfl hne
    · rcases hcases hp with hp | rfl
      · exact absurd hpge (he p hp)
      · rfl
  · intro t v e y h hy hl
    rcases hget t v e h with ⟨h, hne⟩ | ⟨-, -, rfl⟩
    · rw [hheap e hne] at hy
      obtain ⟨p, hp, hpe⟩ := hc.resident h hy hl
      exact ⟨p, hold hp, hpe⟩
    · exact ⟨page, hnew, rfl⟩
  · intro t v f h
    rw [hframe] at h
    split at h
    · rename_i hplace
      obtain ⟨rfl, rfl⟩ := hplace
      rw [some_inj] at h
      exact ⟨hhas, page, hnew, rfl, h, x, hx, rfl⟩
    · obtain ⟨⟨e, hge⟩, p, hp, ht, hkf, y, hy, hv⟩ := hc.mapped h
      exact ⟨⟨e, hkeep t v e hge⟩, p, hold hp, ht, hkf, y, (hheap _ (he p hp)).trans hy, hv⟩

theorem installPage_spec {writable table installed : Bool}
    (h : s.installPage t upage kaddr writable table = some (installed, s'))
    (hi : installed = true) : s.frameOf t upage = none ∧ s'.threads = s.threads ∧ s'.heap = s.heap ∧
      s'.listLRU = s.listLRU ∧ s'.userPool = s.userPool ∧ s'.swap = s.swap ∧
      (∀ u v, s'.getPge u v = s.getPge u v) ∧
      ∀ u v, s'.frameOf u v = if u = t ∧ v = upage then some kaddr else s.frameOf u v := by
  simp only [installPage, bind_eq_some] at h
  obtain ⟨pd, hpd, h⟩ := h
  split at h
  · rename_i hnone
    simp only [pure_def, some_inj, Prod.mk.injEq] at h
    obtain ⟨-, rfl⟩ := h
    refine ⟨by rw [frameOf, hpd]; exact hnone.1, rfl, rfl, rfl, rfl, rfl,
      fun _ _ ↦ getPge_setPagedir, fun u v ↦ ?_⟩
    rw [frameOf_setPagedir]
    by_cases hu : u = t
    · subst hu
      rw [if_pos rfl, PageDir.getPage_setPage, frameOf, hpd]
      simp
    · simp [hu]
  · simp only [pure_def, some_inj, Prod.mk.injEq] at h
    rw [← h.1] at hi
    exact absurd hi (by simp)

/-- `s'` is `s` after thread `t` has loaded the page of the entry at `pge`. -/
structure Faulted (s : Vm) (t pge : Nat) (entry : PageEntry) (kaddr : Nat) (s' : Vm) : Prop where
  heap_page : s.heap pge = some entry
  frame : s.frameOf t entry.vaddr = none
  threads : s'.threads = s.threads
  heap : ∀ e, s'.heap e = if e = pge then some { entry with isLoaded := true } else s.heap e
  getPge : ∀ u v, s'.getPge u v = s.getPge u v
  frameOf : ∀ u v, s'.frameOf u v = if u = t ∧ v = entry.vaddr then some kaddr else s.frameOf u v
  listLRU : s'.listLRU = s.listLRU ++ [⟨kaddr, pge, t⟩]
  userPool : s'.userPool = s.userPool
  swap : (entry.type = .bin ∧ s'.swap = s.swap) ∨ (entry.type = .anon ∧
    ∃ page page', s.swap.swapIn entry.swapSlot page = some (s'.swap, page'))

theorem pageIn_spec {files : Nat → FileImage} (h : pageIn files s entry kaddr = some s') :
    ∃ mem swap, s' = { s with mem, swap } ∧ ((entry.type = .bin ∧ swap = s.swap) ∨
      (entry.type = .anon ∧
        ∃ page page', s.swap.swapIn entry.swapSlot page = some (swap, page'))) := by
  simp only [pageIn, fetch, bind_eq_some, Prod.exists, pure_eq_some] at h
  obtain ⟨swap, page, h, rfl⟩ := h
  split at h
  · rename_i hbin
    simp only [bind_eq_some] at h
    obtain ⟨_, -, rfl, -⟩ := h
    exact ⟨_, _, rfl, Or.inl ⟨hbin, rfl⟩⟩
  · rename_i hanon
    exact ⟨_, _, rfl, Or.inr ⟨hanon, _, _, h⟩⟩

theorem handleMmFault_spec {files : Nat → FileImage} {memory table : Bool}
    (h : handleMmFault files s t pge memory page table = some s') :
    ∃ kaddr m entry, Allocated s kaddr m ∧ Faulted m t pge entry kaddr s' := by
  simp only [handleMmFault, bind_eq_some, Prod.exists, assert_eq_some, pure_eq_some] at h
  obtain ⟨k, m, halloc, kaddr, rfl, entry, hentry, n, hin, i, r, hinst, _, hi, rfl⟩ := h
  rcases allocPage_spec halloc with ⟨hk, -⟩ | ⟨kaddr', hk, ha⟩
  · simp at hk
  rw [some_inj] at hk
  subst hk
  obtain ⟨mem, swap, rfl, hswap⟩ := pageIn_spec hin
  obtain ⟨h1, h2, h3, h4, h5, h6, h7, h8⟩ := installPage_spec hinst hi
  refine ⟨kaddr, m, entry, ha, hentry, h1, h2, fun e ↦ ?_, h7, h8, ?_, h5, ?_⟩
  · simp only [addPageToListLRU, setPge, h3, update_apply]
  · simp only [addPageToListLRU, setPge, h4]
  · simp only [addPageToListLRU, setPge, h6]
    exact hswap

/-- **`handle_mm_fault` keeps the tables consistent**, when it is called as `page_fault` calls it:
on an entry of the faulting process whose page is not mapped. -/
theorem Faulted.consistent (h : Faulted s t pge entry kaddr s')
    (hc : s.Consistent) (hk : ∀ p ∈ s.listLRU, p.kaddr ≠ kaddr)
    (hused : s.userPool.bit kaddr = true) (hget : s.getPge t v = some pge) : s'.Consistent := by
  obtain ⟨x, hx, hv⟩ := hc.entry hget
  obtain rfl : x = entry := some_inj.mp (hx.symm.trans h.heap_page)
  have hne : ∀ p ∈ s.listLRU, p.pge ≠ pge := by
    rintro p hp rfl
    obtain ⟨y, hy, -, hf, -⟩ := hc.lru hp
    obtain rfl : y = x := some_inj.mp (hy.symm.trans hx)
    rw [← hc.own hp hget, h.frame] at hf
    exact absurd hf (by simp)
  refine hc.add ⟨kaddr, pge, t⟩ (x := { x with isLoaded := true }) (hc.thread hget) hk hne h.frame
    h.threads (by rw [h.heap, if_pos rfl]) rfl (fun e he ↦ by rw [h.heap, if_neg he]) hused
    h.userPool h.frameOf h.listLRU (fun u w e he ↦ ?_) (fun u w e he ↦ by rwa [h.getPge])
    ⟨pge, by rw [h.getPge]; exact hv ▸ hget⟩
  rw [h.getPge] at he
  by_cases hep : e = pge
  · subst hep
    obtain ⟨rfl, rfl⟩ := hc.inj he hget
    exact Or.inr ⟨rfl, hv.symm, rfl⟩
  · exact Or.inl ⟨he, hep⟩

/-- `s'` is `s` after thread `t` has mapped a zeroed page at `upage`, with its entry at `pge`. -/
structure Grown (s : Vm) (t upage pge kaddr : Nat) (s' : Vm) : Prop where
  frame : s.frameOf t upage = none
  threads : s'.threads = s.threads
  heap : ∀ e, s'.heap e = if e = pge then some (stackEntry upage) else s.heap e
  getPge : ∀ u v, s'.getPge u v =
    if u = t ∧ v = upage ∧ s.getPge t upage = none then some pge else s.getPge u v
  frameOf : ∀ u v, s'.frameOf u v = if u = t ∧ v = upage then some kaddr else s.frameOf u v
  listLRU : s'.listLRU = s.listLRU ++ [⟨kaddr, pge, t⟩]
  userPool : s'.userPool = s.userPool
  swap : s'.swap = s.swap

theorem mapStackPage_spec {o : Option Nat} {memory table mapped : Bool}
    (h : s.mapStackPage t upage o memory page table = some (mapped, s')) :
    s' = s ∨ ∃ pge kaddr m, o = some pge ∧ Allocated s kaddr m ∧ Grown m t upage pge kaddr s' := by
  unfold mapStackPage at h
  split at h
  · rw [some_inj, Prod.mk.injEq] at h
    exact Or.inl h.2.symm
  · rename_i pge
    simp only [bind_eq_some, Prod.exists] at h
    obtain ⟨k, m, halloc, h⟩ := h
    rcases allocPage_spec halloc with ⟨rfl, rfl⟩ | ⟨kaddr, rfl, ha⟩
    · simp only [pure_def, some_inj, Prod.mk.injEq] at h
      exact Or.inl h.2.symm
    · simp only [bind_eq_some, Prod.exists, assert_eq_some, pure_eq_some, Prod.mk.injEq] at h
      obtain ⟨i, r, hinst, _, hi, -, rfl⟩ := h
      obtain ⟨h1, h2, h3, h4, h5, h6, h7, h8⟩ := installPage_spec hinst hi
      refine Or.inr ⟨pge, kaddr, m, rfl, ha, h1, ?_, fun e ↦ ?_, fun u v ↦ ?_, fun u v ↦ ?_, ?_,
        ?_, ?_⟩
      · rw [insertPge_threads]; exact h2
      · rw [insertPge_heap]
        simp only [setPge, h3, update_apply]
        rfl
      · rw [getPge_insertPge, getPge_setPge, getPge_setPge, h7, h7]
        rfl
      · rw [frameOf_insertPge, frameOf_setPge, h8]
        rfl
      · rw [insertPge_listLRU]; exact h4
      · rw [insertPge_userPool]; exact h5
      · rw [insertPge_swap]; exact h6

/-- **A new stack page keeps the tables consistent**, also when the process already has another
entry for that page. -/
theorem Grown.consistent (h : Grown s t upage pge kaddr s') (hc : s.Consistent)
    (ht : t ∈ s.threads) (hk : ∀ p ∈ s.listLRU, p.kaddr ≠ kaddr)
    (hused : s.userPool.bit kaddr = true) (hfresh : s.heap pge = none) : s'.Consistent := by
  have hnot : ∀ u w, s.getPge u w ≠ some pge := by
    intro u w hget
    obtain ⟨x, hx, -⟩ := hc.entry hget
    rw [hfresh] at hx
    exact absurd hx (by simp)
  have hne : ∀ p ∈ s.listLRU, p.pge ≠ pge := by
    rintro p hp rfl
    obtain ⟨x, hx, -⟩ := hc.lru hp
    rw [hfresh] at hx
    exact absurd hx (by simp)
  refine hc.add ⟨kaddr, pge, t⟩ (x := stackEntry upage) ht hk hne h.frame h.threads
    (by rw [h.heap, if_pos rfl]) rfl (fun e he ↦ by rw [h.heap, if_neg he]) hused h.userPool
    h.frameOf h.listLRU (fun u w e he ↦ ?_) (fun u w e he ↦ ?_) ?_
  · rw [h.getPge] at he
    split at he
    · rename_i hplace
      rw [some_inj] at he
      exact Or.inr ⟨hplace.1, hplace.2.1, he.symm⟩
    · exact Or.inl ⟨he, fun hep ↦ hnot u w (he.trans (congrArg some hep))⟩
  · rw [h.getPge, if_neg]
    · exact he
    · rintro ⟨rfl, rfl, hnone⟩
      rw [hnone] at he
      exact absurd he (by simp)
  · change ∃ e, s'.getPge t upage = some e
    rw [h.getPge]
    cases hget : s.getPge t upage with
    | none => exact ⟨pge, by simp⟩
    | some e => exact ⟨e, by simp⟩

/-- What an access of the processor leaves alone. -/
theorem access_spec {store : Option (Nat × UInt8)} (h : s.access t upage store = some s') :
    s'.threads = s.threads ∧ s'.heap = s.heap ∧ (∀ u v, s'.getPge u v = s.getPge u v) ∧
      (∀ u v, s'.frameOf u v = s.frameOf u v) ∧ s'.listLRU = s.listLRU ∧
      s'.userPool = s.userPool ∧ s'.swap = s.swap := by
  simp only [access, bind_eq_some] at h
  obtain ⟨pd, hpd, kaddr, -, _, -, h⟩ := h
  have hframe : ∀ u v, (s.setPagedir t (pd.access upage store.isSome)).frameOf u v =
      s.frameOf u v := by
    intro u v
    rw [frameOf_setPagedir]
    split
    · rename_i hu
      rw [PageDir.getPage_access, hu, frameOf, hpd]
      rfl
    · rfl
  cases store <;>
  · obtain rfl := some_inj.mp h
    exact ⟨rfl, rfl, fun u v ↦ getPge_setPagedir, hframe, rfl, rfl, rfl⟩

end Vm

end Pintos
