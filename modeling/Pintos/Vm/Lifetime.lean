import Pintos.Vm.Consistent

/-!
# A process from `load` to `process_exit`

The two ends of a process's life as far as its pages are concerned: `load` fills its supplemental
page table with unloaded entries, and `process_exit` takes the entries out one after the other and
gives back what each of them holds.  Both keep the tables consistent, and after an exit nothing of
the process is left in them.
-/

set_option autoImplicit false

namespace Pintos

open Function List Option

variable {order : List (Nat × Nat)}

namespace Vm

variable {s s' : Vm} {t u v w e f pge kaddr upage : Nat} {page : Page}

/-! ## Loading -/

/-- `init_thread`: a new thread, without a page directory and with an empty table. -/
def initThread (s : Vm) (t : Nat) : Vm :=
  { s with threads := t :: s.threads, procs := Function.update s.procs t ⟨none, ∅⟩ }

section

variable (hc : s.Consistent)

include hc

/-- A thread that is not there has no page. -/
theorem Consistent.frameOf_eq_none (ht : t ∉ s.threads) :
    s.frameOf t v = none := by
  refine eq_none_iff_forall_not_mem.mpr fun f hf ↦ ?_
  obtain ⟨⟨e, he⟩, -⟩ := hc.mapped hf
  exact ht (hc.thread he)

theorem Consistent.getPge_eq_none (ht : t ∉ s.threads) : s.getPge t v = none :=
  eq_none_iff_forall_not_mem.mpr fun _ he ↦ ht (hc.thread he)

theorem Consistent.getPge_initThread (ht : t ∉ s.threads) :
    ((s.initThread t).setPagedir t ∅).getPge u v = s.getPge u v := by
  rw [getPge_setPagedir]
  by_cases hu : u = t
  · subst hu
    rw [hc.getPge_eq_none ht]
    simp [initThread, getPge]
  · simp [initThread, getPge, hu]

/-- A new process can be added. -/
theorem Consistent.initThread (ht : t ∉ s.threads) :
    ((s.initThread t).setPagedir t ∅).Consistent := by
  refine hc.congr rfl (fun u v ↦ hc.getPge_initThread ht) (fun u v ↦ ?_) rfl rfl
    fun h ↦ mem_cons_of_mem _ (hc.thread h)
  rw [frameOf_setPagedir]
  split
  · rename_i hu
    rw [hu, hc.frameOf_eq_none ht]
    rfl
  · rename_i hu
    simp [Vm.initThread, frameOf, hu]

/-- A new entry on the heap that is not loaded keeps the tables consistent, whether or not
`insert_pge` finds its place taken. -/
theorem Consistent.insert {entry : PageEntry} (ht : t ∈ s.threads)
    (hfresh : s.heap pge = none) (hload : entry.isLoaded = false) :
    ((s.setPge pge (some entry)).insertPge t entry.vaddr pge).Consistent := by
  have hheap : ∀ e, e ≠ pge → (s.setPge pge (some entry)).heap e = s.heap e :=
    fun e he ↦ update_of_ne he _ _
  have hnot : ∀ {u w e}, s.getPge u w = some e → e ≠ pge := by
    rintro u w e hget rfl
    obtain ⟨x, hx, -⟩ := hc.entry hget
    rw [hfresh] at hx
    exact absurd hx (by simp)
  have hlru : ∀ {p}, p ∈ s.listLRU → p.pge ≠ pge := by
    rintro p hp rfl
    obtain ⟨x, hx, -⟩ := hc.lru hp
    rw [hfresh] at hx
    exact absurd hx (by simp)
  have hget : ∀ {u w e},
      ((s.setPge pge (some entry)).insertPge t entry.vaddr pge).getPge u w = some e →
      (s.getPge u w = some e ∧ e ≠ pge) ∨ (u = t ∧ w = entry.vaddr ∧ e = pge) := by
    intro u w e h
    rw [getPge_insertPge] at h
    split at h
    · rename_i hplace
      exact Or.inr ⟨hplace.1, hplace.2.1, (some_inj.mp h).symm⟩
    · exact Or.inl ⟨h, hnot h⟩
  refine ⟨?_, ?_, ?_, ?_, ?_, ?_, ?_, ?_, ?_, ?_⟩
  · intro u w e h
    rw [insertPge_threads]
    rcases hget h with ⟨h, -⟩ | ⟨rfl, -, -⟩
    · exact hc.thread h
    · exact ht
  · intro u w e h
    rw [insertPge_heap]
    rcases hget h with ⟨h, hne⟩ | ⟨-, rfl, rfl⟩
    · rw [hheap e hne]
      exact hc.entry h
    · exact ⟨entry, by simp [setPge], rfl⟩
  · intro u w e u' w' h h'
    rcases hget h with ⟨h, hne⟩ | ⟨rfl, rfl, rfl⟩ <;>
      rcases hget h' with ⟨h', hne'⟩ | ⟨rfl, rfl, h''⟩
    · exact hc.inj h h'
    · exact absurd h'' hne
    · exact absurd rfl hne'
    · exact ⟨rfl, rfl⟩
  · intro p hp
    rw [insertPge_listLRU] at hp
    obtain ⟨x, hx, hl, hf, hb⟩ := hc.lru hp
    refine ⟨x, ?_, hl, by rw [frameOf_insertPge]; exact hf, by rw [insertPge_userPool]; exact hb⟩
    rw [insertPge_heap, hheap _ (hlru hp)]
    exact hx
  · intro p q hp hq
    rw [insertPge_listLRU] at hp hq
    exact hc.kaddr hp hq
  · intro p q hp hq
    rw [insertPge_listLRU] at hp hq
    exact hc.pge hp hq
  · rw [insertPge_listLRU]
    exact hc.nodup
  · intro p u w hp h
    rw [insertPge_listLRU] at hp
    rcases hget h with ⟨h, -⟩ | ⟨-, -, hpge⟩
    · exact hc.own hp h
    · exact absurd hpge (hlru hp)
  · intro u w e x h hx hl
    rw [insertPge_heap] at hx
    rw [insertPge_listLRU]
    rcases hget h with ⟨h, hne⟩ | ⟨-, -, rfl⟩
    · rw [hheap e hne] at hx
      exact hc.resident h hx hl
    · rw [show (s.setPge e (some entry)).heap e = some entry from update_self ..,
        some_inj] at hx
      rw [← hx, hload] at hl
      exact absurd hl (by simp)
  · intro u w f h
    rw [frameOf_insertPge] at h
    obtain ⟨⟨e, he⟩, p, hp, ht', hk, x, hx, hv⟩ := hc.mapped (s := s) h
    refine ⟨⟨e, ?_⟩, p, by rw [insertPge_listLRU]; exact hp, ht', hk, x, ?_, hv⟩
    · rw [getPge_insertPge, if_neg]
      · exact he
      · rintro ⟨rfl, rfl, hnone⟩
        rw [getPge_setPge, he] at hnone
        exact absurd hnone (by simp)
    · rw [insertPge_heap, hheap _ (hlru hp)]
      exact hx

end

/-- The rule for the entries of an executable: what putting one unloaded page of a file into the
table preserves holds after all of them, wherever `malloc` has put them. -/
theorem loadPages_invariant {I : Vm → Prop}
    (hstep : ∀ {s : Vm} {pge x}, I s → s.Consistent → s.heap pge = none → x.Fresh →
      I ((s.setPge pge (some x)).insertPge t x.vaddr pge))
    {entries : List PageEntry} (hfresh : ∀ x ∈ entries, x.Fresh) {ptrs : List Nat}
    (hnodup : ptrs.Nodup) :
    ∀ {s : Vm}, s.Consistent → t ∈ s.threads → (∀ e ∈ ptrs, s.heap e = none) → I s →
      (s.loadPages t ptrs entries).Consistent ∧ I (s.loadPages t ptrs entries) ∧
        (s.loadPages t ptrs entries).threads = s.threads ∧
        ∀ e ∉ ptrs, (s.loadPages t ptrs entries).heap e = s.heap e := by
  induction entries generalizing ptrs with
  | nil => intro s hc _ _ hI; cases ptrs <;> exact ⟨hc, hI, rfl, fun _ _ ↦ rfl⟩
  | cons x entries ih =>
    intro s hc ht hptrs hI
    cases ptrs with
    | nil => exact ⟨hc, hI, rfl, fun _ _ ↦ rfl⟩
    | cons pge ptrs =>
      obtain ⟨hpge, hnodup⟩ := nodup_cons.mp hnodup
      have hfresh' := fun y hy ↦ hfresh y (mem_cons_of_mem _ hy)
      have hnone : s.heap pge = none := hptrs pge mem_cons_self
      have hx : x.Fresh := hfresh x mem_cons_self
      have hheap : ∀ e, e ≠ pge →
          ((s.setPge pge (some x)).insertPge t x.vaddr pge).heap e = s.heap e := by
        intro e hne
        rw [insertPge_heap]
        exact update_of_ne hne _ _
      obtain ⟨h1, h2, h3, h4⟩ := ih hfresh' hnodup (hc.insert ht hnone hx.2.1)
        (by rwa [insertPge_threads])
        (fun e he ↦ (hheap e fun h ↦ hpge (h ▸ he)).trans (hptrs e (mem_cons_of_mem _ he)))
        (hstep hI hc hnone hx)
      refine ⟨h1, h2, h3.trans insertPge_threads, fun e he ↦ ?_⟩
      rw [mem_cons, not_or] at he
      exact (h4 e he.2).trans (hheap e he.1)

/-! ## Exiting -/

/-- `s'` is `s` after thread `t` has destroyed its entry `e` for the page `v`. -/
structure Destroyed (s : Vm) (t v e : Nat) (s' : Vm) : Prop where
  threads : s'.threads = s.threads
  getPge : ∀ u w, s'.getPge u w = if u = t ∧ w = v then none else s.getPge u w
  heap : ∀ e', s'.heap e' = if e' = e then none else s.heap e'
  swap : ∃ entry, s.heap e = some entry ∧ s.swap.swapClear entry.swapSlot = some s'.swap

/-- `hash_clear` takes the entry for `v` out of the table of thread `t`. -/
def popPge (s : Vm) (t v : Nat) : Vm :=
  s.setProc t { s.procs t with spt := (s.procs t).spt.erase v }

theorem getPge_popPge : (s.popPge t v).getPge u w =
    if u = t ∧ w = v then none else s.getPge u w := by
  by_cases hu : u = t
  · by_cases hw : w = v
    · subst hu hw
      simp [popPge, getPge, setProc]
    · simp [popPge, getPge, setProc, hu, hw, AList.lookup_erase_ne hw]
  · simp [popPge, getPge, setProc, hu]

theorem frameOf_popPge : (s.popPge t v).frameOf u w = s.frameOf u w := by
  by_cases hu : u = t <;> simp [popPge, frameOf, setProc, hu]

/-- `find_page_from_list_LRU` finds the only page with that frame. -/
theorem Consistent.findPage (hc : s.Consistent) {p : Page} (hp : p ∈ s.listLRU)
    (hk : p.kaddr = kaddr) : s.findPageFromListLRU kaddr = some p := by
  cases h : s.findPageFromListLRU kaddr with
  | none =>
    rw [findPageFromListLRU, find?_eq_none] at h
    exact absurd (by simpa using hk) (h p hp)
  | some q =>
    have hq : q.kaddr = kaddr := by simpa using find?_some h
    rw [hc.kaddr (mem_of_find?_eq_some h) hp (hq.trans hk.symm)]

/-- Once the entry `e` has left its place, the entries that are still in a table are others. -/
theorem Consistent.ne_of_place (hc : s.Consistent) (hget : s.getPge t v = some e) {e' : Nat}
    (h : (if u = t ∧ w = v then none else s.getPge u w) = some e') :
    s.getPge u w = some e' ∧ e' ≠ e := by
  split at h
  · simp at h
  · rename_i hplace
    refine ⟨h, ?_⟩
    rintro rfl
    exact hplace (hc.inj h hget)

/-- Destroying the entry of a page that is not mapped only forgets the entry. -/
theorem Consistent.forget (hc : s.Consistent) (hget : s.getPge t v = some e)
    (hframe : s.frameOf t v = none) (hthreads : s'.threads = s.threads)
    (hget' : ∀ u w, s'.getPge u w = if u = t ∧ w = v then none else s.getPge u w)
    (hheap : ∀ e', s'.heap e' = if e' = e then none else s.heap e')
    (hframe' : ∀ u w, s'.frameOf u w = s.frameOf u w) (hlist : s'.listLRU = s.listLRU)
    (hpool : s'.userPool = s.userPool) : s'.Consistent := by
  obtain ⟨x, hx, rfl⟩ := hc.entry hget
  have hlru : ∀ {p}, p ∈ s.listLRU → p.pge ≠ e := by
    rintro p hp rfl
    obtain ⟨y, hy, -, hfr, -⟩ := hc.lru hp
    obtain rfl : y = x := some_inj.mp (hy.symm.trans hx)
    rw [← hc.own hp hget, hframe] at hfr
    exact absurd hfr (by simp)
  have hold : ∀ {u w e'}, s'.getPge u w = some e' → s.getPge u w = some e' ∧ e' ≠ e := by
    intro u w e' h
    rw [hget'] at h
    exact hc.ne_of_place hget h
  refine ⟨?_, ?_, ?_, ?_, ?_, ?_, hlist ▸ hc.nodup, ?_, ?_, ?_⟩
  · intro u w e' h
    exact hthreads ▸ hc.thread (hold h).1
  · intro u w e' h
    rw [hheap, if_neg (hold h).2]
    exact hc.entry (hold h).1
  · intro u w e' u' w' h h'
    exact hc.inj (hold h).1 (hold h').1
  · intro p hp
    rw [hlist] at hp
    obtain ⟨y, hy, hl, hfr, hb⟩ := hc.lru hp
    refine ⟨y, ?_, hl, (hframe' _ _).trans hfr, hpool ▸ hb⟩
    rw [hheap, if_neg (hlru hp)]
    exact hy
  · intro p q hp hq
    rw [hlist] at hp hq
    exact hc.kaddr hp hq
  · intro p q hp hq
    rw [hlist] at hp hq
    exact hc.pge hp hq
  · intro p u w hp h
    rw [hlist] at hp
    exact hc.own hp (hold h).1
  · intro u w e' y h hy hl
    rw [hheap, if_neg (hold h).2] at hy
    exact hlist ▸ hc.resident (hold h).1 hy hl
  · intro u w f h
    rw [hframe'] at h
    obtain ⟨⟨e', he'⟩, p, hp, ht, hk, y, hy, hv⟩ := hc.mapped h
    refine ⟨⟨e', ?_⟩, p, hlist ▸ hp, ht, hk, y, ?_, hv⟩
    · rw [hget', if_neg]
      · exact he'
      · rintro ⟨rfl, rfl⟩
        rw [hframe] at h
        exact absurd h (by simp)
    · rw [hheap, if_neg (hlru hp)]
      exact hy

/-- **Destroying an entry of the process frees exactly the page that is mapped at its address**,
and keeps the tables consistent. -/
theorem sptDestroyFunc_spec (hc : s.Consistent) (hget : s.getPge t v = some e)
    (h : (s.popPge t v).sptDestroyFunc t e = some s') : Destroyed s t v e s' ∧ s'.Consistent := by
  simp only [sptDestroyFunc, freePageVaddr, bind_eq_some, pure_eq_some] at h
  obtain ⟨entry, hentry, swap, hswap, m, ⟨pd, hpd, hfree⟩, rfl⟩ := h
  obtain ⟨x, hx, rfl⟩ := hc.entry hget
  obtain rfl : x = entry := some_inj.mp (hx.symm.trans hentry)
  have hframe : pd.getPage x.vaddr = s.frameOf t x.vaddr := by
    rw [← frameOf_popPge (t := t) (v := x.vaddr)]
    exact (congrArg (fun o ↦ o.bind fun pd : PageDir ↦ pd.getPage x.vaddr) hpd).symm
  rw [hframe] at hfree
  cases hf : s.frameOf t x.vaddr with
  | none =>
    -- The page is not in memory: nothing is freed.
    rw [hf] at hfree
    obtain rfl : _ = m := some_inj.mp hfree
    have hD : Destroyed s t x.vaddr e (setPge { s.popPge t x.vaddr with swap } e none) :=
      ⟨rfl, fun u w ↦ getPge_popPge,
        fun e' ↦ by simp [setPge, update_apply, popPge, setProc], x, hx, hswap⟩
    exact ⟨hD, hc.forget hget hf hD.threads hD.getPge hD.heap (fun _ _ ↦ frameOf_popPge) rfl rfl⟩
  | some f =>
    obtain ⟨-, p, hp, hpt, hpk, y, hy, hyv⟩ := hc.mapped hf
    rw [hf] at hfree
    have hfree : freePage { s.popPge t x.vaddr with swap } p = some m := by
      have hfind : (some f).bind (findPageFromListLRU { s.popPge t x.vaddr with swap }) = some p :=
        hc.findPage hp hpk
      rwa [freePageKaddr, hfind] at hfree
    obtain ⟨z, hz, hF⟩ := freePage_spec hfree
    obtain rfl : y = z := some_inj.mp (hy.symm.trans hz)
    have hget' : ∀ u w, m.getPge u w = if u = t ∧ w = x.vaddr then none else s.getPge u w :=
      fun u w ↦ (hF.getPge u w).trans getPge_popPge
    have hheap' : ∀ e', (m.setPge e none).heap e' = if e' = e then none else s.heap e' := by
      intro e'
      simp only [setPge, hF.heap, update_apply]
      rfl
    refine ⟨⟨hF.threads, hget', hheap', x, hx, hF.swap ▸ hswap⟩, ?_⟩
    refine hc.erase hp hy (fun u w e' h ↦ ?_) (fun u w e' h hplace ↦ ?_) (fun u w ↦ ?_) hF.listLRU
      hF.bit (fun u w e' h ↦ ?_) (fun q hq hqp ↦ ?_)
    · rw [getPge_setPge, hget'] at h
      obtain ⟨hold, -⟩ := hc.ne_of_place hget h
      exact ⟨hold, hF.threads ▸ hc.thread hold⟩
    · rw [getPge_setPge, hget', if_neg]
      · exact h
      · rwa [← hpt, ← hyv]
    · rw [frameOf_setPge, hF.frameOf, show Vm.frameOf { s.popPge t x.vaddr with swap } u w =
        s.frameOf u w from frameOf_popPge]
    · rw [getPge_setPge, hget'] at h
      obtain ⟨hold, hee⟩ := hc.ne_of_place hget h
      obtain ⟨z, hz, hzv⟩ := hc.entry hold
      refine ⟨z, by rw [hheap', if_neg hee]; exact hz, hzv, fun _ ↦ ⟨?_, hz⟩⟩
      rintro rfl
      obtain rfl : z = y := some_inj.mp (hz.symm.trans hy)
      rw [if_pos ⟨(hc.own hp hold).trans hpt, hzv.symm.trans hyv⟩] at h
      simp at h
    · rw [hheap', if_neg]
      rintro rfl
      exact hqp (hc.eq_of_place hq hp hx hy ((hc.own hq hget).symm.trans hpt.symm) hyv.symm)

/-- `order` lists the entries of `sup_page_tab` of thread `t`, each once. -/
structure Lists (s : Vm) (t : Nat) (order : List (Nat × Nat)) : Prop where
  nodup : (order.map Prod.fst).Nodup
  mem : ∀ {v e}, (v, e) ∈ order ↔ s.getPge t v = some e

/-- The tail of the list is the list of what is left. -/
theorem Lists.tail (h : s.Lists t ((v, e) :: order))
    (hget : ∀ w, s'.getPge t w = if w = v then none else s.getPge t w) : s'.Lists t order := by
  obtain ⟨hv, hnodup⟩ := nodup_cons.mp (map_cons ▸ h.nodup)
  refine ⟨hnodup, fun {w e'} ↦ ?_⟩
  rw [hget]
  by_cases hw : w = v
  · subst hw
    simp only [if_pos, reduceCtorEq, iff_false]
    exact fun hmem ↦ hv (mem_map.mpr ⟨_, hmem, rfl⟩)
  · rw [if_neg hw, ← h.mem, mem_cons, Prod.mk.injEq]
    simp [hw]

/-- The rule for `spt_destroy`: what destroying one entry preserves holds after the loop, and then
the table of the process is empty. -/
theorem sptDestroy_invariant {I : Vm → Prop}
    (hstep : ∀ {s s' : Vm} {v e}, I s → s.Consistent → s.getPge t v = some e →
      Destroyed s t v e s' → I s') :
    ∀ {s : Vm}, s.Consistent → s.Lists t order → I s → s.sptDestroy t order = some s' →
      s'.Consistent ∧ I s' ∧ s'.threads = s.threads ∧ ∀ v, s'.getPge t v = none := by
  induction order with
  | nil =>
    intro s hc hl hI h
    obtain rfl : s = s' := some_inj.mp h
    refine ⟨hc, hI, rfl, fun v ↦ eq_none_iff_forall_not_mem.mpr fun e he ↦ ?_⟩
    exact absurd (hl.mem.mpr he) not_mem_nil
  | cons place order ih =>
    intro s hc hl hI h
    obtain ⟨v, e⟩ := place
    have hget : s.getPge t v = some e := hl.mem.mp mem_cons_self
    rw [sptDestroy, bind_eq_some] at h
    obtain ⟨m, hm, h⟩ := h
    obtain ⟨hD, hcm⟩ := sptDestroyFunc_spec hc hget hm
    have hlm : m.Lists t order := hl.tail fun w ↦ by rw [hD.getPge]; simp
    obtain ⟨hc', hI', hthreads, hnone⟩ := ih hcm hlm (hstep hI hc hget hD) h
    exact ⟨hc', hI', hthreads.trans hD.threads, hnone⟩

/-- Once no page of a directory is present, `pagedir_destroy` gives no frame back. -/
theorem pagedirDestroy_of_absent {ptes : List Pte} (h : ∀ pte ∈ ptes, pte.present = false) :
    s.pagedirDestroy ptes = some s := by
  induction ptes with
  | nil => rfl
  | cons pte ptes ih =>
    rw [pagedirDestroy, h pte mem_cons_self]
    exact ih fun q hq ↦ h q (mem_cons_of_mem _ hq)

/-- **After `spt_destroy` nothing is left for `pagedir_destroy` to free.** -/
theorem processExit_spec (h : s.processExit t order = some s')
    (hc : ∀ {m}, s.sptDestroy t order = some m → m.Consistent ∧ ∀ v, m.getPge t v = none) :
    ∃ m, s.sptDestroy t order = some m ∧ s' = m.setProc t { m.procs t with pagedir := none } := by
  rw [processExit, bind_eq_some] at h
  obtain ⟨m, hm, h⟩ := h
  obtain ⟨hcm, hnone⟩ := hc hm
  refine ⟨m, hm, ?_⟩
  split at h
  · rename_i hpd
    rw [Option.pure_def, some_inj] at h
    rw [← h, ← hpd, setProc, update_eq_self]
  · rename_i pd hpd
    rw [pagedirDestroy_of_absent, some_inj] at h
    · exact h.symm
    · intro pte hpte
      obtain ⟨⟨v, pte'⟩, hmem, rfl⟩ := mem_map.mp hpte
      by_contra hpresent
      have hlook : pd.lookup v = some pte' := AList.mem_lookup_iff.mpr hmem
      have hframe : m.frameOf t v = some pte'.kpage := by
        simp_all [frameOf, PageDir.getPage]
      obtain ⟨⟨e, he⟩, -⟩ := hcm.mapped hframe
      rw [hnone] at he
      exact absurd he (by simp)

/-- A process that has no entries left can go. -/
theorem Consistent.remove (hc : s.Consistent) (hnone : ∀ v, s.getPge t v = none) :
    Consistent { s.setProc t { s.procs t with pagedir := none } with
      threads := s.threads.erase t } := by
  set s' : Vm := { s.setProc t { s.procs t with pagedir := none } with
    threads := s.threads.erase t }
  have hframe : ∀ u w, s'.frameOf u w = s.frameOf u w := by
    intro u w
    by_cases hu : u = t
    · subst hu
      refine Eq.trans (b := none) (by simp [s', frameOf, setProc]) ?_
      refine (eq_none_iff_forall_not_mem.mpr fun f hf ↦ ?_).symm
      obtain ⟨⟨e, he⟩, -⟩ := hc.mapped hf
      rw [hnone] at he
      exact absurd he (by simp)
    · simp [s', frameOf, setProc, hu]
  have hget : ∀ u w, s'.getPge u w = s.getPge u w := by
    intro u w
    by_cases hu : u = t <;> simp [s', getPge, setProc, hu]
  refine hc.congr rfl hget hframe rfl rfl fun {u w e} h ↦ ?_
  refine (mem_erase_of_ne ?_).mpr (hc.thread h)
  rintro rfl
  rw [hnone] at h
  exact absurd h (by simp)

end Vm

end Pintos
