import Pintos.Vm.Interleaved

/-!
# The life of a user page

What `Pintos.Vm.Interleaved` does to `sup_page_tab`, the page directories, `list_LRU`, the page
entries and the user pool is, for each page of each process, a walk through the states of `Life`:

* a stack page is `fresh`, `taken`, `listed`, `stacked`, `filled` and then `resident`;
* a page of the program is `unloaded`, and a fault makes it `loading`, `paged`, `installed`, `ready`
  and then `resident`;
* a page that is evicted is `evicting` and then `unloaded`;
* an exit makes a page `popped`, `leaving`, `dropped` and then `absent`.

`Tables` says that the five tables show exactly these states, and `Places` that a page which is not
`Settled` is the one that its process is working on.
-/

set_option autoImplicit false

namespace Pintos

open Function List Option

variable {e f u : Nat} {vict : Page} {x : PageEntry}

namespace Vm

/-- The states of a page that has an entry and no frame. -/
inductive Unframed where
  /-- The block for the entry of a stack page has been allocated. -/
  | fresh
  | unloaded
  /-- `hash_clear` has taken the entry out of the table. -/
  | popped
  /-- `swap_clear` has returned. -/
  | leaving
  /-- `free_page_vaddr` has returned. -/
  | dropped
  deriving DecidableEq, Repr

/-- The states of a page that has a frame. -/
inductive Framed where
  /-- The frame is there for a stack page. -/
  | taken
  /-- The stack page is on `list_LRU`. -/
  | listed
  /-- The stack page is mapped. -/
  | stacked
  /-- The entry of the stack page has been written. -/
  | filled
  /-- The frame is there for a page that is not loaded. -/
  | loading
  /-- It has been read from the file or from swap. -/
  | paged
  /-- It is mapped. -/
  | installed
  /-- `is_loaded` is set. -/
  | ready
  | resident
  /-- It is the victim of `replacement_mem`, after the `switch`. -/
  | evicting
  /-- `hash_clear` has taken the entry out of the table. -/
  | popped
  /-- `swap_clear` has returned. -/
  | leaving
  deriving DecidableEq, Repr

/-- The state of a page, with the address of its entry and its frame. -/
inductive Life where
  | absent
  | unframed (st : Unframed) (pge : Nat)
  | framed (st : Framed) (pge kaddr : Nat)
  deriving DecidableEq, Repr

/-- The entry is in `sup_page_tab`. -/
def Unframed.inTable : Unframed → Bool
  | .unloaded => true
  | _ => false

def Framed.inTable : Framed → Bool
  | .loading | .paged | .installed | .ready | .resident | .evicting => true
  | _ => false

/-- The page is mapped. -/
def Framed.isMapped : Framed → Bool
  | .stacked | .filled | .installed | .ready | .resident | .evicting | .popped | .leaving => true
  | _ => false

/-- The page is on `list_LRU`. -/
def Framed.isListed : Framed → Bool
  | .listed | .stacked | .filled | .resident | .evicting | .popped | .leaving => true
  | _ => false

/-- The entry has been written. -/
def Unframed.isSet : Unframed → Bool
  | .fresh | .dropped => false
  | _ => true

def Framed.isSet : Framed → Bool
  | .taken | .listed | .stacked => false
  | _ => true

/-- `is_loaded`, of an entry that has been written. -/
def Framed.isLoaded : Framed → Bool
  | .filled | .ready | .resident | .evicting | .popped | .leaving => true
  | _ => false

namespace Life

/-- The entry that `sup_page_tab` has for the page. -/
def table : Life → Option Nat
  | absent => none
  | unframed st pge => if st.inTable then some pge else none
  | framed st pge _ => if st.inTable then some pge else none

/-- The frame that the page is mapped to. -/
def mapping : Life → Option Nat
  | framed st _ kaddr => if st.isMapped then some kaddr else none
  | _ => none

/-- The `struct page` on `list_LRU`: its entry and its frame. -/
def onList : Life → Option (Nat × Nat)
  | framed st pge kaddr => if st.isListed then some (pge, kaddr) else none
  | _ => none

/-- The block that the page has for its entry. -/
def entry : Life → Option Nat
  | absent => none
  | unframed _ pge => some pge
  | framed _ pge _ => some pge

/-- The frame that the page has. -/
def frame : Life → Option Nat
  | framed _ _ kaddr => some kaddr
  | _ => none

/-- What the entry of the page `v` says. -/
def Describes (v : Nat) (pge : PageEntry) : Life → Prop
  | absent => True
  | unframed st _ => st.isSet → pge.vaddr = v ∧ pge.isLoaded = false
  | framed st _ _ => st.isSet → pge.vaddr = v ∧ pge.isLoaded = st.isLoaded

/-- Nobody but an evictor is working on the page. -/
def Settled : Life → Prop
  | absent => True
  | unframed st _ => st = .unloaded
  | framed st _ _ => st = .resident ∨ st = .evicting

theorem entry_of_table {l : Life} (h : l.table = some e) : l.entry = some e := by
  cases l with
  | absent => exact h
  | unframed st pge =>
    rw [table] at h
    split at h
    · exact h
    · cases h
  | framed st pge kaddr =>
    rw [table] at h
    split at h
    · exact h
    · cases h

theorem entry_of_onList {l : Life} (h : l.onList = some (e, f)) :
    ∃ st, l = .framed st e f ∧ st.isListed = true := by
  cases l with
  | absent => cases h
  | unframed st pge => cases h
  | framed st pge kaddr =>
    rw [onList] at h
    split at h
    · next hst =>
      cases h
      exact ⟨st, rfl, hst⟩
    · cases h

end Life

/-- The states of all pages, by thread and user page. -/
abbrev Lives := Nat → Nat → Life

/-- The page `v` of thread `t` has a new state. -/
def Lives.set (A : Lives) (t v : Nat) (life : Life) : Lives :=
  fun u x ↦ if u = t ∧ x = v then life else A u x

theorem Lives.set_self (A : Lives) (t v : Nat) (life : Life) : A.set t v life t v = life :=
  if_pos ⟨rfl, rfl⟩

theorem Lives.set_of_ne {A : Lives} {t v x : Nat} {life : Life} (h : ¬ (u = t ∧ x = v)) :
    A.set t v life u x = A u x :=
  if_neg h

/-- What no two pages had in common they do not have in common now, if the page gets what no other
one has. -/
theorem Lives.set_inj {A : Lives} {t v : Nat} {life : Life} {g : Life → Option Nat}
    (h : ∀ {t v u x e}, g (A t v) = some e → g (A u x) = some e → t = u ∧ v = x)
    (hnew : ∀ {u x e}, ¬ (u = t ∧ x = v) → g (A u x) = some e → g life ≠ some e)
    {x u' x' : Nat} (he : g (A.set t v life u x) = some e)
    (he' : g (A.set t v life u' x') = some e) : u = u' ∧ x = x' := by
  by_cases hat : u = t ∧ x = v <;> by_cases hat' : u' = t ∧ x' = v
  · exact ⟨hat.1.trans hat'.1.symm, hat.2.trans hat'.2.symm⟩
  · rw [Lives.set, if_pos hat] at he
    rw [Lives.set_of_ne hat'] at he'
    exact absurd he (hnew hat' he')
  · rw [Lives.set_of_ne hat] at he
    rw [Lives.set, if_pos hat'] at he'
    exact absurd he' (hnew hat he)
  · rw [Lives.set_of_ne hat] at he
    rw [Lives.set_of_ne hat'] at he'
    exact h he he'

/-- The tables show the states. -/
structure Tables (s : Vm) (A : Lives) : Prop where
  table : ∀ t v, s.getPge t v = (A t v).table
  mapping : ∀ t v, s.frameOf t v = (A t v).mapping
  onList : ∀ p, p ∈ s.listLRU ↔ ∃ v, (A p.thread v).onList = some (p.pge, p.kaddr)
  nodup : s.listLRU.Nodup
  heap : ∀ {t v e}, (A t v).entry = some e → ∃ pge, s.heap e = some pge ∧ (A t v).Describes v pge
  pool : ∀ {t v f}, (A t v).frame = some f → s.userPool.bit f = true
  /-- No two pages share an entry. -/
  entry_inj : ∀ {t v u x e}, (A t v).entry = some e → (A u x).entry = some e → t = u ∧ v = x
  /-- No two pages share a frame. -/
  frame_inj : ∀ {t v u x f}, (A t v).frame = some f → (A u x).frame = some f → t = u ∧ v = x

namespace Tables

variable {s s' : Vm} {A : Lives} {t v : Nat} {old new : Life}

/-- One page goes on to a new state.  Other pages keep their entries and frames, and what is new is
taken from what nobody had. -/
theorem set (h : Tables s A)
    (htable : ∀ u x, s'.getPge u x = if u = t ∧ x = v then new.table else s.getPge u x)
    (hmapping : ∀ u x, s'.frameOf u x = if u = t ∧ x = v then new.mapping else s.frameOf u x)
    (honList : ∀ p, p ∈ s'.listLRU ↔ p.thread = t ∧ new.onList = some (p.pge, p.kaddr) ∨
      p ∈ s.listLRU ∧ ¬ (p.thread = t ∧ (A t v).onList = some (p.pge, p.kaddr)))
    (hnodup : s'.listLRU.Nodup)
    (hheap : ∀ e, (A t v).entry ≠ some e → s.heap e ≠ none → s'.heap e = s.heap e)
    (hentry : ∀ e, new.entry = some e → ((A t v).entry = some e ∨ s.heap e = none) ∧
      ∃ pge, s'.heap e = some pge ∧ new.Describes v pge)
    (hpool : ∀ f, (A t v).frame ≠ some f → s.userPool.bit f = true → s'.userPool.bit f = true)
    (hframe : ∀ f, new.frame = some f → ((A t v).frame = some f ∨ s.userPool.bit f = false) ∧
      s'.userPool.bit f = true) : Tables s' (A.set t v new) := by
  -- What another page has is not what the page gets.
  have hentry' : ∀ {u x e}, ¬ (u = t ∧ x = v) → (A u x).entry = some e →
      new.entry ≠ some e ∧ (A t v).entry ≠ some e := by
    intro u x e hne he
    have hold : (A t v).entry ≠ some e := fun he' ↦ hne (h.entry_inj he he')
    refine ⟨fun hnew ↦ ?_, hold⟩
    rcases (hentry e hnew).1 with he' | hnone
    · exact hold he'
    · obtain ⟨pge, hpge, -⟩ := h.heap he
      cases hnone.symm.trans hpge
  have hframe' : ∀ {u x f}, ¬ (u = t ∧ x = v) → (A u x).frame = some f →
      new.frame ≠ some f ∧ (A t v).frame ≠ some f := by
    intro u x f hne hf
    have hold : (A t v).frame ≠ some f := fun hf' ↦ hne (h.frame_inj hf hf')
    refine ⟨fun hnew ↦ ?_, hold⟩
    rcases (hframe f hnew).1 with hf' | hfree
    · exact hold hf'
    · cases hfree.symm.trans (h.pool hf)
  refine ⟨fun u x ↦ ?_, fun u x ↦ ?_, fun p ↦ ?_, hnodup, fun {u x e} he ↦ ?_, fun {u x f} hf ↦ ?_,
    fun {u x u' x' e} he he' ↦ ?_, fun {u x u' x' f} hf hf' ↦ ?_⟩
  · rw [htable, Lives.set, h.table]
    split <;> rfl
  · rw [hmapping, Lives.set, h.mapping]
    split <;> rfl
  · rw [honList, h.onList]
    constructor
    · rintro (⟨rfl, hnew⟩ | ⟨⟨x, hx⟩, hno⟩)
      · exact ⟨v, by rwa [Lives.set_self]⟩
      · refine ⟨x, ?_⟩
        rwa [Lives.set_of_ne]
        rintro ⟨ht, rfl⟩
        rw [ht] at hx
        exact hno ⟨ht, hx⟩
    · rintro ⟨x, hx⟩
      by_cases hat : p.thread = t ∧ x = v
      · rw [Lives.set, if_pos hat] at hx
        exact .inl ⟨hat.1, hx⟩
      · rw [Lives.set_of_ne hat] at hx
        refine .inr ⟨⟨x, hx⟩, ?_⟩
        rintro ⟨ht, hold⟩
        obtain ⟨st, hst, -⟩ := Life.entry_of_onList hx
        obtain ⟨st', hst', -⟩ := Life.entry_of_onList hold
        exact hat (h.frame_inj (f := p.kaddr) (by rw [hst]; rfl) (by rw [hst']; rfl))
  · by_cases hat : u = t ∧ x = v
    · obtain ⟨rfl, rfl⟩ := hat
      rw [Lives.set_self] at he ⊢
      exact (hentry e he).2
    · rw [Lives.set_of_ne hat] at he ⊢
      obtain ⟨pge, hpge, hd⟩ := h.heap he
      exact ⟨pge, (hheap e (hentry' hat he).2 (by rw [hpge]; nofun)).trans hpge, hd⟩
  · by_cases hat : u = t ∧ x = v
    · obtain ⟨rfl, rfl⟩ := hat
      rw [Lives.set_self] at hf
      exact (hframe f hf).2
    · rw [Lives.set_of_ne hat] at hf
      exact hpool f (hframe' hat hf).2 (h.pool hf)
  · exact Lives.set_inj (g := Life.entry) h.entry_inj (fun hat he ↦ (hentry' hat he).1) he he'
  · exact Lives.set_inj (g := Life.frame) h.frame_inj (fun hat hf ↦ (hframe' hat hf).1) hf hf'

/-- What does not concern the tables. -/
theorem congr (h : Tables s A) (htable : ∀ u x, s'.getPge u x = s.getPge u x)
    (hmapping : ∀ u x, s'.frameOf u x = s.frameOf u x) (honList : s'.listLRU = s.listLRU)
    (hheap : ∀ e pge, s.heap e = some pge → ∃ pge', s'.heap e = some pge' ∧
      pge'.vaddr = pge.vaddr ∧ pge'.isLoaded = pge.isLoaded)
    (hpool : ∀ f, s.userPool.bit f = true → s'.userPool.bit f = true) : Tables s' A := by
  refine ⟨fun u x ↦ (htable u x).trans (h.table u x),
    fun u x ↦ (hmapping u x).trans (h.mapping u x), fun p ↦ honList ▸ h.onList p,
    honList ▸ h.nodup, fun {u x e} he ↦ ?_, fun hf ↦ hpool _ (h.pool hf), h.entry_inj, h.frame_inj⟩
  obtain ⟨pge, hpge, hd⟩ := h.heap he
  obtain ⟨pge', hpge', hvaddr, hloaded⟩ := hheap e pge hpge
  refine ⟨pge', hpge', ?_⟩
  cases hl : A u x with
  | absent => trivial
  | unframed st _ =>
    rw [hl] at hd
    exact fun hset ↦ ⟨hvaddr.trans (hd hset).1, hloaded.trans (hd hset).2⟩
  | framed st _ _ =>
    rw [hl] at hd
    exact fun hset ↦ ⟨hvaddr.trans (hd hset).1, hloaded.trans (hd hset).2⟩

/-- A step that changes the swap area or a frame. -/
theorem same (h : Tables s A) (hprocs : s'.procs = s.procs) (hlist : s'.listLRU = s.listLRU)
    (hheap : s'.heap = s.heap) (hpool : s'.userPool = s.userPool) : Tables s' A :=
  h.congr (fun u x ↦ by rw [getPge, hprocs, getPge]) (fun u x ↦ by rw [frameOf, hprocs, frameOf])
    hlist (fun _ x hx ↦ ⟨x, hheap ▸ hx, rfl, rfl⟩) fun _ hf ↦ hpool ▸ hf

section

/-! ### What a step leaves alone -/

theorem table_same (h : Tables s A) (hnew : new.table = (A t v).table) (u x : Nat) :
    s.getPge u x = if u = t ∧ x = v then new.table else s.getPge u x := by
  split
  · next hat => rw [hat.1, hat.2, h.table, hnew]
  · rfl

theorem mapping_same (h : Tables s A) (hnew : new.mapping = (A t v).mapping) (u x : Nat) :
    s.frameOf u x = if u = t ∧ x = v then new.mapping else s.frameOf u x := by
  split
  · next hat => rw [hat.1, hat.2, h.mapping, hnew]
  · rfl

theorem onList_same (h : Tables s A) (hnew : new.onList = (A t v).onList) (p : Page) :
    p ∈ s.listLRU ↔ p.thread = t ∧ new.onList = some (p.pge, p.kaddr) ∨
      p ∈ s.listLRU ∧ ¬ (p.thread = t ∧ (A t v).onList = some (p.pge, p.kaddr)) := by
  rw [hnew]
  constructor
  · intro hp
    by_cases hat : p.thread = t ∧ (A t v).onList = some (p.pge, p.kaddr)
    · exact .inl hat
    · exact .inr ⟨hp, hat⟩
  · rintro (⟨ht, hl⟩ | ⟨hp, -⟩)
    · exact (h.onList p).mpr ⟨v, ht ▸ hl⟩
    · exact hp

theorem frame_same (h : Tables s A) (hnew : new.frame = (A t v).frame) (f : Nat)
    (hf : new.frame = some f) :
    ((A t v).frame = some f ∨ s.userPool.bit f = false) ∧ s.userPool.bit f = true :=
  ⟨.inl (hnew ▸ hf), h.pool (hnew ▸ hf)⟩

end

section

variable (h : Tables s A)

include h

/-- What the entry of a page says. -/
theorem describes {pge : PageEntry} (hv : A t v = old)
    (he : old.entry = some e) (hpge : s.heap e = some pge) : old.Describes v pge := by
  subst hv
  obtain ⟨pge', hpge', hd⟩ := h.heap he
  cases hpge.symm.trans hpge'
  exact hd

/-! ### The steps of a page -/

/-- Nothing that the tables show has changed. -/
theorem relabel (hv : A t v = old) (htable : new.table = old.table)
    (hmapping : new.mapping = old.mapping) (honList : new.onList = old.onList)
    (hentry : new.entry = old.entry) (hframe : new.frame = old.frame)
    (hdescribes : ∀ pge, old.Describes v pge → new.Describes v pge) : Tables s (A.set t v new) := by
  subst hv
  refine h.set (h.table_same htable) (h.mapping_same hmapping) (h.onList_same honList) h.nodup
    (fun _ _ _ ↦ rfl) (fun e he ↦ ⟨.inl (hentry ▸ he), ?_⟩) (fun _ _ hf ↦ hf) (h.frame_same hframe)
  obtain ⟨pge, hpge, hd⟩ := h.heap (hentry ▸ he)
  exact ⟨pge, hpge, hdescribes pge hd⟩

/-- The entry of the page is written. -/
theorem write (hv : A t v = old) (he : old.entry = some e) (htable : new.table = old.table)
    (hmapping : new.mapping = old.mapping) (honList : new.onList = old.onList)
    (hentry : new.entry = old.entry) (hframe : new.frame = old.frame)
    (hdescribes : new.Describes v x) : Tables (s.setPge e (some x)) (A.set t v new) := by
  subst hv
  refine h.set (h.table_same htable) (h.mapping_same hmapping) (h.onList_same honList) h.nodup
    (fun e' hne _ ↦ update_of_ne ?_ _ _) (fun e' he' ↦ ⟨.inl (hentry ▸ he'), x, ?_,
    hdescribes⟩) (fun _ _ hf ↦ hf) (h.frame_same hframe)
  · rintro rfl
    exact hne he
  · rw [hentry, he, some_inj] at he'
    exact he' ▸ update_self ..

/-- `malloc` of a page entry. -/
theorem malloc (hv : A t v = .absent)
    (he : s.heap e = none) : Tables (s.setPge e (some x)) (A.set t v (.unframed .fresh e)) := by
  refine h.set (h.table_same (hv ▸ rfl)) (h.mapping_same (hv ▸ rfl)) (h.onList_same (hv ▸ rfl))
    h.nodup (fun e' _ hne ↦ update_of_ne ?_ _ _) (fun e' he' ↦ ?_) (fun _ _ hf ↦ hf) nofun
  · rintro rfl
    exact hne he
  · cases he'
    exact ⟨.inr he, x, update_self .., nofun⟩

/-- The page has nothing but a block, and gives it up. -/
theorem release {st : Unframed} (hv : A t v = .unframed st e)
    (hst : st.inTable = false) (htable : ∀ u x, s'.getPge u x = s.getPge u x)
    (hmapping : ∀ u x, s'.frameOf u x = s.frameOf u x) (honList : s'.listLRU = s.listLRU)
    (hheap : ∀ e', e' ≠ e → s'.heap e' = s.heap e') (hpool : s'.userPool = s.userPool) :
    Tables s' (A.set t v .absent) := by
  refine h.set (fun u x ↦ (htable u x).trans (h.table_same ?_ u x))
    (fun u x ↦ (hmapping u x).trans (h.mapping_same (hv ▸ rfl) u x)) (fun p ↦ ?_)
    (honList ▸ h.nodup) (fun e' hne _ ↦ hheap e' ?_) nofun (fun _ _ hf ↦ hpool ▸ hf) nofun
  · rw [hv]
    simp [Life.table, hst]
  · rw [honList]
    exact h.onList_same (hv ▸ rfl) p
  · rintro rfl
    exact hne (hv ▸ rfl)

/-- `insert_pge`, of an entry that the page has or has not had before. -/
theorem insert (hv : A t v = old) (hnone : old.table = none)
    (htable : new.table = some e) (hmapping : new.mapping = old.mapping)
    (honList : new.onList = old.onList) (hframe : new.frame = old.frame)
    (hheap : ∀ e', old.entry ≠ some e' → s.heap e' ≠ none → s'.heap e' = s.heap e')
    (hentry : ∀ e', new.entry = some e' → (old.entry = some e' ∨ s.heap e' = none) ∧
      ∃ pge, s'.heap e' = some pge ∧ new.Describes v pge)
    (hprocs : s'.procs = s.procs) (hlist : s'.listLRU = s.listLRU)
    (hpool : s'.userPool = s.userPool) : Tables (s'.insertPge t v e) (A.set t v new) := by
  subst hv
  have hget : ∀ u x, s'.getPge u x = s.getPge u x := fun u x ↦ by rw [getPge, hprocs, getPge]
  have hfr : ∀ u x, s'.frameOf u x = s.frameOf u x := fun u x ↦ by rw [frameOf, hprocs, frameOf]
  refine h.set (fun u x ↦ ?_) (fun u x ↦ ?_) (fun p ↦ ?_) ?_ (fun e' hne hsome ↦ ?_)
    (fun e' he' ↦ ?_) (fun f _ hf ↦ ?_) (fun f hf ↦ ?_)
  · rw [getPge_insertPge, hget, hget, htable]
    split
    · next hat => rw [if_pos ⟨hat.1, hat.2.1⟩]
    · next hat =>
      rw [if_neg]
      rintro ⟨rfl, rfl⟩
      exact hat ⟨rfl, rfl, (h.table _ _).trans hnone⟩
  · rw [frameOf_insertPge, hfr]
    exact h.mapping_same hmapping u x
  · rw [insertPge_listLRU, hlist]
    exact h.onList_same honList p
  · rw [insertPge_listLRU, hlist]
    exact h.nodup
  · rw [insertPge_heap]
    exact hheap e' hne hsome
  · rw [insertPge_heap]
    exact hentry e' he'
  · rw [insertPge_userPool, hpool]
    exact hf
  · rw [insertPge_userPool, hpool]
    exact h.frame_same hframe f hf

/-- `palloc_get_page`. -/
theorem getFrame {st : Framed} (hv : A t v = old)
    (he : old.entry = some e) (htable : (Life.framed st e f).table = old.table)
    (hmapping : old.mapping = none) (hst : st.isMapped = false) (honList : old.onList = none)
    (hst' : st.isListed = false)
    (hdescribes : ∀ pge, old.Describes v pge → (Life.framed st e f).Describes v pge)
    (hfree : s.userPool.bit f = false) (hprocs : s'.procs = s.procs) (hheap : s'.heap = s.heap)
    (hlist : s'.listLRU = s.listLRU)
    (hpool : ∀ f', s'.userPool.bit f' = if f' = f then true else s.userPool.bit f') :
    Tables s' (A.set t v (.framed st e f)) := by
  subst hv
  have hget : ∀ u x, s'.getPge u x = s.getPge u x := fun u x ↦ by rw [getPge, hprocs, getPge]
  have hfr : ∀ u x, s'.frameOf u x = s.frameOf u x := fun u x ↦ by rw [frameOf, hprocs, frameOf]
  refine h.set (fun u x ↦ (hget u x).trans (h.table_same htable u x))
    (fun u x ↦ (hfr u x).trans (h.mapping_same ?_ u x)) (fun p ↦ ?_) (hlist ▸ h.nodup)
    (fun e' _ _ ↦ hheap ▸ rfl) (fun e' he' ↦ ?_) (fun f' _ hf' ↦ ?_) (fun f' hf' ↦ ?_)
  · rw [hmapping, Life.mapping, hst]
    rfl
  · rw [hlist]
    refine h.onList_same ?_ p
    rw [honList, Life.onList, hst']
    rfl
  · cases he'
    obtain ⟨pge, hpge, hd⟩ := h.heap he
    exact ⟨.inl he, pge, hheap ▸ hpge, hdescribes pge hd⟩
  · rw [hpool, hf', ite_self]
  · cases hf'
    exact ⟨.inr hfree, by rw [hpool, if_pos rfl]⟩

/-- `add_page_to_list_LRU`. -/
theorem addPage {st st' : Framed} (hv : A t v = .framed st e f)
    (htable : st'.inTable = st.inTable) (hmapping : st'.isMapped = st.isMapped)
    (hst : st.isListed = false) (hst' : st'.isListed = true) (hset : st'.isSet = st.isSet)
    (hloaded : st'.isLoaded = st.isLoaded) :
    Tables (s.addPageToListLRU ⟨f, e, t⟩) (A.set t v (.framed st' e f)) := by
  have hnot : ∀ p, p ∈ s.listLRU → p.kaddr ≠ f := by
    rintro p hp rfl
    obtain ⟨x, hx⟩ := (h.onList p).mp hp
    obtain ⟨st1, hst1, hlisted⟩ := Life.entry_of_onList hx
    obtain ⟨ht, rfl⟩ := h.frame_inj (t := p.thread) (v := x) (u := t) (x := v) (f := p.kaddr)
      (by rw [hst1]; rfl) (by rw [hv]; rfl)
    rw [ht, hv] at hst1
    cases hst1
    cases hst.symm.trans hlisted
  refine h.set (h.table_same ?_) (h.mapping_same ?_) (fun p ↦ ?_) ?_ (fun _ _ _ ↦ rfl)
    (fun e' he' ↦ ?_) (fun _ _ hf ↦ hf) (h.frame_same (hv ▸ rfl))
  · rw [hv, Life.table, Life.table, htable]
  · rw [hv, Life.mapping, Life.mapping, hmapping]
  · rw [addPageToListLRU, mem_append, mem_singleton, hv, Life.onList, Life.onList, hst,
      hst', if_pos rfl, if_neg Bool.false_ne_true]
    constructor
    · rintro (hp | rfl)
      · exact .inr ⟨hp, fun hat ↦ by cases hat.2⟩
      · exact .inl ⟨rfl, rfl⟩
    · rintro (⟨rfl, heq⟩ | ⟨hp, -⟩)
      · cases heq
        exact .inr rfl
      · exact .inl hp
  · refine nodup_append.mpr ⟨h.nodup, nodup_singleton _, fun p hp q hq ↦ ?_⟩
    rintro rfl
    exact hnot p hp (congrArg Page.kaddr (mem_singleton.mp hq))
  · cases he'
    obtain ⟨pge, hpge, hd⟩ := h.heap (t := t) (v := v) (e := e) (by rw [hv]; rfl)
    rw [hv] at hd
    refine ⟨.inl (by rw [hv]; rfl), pge, hpge, ?_⟩
    rw [Life.Describes, hset, hloaded]
    exact hd

/-- `install_page`. -/
theorem install {st st' : Framed} (hv : A t v = .framed st e f)
    (htable : st'.inTable = st.inTable) (hst' : st'.isMapped = true)
    (honList : st'.isListed = st.isListed) (hset : st'.isSet = st.isSet)
    (hloaded : st'.isLoaded = st.isLoaded) (hget : ∀ u x, s'.getPge u x = s.getPge u x)
    (hframe : ∀ u x, s'.frameOf u x = if u = t ∧ x = v then some f else s.frameOf u x)
    (hlist : s'.listLRU = s.listLRU) (hheap : s'.heap = s.heap)
    (hpool : s'.userPool = s.userPool) : Tables s' (A.set t v (.framed st' e f)) := by
  refine h.set (fun u x ↦ (hget u x).trans (h.table_same ?_ u x)) (fun u x ↦ ?_) (fun p ↦ ?_)
    (hlist ▸ h.nodup) (fun e' _ _ ↦ hheap ▸ rfl) (fun e' he' ↦ ?_) (fun _ _ hf ↦ hpool ▸ hf)
    (fun f' hf' ↦ ?_)
  · rw [hv, Life.table, Life.table, htable]
  · rw [hframe, Life.mapping, hst', if_pos rfl]
  · rw [hlist]
    refine h.onList_same ?_ p
    rw [hv, Life.onList, Life.onList, honList]
  · cases he'
    obtain ⟨pge, hpge, hd⟩ := h.heap (t := t) (v := v) (e := e) (by rw [hv]; rfl)
    rw [hv] at hd
    refine ⟨.inl (by rw [hv]; rfl), pge, hheap ▸ hpge, ?_⟩
    rw [Life.Describes, hset, hloaded]
    exact hd
  · rw [hpool]
    exact h.frame_same (by rw [hv]; rfl) f' hf'

/-- `__free_page`, of the page that is on `list_LRU`, after its entry has been written. -/
theorem free {st : Framed} {st' : Unframed}
    (hv : A t v = .framed st e f) (htable : st'.inTable = st.inTable)
    (hlisted : st.isListed = true) (hfreed : Freed (s.setPge e (some x)) ⟨f, e, t⟩ v s')
    (hdescribes : (Life.unframed st' e).Describes v x) :
    Tables s' (A.set t v (.unframed st' e)) := by
  refine h.set (fun u x ↦ (hfreed.getPge u x).trans (h.table_same ?_ u x)) hfreed.frameOf
    (fun p ↦ ?_) (hfreed.listLRU ▸ h.nodup.erase _) (fun e' hne _ ↦ ?_) (fun e' he' ↦ ?_)
    (fun f' hne hf' ↦ ?_) nofun
  · rw [hv, Life.table, Life.table, htable]
  · rw [hfreed.listLRU]
    show p ∈ s.listLRU.erase _ ↔ _
    rw [h.nodup.mem_erase_iff, hv, Life.onList, hlisted, if_pos rfl]
    constructor
    · rintro ⟨hne, hp⟩
      refine .inr ⟨hp, ?_⟩
      rintro ⟨rfl, heq⟩
      cases heq
      exact hne rfl
    · rintro (⟨-, heq⟩ | ⟨hp, hne⟩)
      · cases heq
      · refine ⟨?_, hp⟩
        rintro rfl
        exact hne ⟨rfl, rfl⟩
  · rw [hfreed.heap]
    refine update_of_ne ?_ _ _
    rintro rfl
    exact hne (by rw [hv]; rfl)
  · cases he'
    refine ⟨.inl (by rw [hv]; rfl), x, ?_, hdescribes⟩
    rw [hfreed.heap]
    exact update_self ..
  · rw [hfreed.bit, if_neg]
    · exact hf'
    · rintro rfl
      exact hne (by rw [hv]; rfl)

/-- `hash_clear` takes the entry out of the table. -/
theorem pop (hv : A t v = old) (htable : new.table = none)
    (hmapping : new.mapping = old.mapping) (honList : new.onList = old.onList)
    (hentry : new.entry = old.entry) (hframe : new.frame = old.frame)
    (hdescribes : ∀ pge, old.Describes v pge → new.Describes v pge) :
    Tables (s.popPge t v) (A.set t v new) := by
  subst hv
  refine h.set (fun u x ↦ ?_) (fun u x ↦ frameOf_popPge.trans (h.mapping_same hmapping u x))
    (h.onList_same honList) h.nodup (fun _ _ _ ↦ rfl) (fun e he ↦ ⟨.inl (hentry ▸ he), ?_⟩)
    (fun _ _ hf ↦ hf) (h.frame_same hframe)
  · rw [getPge_popPge, htable]
  · obtain ⟨pge, hpge, hd⟩ := h.heap (hentry ▸ he)
    exact ⟨pge, hpge, hdescribes pge hd⟩

/-- `find_page_from_list_LRU` finds the page with the frame. -/
theorem findPage {st : Framed} (hv : A t v = .framed st e f)
    (hlisted : st.isListed = true) : s.findPageFromListLRU f = some ⟨f, e, t⟩ := by
  have hmem : (⟨f, e, t⟩ : Page) ∈ s.listLRU := by
    refine (h.onList _).mpr ⟨v, ?_⟩
    rw [hv, Life.onList, hlisted, if_pos rfl]
  cases hfind : s.findPageFromListLRU f with
  | none =>
    rw [findPageFromListLRU, find?_eq_none] at hfind
    exact absurd (beq_self_eq_true f) (hfind _ hmem)
  | some p =>
    have hp : p.kaddr = f := by simpa using find?_some hfind
    obtain ⟨x, hx⟩ := (h.onList p).mp (mem_of_find?_eq_some hfind)
    obtain ⟨st', hst', -⟩ := Life.entry_of_onList hx
    obtain ⟨ht, rfl⟩ := h.frame_inj (t := p.thread) (v := x) (u := t) (x := v) (f := f)
      (by rw [hst', hp]; rfl) (by rw [hv]; rfl)
    rw [ht, hv] at hst'
    cases hst'
    cases p
    cases ht
    rfl

end

end Tables

/-! ## Where the threads are -/

/-- What a page is like while a frame for it is wanted. -/
def Job.Waits : Job → Nat → Life → Prop
  | .stack upage pge, v, life => v = upage ∧ life = .unframed .fresh pge
  | .fault pge, _, life => life = .unframed .unloaded pge

/-- What the page `v` is like that a thread is working on. -/
def Pc.Expects : Pc → Nat → Life → Prop
  | .gone, _, life => life = .absent
  | .user, _, life | .exiting, _, life => life.Settled
  | .mallocPage job, v, life | .getPage job, v, life | .replace job, v, life
  | .chosen job _, v, life | .saved job _, v, life => job.Waits v life
  | .allocated (.stack upage pge) kaddr, v, life => v = upage ∧ life = .framed .taken pge kaddr
  | .allocated (.fault pge) kaddr, _, life => life = .framed .loading pge kaddr
  | .added upage pge kaddr, v, life => v = upage ∧ life = .framed .listed pge kaddr
  | .installed upage pge kaddr, v, life => v = upage ∧ life = .framed .stacked pge kaddr
  | .filled upage pge kaddr, v, life => v = upage ∧ life = .framed .filled pge kaddr
  | .pagedIn pge kaddr, _, life => life = .framed .paged pge kaddr
  | .mapped pge kaddr, _, life => life = .framed .installed pge kaddr
  | .loaded pge kaddr, _, life => life = .framed .ready pge kaddr
  | .popped pge, _, life => life = .unframed .popped pge ∨ ∃ f, life = .framed .popped pge f
  | .cleared pge, _, life => life = .unframed .leaving pge ∨ ∃ f, life = .framed .leaving pge f
  | .lookedUp pge kaddr, _, life => (life = .unframed .leaving pge ∧ kaddr = none) ∨
      ∃ f, life = .framed .leaving pge f ∧ kaddr = some f
  | .unlisted pge, _, life => life = .unframed .dropped pge

/-- The page that a thread evicts. -/
def Pc.victim : Pc → Option Page
  | .chosen _ vict | .saved _ vict => some vict
  | _ => none

/-- The pages are in the states that the threads have brought them to. -/
structure Places (pc : Nat → Pc) (holder : Option Nat) (A : Lives) : Prop where
  /-- A thread is working on one page at most. -/
  here : ∀ t, ∃ v, (pc t).Expects v (A t v) ∧ ∀ x, x ≠ v → (A t x).Settled
  gone : ∀ {t}, pc t = .gone → ∀ v, A t v = .absent
  holder : ∀ {u vict}, (pc u).victim = some vict → holder = some u
  chosen : ∀ {u job vict}, pc u = .chosen job vict →
    ∃ v, A vict.thread v = .framed .resident vict.pge vict.kaddr
  saved : ∀ {u job vict}, pc u = .saved job vict →
    ∃ v, A vict.thread v = .framed .evicting vict.pge vict.kaddr
  evicting : ∀ {t v e f}, A t v = .framed .evicting e f → ∃ u job, pc u = .saved job ⟨f, e, t⟩

/-- A thread that is working on a page that is in memory is not working on it. -/
theorem Pc.Expects.settled {pc : Pc} {v : Nat} {st : Framed} {life : Life}
    (h : pc.Expects v (.framed st e f)) (hst : st = .resident ∨ st = .evicting)
    (hlife : life.Settled) : pc.Expects v life := by
  cases pc with
  | user => exact hlife
  | exiting => exact hlife
  | allocated job kaddr => cases job <;> simp_all [Expects]
  | mallocPage job => cases job <;> simp_all [Expects, Job.Waits]
  | getPage job => cases job <;> simp_all [Expects, Job.Waits]
  | replace job => cases job <;> simp_all [Expects, Job.Waits]
  | chosen job => cases job <;> simp_all [Expects, Job.Waits]
  | saved job => cases job <;> simp_all [Expects, Job.Waits]
  | _ => simp_all [Expects]

namespace Places

section

/-! ### One thread goes on -/

variable {pc : Nat → Pc} {t u : Nat} {here' : Pc}

/-- If the thread does not evict, then who evicts is another one. -/
theorem update_eq_of_victim (hvict : here'.victim = none)
    (hu : (update pc t here' u).victim = some vict) : update pc t here' u = pc u := by
  by_cases hut : u = t
  · subst hut
    rw [update_self, hvict] at hu
    cases hu
  · exact update_of_ne hut _ _

theorem gone_of_update (hu : update pc t here' u = .gone) (hgone : here' ≠ .gone) :
    u ≠ t ∧ pc u = .gone := by
  have hut : u ≠ t := by
    rintro rfl
    rw [update_self] at hu
    exact hgone hu
  exact ⟨hut, (update_of_ne hut _ _).symm.trans hu⟩

/-- The thread expects now what it expected before. -/
theorem expects_update (hexpects : ∀ v life, (pc t).Expects v life → here'.Expects v life)
    {x : Nat} {life : Life} (h : (pc u).Expects x life) : (update pc t here' u).Expects x life := by
  by_cases hut : u = t
  · subst hut
    rw [update_self]
    exact hexpects x life h
  · rwa [update_of_ne hut]

end

variable {pc pc' : Nat → Pc} {here' : Pc} {holder : Option Nat} {A : Lives} {t v : Nat} {new : Life}

/-- Who evicts holds the lock, so nobody else evicts. -/
theorem victim_of_ne {u' : Nat} (h : Places pc holder A)
    (hu : (pc u).victim = some vict) (hne : u' ≠ u) : (pc u').victim = none :=
  eq_none_iff_forall_not_mem.mpr fun _ hu' ↦
    hne (some_inj.mp ((h.holder hu').symm.trans (h.holder hu)))

/-- While nobody holds the lock nobody evicts. -/
theorem victim_eq_none (h : Places pc none A) (u : Nat) : (pc u).victim = none :=
  eq_none_iff_forall_not_mem.mpr fun _ hu ↦ nomatch h.holder hu

/-- Who evicts a page that is being evicted is still there when another thread goes on. -/
theorem evicting_update {x : Nat} (h : Places pc holder A) (hvict : (pc t).victim = none)
    (hx : A u x = .framed .evicting e f) :
    ∃ u' job, update pc t here' u' = .saved job ⟨f, e, u⟩ := by
  obtain ⟨u', job, hu'⟩ := h.evicting hx
  refine ⟨u', job, ?_⟩
  rw [update_of_ne, hu']
  rintro rfl
  rw [hu'] at hvict
  cases hvict

/-- A thread goes on, and the page it is working on with it. -/
theorem move (h : Places pc holder A) (hrest : ∀ x, x ≠ v → (A t x).Settled)
    (hexpects : here'.Expects v new) (hgone : here' ≠ .gone) (hvict : (pc t).victim = none)
    (hvict' : here'.victim = none)
    (hfree : ∀ {u vict}, (pc u).victim = some vict → vict.thread = t →
      (A t v).entry ≠ some vict.pge) (hnew : ∀ e f, new ≠ .framed .evicting e f) :
    Places (update pc t here') holder (A.set t v new) := by
  -- The page is not the victim.
  have hkeep : ∀ {u vict st}, (pc u).victim = some vict →
      (∃ x, A vict.thread x = .framed st vict.pge vict.kaddr) →
      ∃ x, A.set t v new vict.thread x = .framed st vict.pge vict.kaddr := by
    rintro u vict st hu ⟨x, hx⟩
    refine ⟨x, ?_⟩
    rw [Lives.set_of_ne, hx]
    rintro ⟨ht, rfl⟩
    rw [ht] at hx
    exact hfree hu ht (by rw [hx]; rfl)
  refine ⟨fun u ↦ ?_, fun {u} hu x ↦ ?_, fun {u vict} hu ↦ ?_, fun {u job vict} hu ↦ ?_,
    fun {u job vict} hu ↦ ?_, fun {u x e f} hx ↦ ?_⟩
  · by_cases hut : u = t
    · subst hut
      refine ⟨v, ?_, fun x hx ↦ ?_⟩
      · rwa [update_self, Lives.set_self]
      · rw [Lives.set_of_ne fun hat ↦ hx hat.2]
        exact hrest x hx
    · obtain ⟨x, hexp, hset⟩ := h.here u
      refine ⟨x, ?_, fun y hy ↦ ?_⟩
      · rwa [update_of_ne hut, Lives.set_of_ne fun hat ↦ hut hat.1]
      · rw [Lives.set_of_ne fun hat ↦ hut hat.1]
        exact hset y hy
  · obtain ⟨hut, hu⟩ := gone_of_update hu hgone
    rw [Lives.set_of_ne fun hat ↦ hut hat.1]
    exact h.gone hu x
  · exact h.holder (update_eq_of_victim hvict' hu ▸ hu)
  · rw [update_eq_of_victim hvict' (congrArg Pc.victim hu)] at hu
    exact hkeep (congrArg Pc.victim hu) (h.chosen hu)
  · rw [update_eq_of_victim hvict' (congrArg Pc.victim hu)] at hu
    exact hkeep (congrArg Pc.victim hu) (h.saved hu)
  · by_cases hat : u = t ∧ x = v
    · rw [Lives.set, if_pos hat] at hx
      exact absurd hx (hnew e f)
    · rw [Lives.set_of_ne hat] at hx
      exact h.evicting_update hvict hx

/-- A thread goes on, and its pages stay as they are. -/
theorem goto (h : Places pc holder A) (hrest : ∀ x, x ≠ v → (A t x).Settled)
    (hexpects : here'.Expects v (A t v)) (hgone : here' = .gone → ∀ x, A t x = .absent)
    (hvict : (pc t).victim = none) (hvict' : here'.victim = none) :
    Places (update pc t here') holder A := by
  refine ⟨fun u ↦ ?_, fun {u} hu ↦ ?_, fun {u vict} hu ↦ ?_, fun {u job vict} hu ↦ ?_,
    fun {u job vict} hu ↦ ?_, fun hx ↦ h.evicting_update hvict hx⟩
  · by_cases hut : u = t
    · subst hut
      exact ⟨v, by rwa [update_self], hrest⟩
    · rw [update_of_ne hut]
      exact h.here u
  · by_cases hut : u = t
    · subst hut
      rw [update_self] at hu
      exact hgone hu
    · rw [update_of_ne hut] at hu
      exact h.gone hu
  · exact h.holder (update_eq_of_victim hvict' hu ▸ hu)
  · exact h.chosen ((update_eq_of_victim hvict' (congrArg Pc.victim hu)).symm.trans hu)
  · exact h.saved ((update_eq_of_victim hvict' (congrArg Pc.victim hu)).symm.trans hu)

/-- A thread takes the lock and chooses a victim. -/
theorem choose {job : Job} (h : Places pc none A) (hpc : pc t = .replace job)
    (hvict : A vict.thread v = .framed .resident vict.pge vict.kaddr) :
    Places (update pc t (.chosen job vict)) (some t) A := by
  have hother : ∀ {u}, u ≠ t → (update pc t (.chosen job vict) u).victim = none := by
    intro u hut
    rw [update_of_ne hut]
    exact h.victim_eq_none u
  refine ⟨fun u ↦ ?_, fun hu ↦ h.gone (gone_of_update hu nofun).2, fun {u vict'} hu ↦ ?_,
    fun {u job' vict'} hu ↦ ?_, fun {u job' vict'} hu ↦ ?_, fun {u x e f} hx ↦ ?_⟩
  · obtain ⟨x, hexp, hset⟩ := h.here u
    exact ⟨x, expects_update (by rw [hpc]; exact fun _ _ hexp ↦ hexp) hexp, hset⟩
  · by_cases hut : u = t
    · rw [hut]
    · cases (hother hut).symm.trans hu
  · by_cases hut : u = t
    · subst hut
      rw [update_self] at hu
      cases hu
      exact ⟨v, hvict⟩
    · cases (hother hut).symm.trans (congrArg Pc.victim hu)
  · by_cases hut : u = t
    · subst hut
      rw [update_self] at hu
      cases hu
    · cases (hother hut).symm.trans (congrArg Pc.victim hu)
  · obtain ⟨u', job', hu'⟩ := h.evicting hx
    cases (h.victim_eq_none u').symm.trans (congrArg Pc.victim hu')

section

/-! ### The evictor has its victim -/

/-- The page that an evictor is working on. -/
theorem here_set {st : Framed} (h : Places pc holder A)
    (hv : A t v = .framed st e f) (hst : st = .resident ∨ st = .evicting) (hnew : new.Settled)
    (hexpects : ∀ {u x life}, (pc u).Expects x life → (pc' u).Expects x life) (u : Nat) :
    ∃ x, (pc' u).Expects x (A.set t v new u x) ∧ ∀ y, y ≠ x → (A.set t v new u y).Settled := by
  obtain ⟨x, hexp, hset⟩ := h.here u
  refine ⟨x, hexpects ?_, fun y hy ↦ ?_⟩
  · by_cases hat : u = t ∧ x = v
    · obtain ⟨rfl, rfl⟩ := hat
      rw [hv] at hexp
      rw [Lives.set_self]
      exact hexp.settled hst hnew
    · rwa [Lives.set_of_ne hat]
  · rw [Lives.set]
    split
    · exact hnew
    · exact hset y hy

/-- A process that is not there has no page to evict. -/
theorem gone_set (h : Places pc holder A) (hv : A t v ≠ .absent) (hu : pc u = .gone)
    (x : Nat) : A.set t v new u x = .absent := by
  rw [Lives.set_of_ne]
  · exact h.gone hu x
  · rintro ⟨rfl, rfl⟩
    exact hv (h.gone hu x)

/-- The evictor has written the victim back. -/
theorem save {job : Job} (h : Places pc holder A)
    (hpc : pc u = .chosen job vict) (hv : A vict.thread v = .framed .resident vict.pge vict.kaddr) :
    Places (update pc u (.saved job vict)) holder
      (A.set vict.thread v (.framed .evicting vict.pge vict.kaddr)) := by
  have hvict : (pc u).victim = some vict := congrArg Pc.victim hpc
  have hother : ∀ {u'}, u' ≠ u → (update pc u (.saved job vict) u').victim = none := by
    intro u' hne
    rw [update_of_ne hne]
    exact h.victim_of_ne hvict hne
  refine ⟨h.here_set hv (.inl rfl) (.inr rfl) (expects_update ?_), fun hu' ↦ ?_,
    fun {u' vict'} hu' ↦ ?_, fun {u' job' vict'} hu' ↦ ?_, fun {u' job' vict'} hu' ↦ ?_,
    fun {u' x e f} hx ↦ ?_⟩
  · rw [hpc]
    exact fun _ _ hexp ↦ hexp
  · exact h.gone_set (by rw [hv]; nofun) (gone_of_update hu' nofun).2
  · by_cases hne : u' = u
    · rw [hne]
      exact h.holder hvict
    · cases (hother hne).symm.trans hu'
  · by_cases hne : u' = u
    · subst hne
      rw [update_self] at hu'
      cases hu'
    · cases (hother hne).symm.trans (congrArg Pc.victim hu')
  · by_cases hne : u' = u
    · subst hne
      rw [update_self] at hu'
      cases hu'
      exact ⟨v, Lives.set_self ..⟩
    · cases (hother hne).symm.trans (congrArg Pc.victim hu')
  · by_cases hat : u' = vict.thread ∧ x = v
    · rw [Lives.set, if_pos hat] at hx
      cases hx
      exact ⟨u, job, by rw [update_self, hat.1]⟩
    · rw [Lives.set_of_ne hat] at hx
      obtain ⟨u'', job', hu''⟩ := h.evicting hx
      by_cases hne : u'' = u
      · subst hne
        cases hpc.symm.trans hu''
      · cases (h.victim_of_ne hvict hne).symm.trans (congrArg Pc.victim hu'')

/-- The evictor has freed the victim and gives up the lock. -/
theorem unload {job : Job} (h : Places pc holder A)
    (hpc : pc u = .saved job vict) (hv : A vict.thread v = .framed .evicting vict.pge vict.kaddr)
    (hinj : ∀ {x}, A vict.thread x = .framed .evicting vict.pge vict.kaddr → x = v) :
    Places (update pc u (.getPage job)) none
      (A.set vict.thread v (.unframed .unloaded vict.pge)) := by
  have hvict : (pc u).victim = some vict := congrArg Pc.victim hpc
  have hnone : ∀ u', (update pc u (.getPage job) u').victim = none := by
    intro u'
    by_cases hne : u' = u
    · rw [hne, update_self]
      rfl
    · rw [update_of_ne hne]
      exact h.victim_of_ne hvict hne
  refine ⟨h.here_set hv (.inr rfl) rfl (expects_update ?_), fun hu' ↦ ?_,
    fun {u' vict'} hu' ↦ ?_, fun {u' job' vict'} hu' ↦ ?_, fun {u' job' vict'} hu' ↦ ?_,
    fun {u' x e f} hx ↦ ?_⟩
  · rw [hpc]
    exact fun _ _ hexp ↦ hexp
  · exact h.gone_set (by rw [hv]; nofun) (gone_of_update hu' nofun).2
  · cases (hnone u').symm.trans hu'
  · cases (hnone u').symm.trans (congrArg Pc.victim hu')
  · cases (hnone u').symm.trans (congrArg Pc.victim hu')
  · by_cases hat : u' = vict.thread ∧ x = v
    · rw [Lives.set, if_pos hat] at hx
      cases hx
    · rw [Lives.set_of_ne hat] at hx
      obtain ⟨u'', job', hu''⟩ := h.evicting hx
      by_cases hne : u'' = u
      · subst hne
        cases hpc.symm.trans hu''
        exact absurd ⟨rfl, hinj hx⟩ hat
      · cases (h.victim_of_ne hvict hne).symm.trans (congrArg Pc.victim hu'')

end

end Places

end Vm

end Pintos
