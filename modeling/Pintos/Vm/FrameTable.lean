import Pintos.Vm.PageLife

/-!
# The frame table while processes run at the same time

In the runs of `Pintos.Vm.Interleaved` whose steps are all `World.Careful`, every page goes through
the states of `Life`: `World.Inv` is what `Tables`, `Places` and the history say about them, and
`World.Inv.step` carries it from one state to the next.  Two things follow from it.

* `World.agree_iff_not_exposed`: while nobody holds `list_LRU_lock`, `list_LRU`, the tables, the
  page entries and the page directories agree exactly if no thread is between two of its updates of
  them; `World.stack_page_exposed` is such a thread.
* `World.exit_frees_own`: an exit frees its own pages, each of its frames once, and leaves no swap
  slot behind.  In `World.exit_frees_foreign_page` another process takes the frame after it has been
  looked up.
-/

set_option autoImplicit false

namespace Pintos

open Function List Option

variable {entry : PageEntry} {s s' : Vm} {vict : Page}

namespace Vm

variable {A : Lives} {t v : Nat} {old new : Life}

/-! ## What has been taken and given back -/

/-- A frame has been given back as often as it has been taken, but for those that a page has. -/
structure Frames (hist : History) (A : Lives) : Prop where
  held : ∀ {t v f}, (A t v).frame = some f → hist.taken t f = hist.freed t f + 1
  free : ∀ {t f}, (∀ v, (A t v).frame ≠ some f) → hist.taken t f = hist.freed t f

namespace Frames

variable {hist : History} {f : Nat}

theorem set (h : Frames hist A) (hv : A t v = old) (hframe : new.frame = old.frame) :
    Frames hist (A.set t v new) := by
  subst hv
  have hsame : ∀ u x, (A.set t v new u x).frame = (A u x).frame := by
    intro u x
    rw [Lives.set]
    split
    · next hat => rw [hframe, hat.1, hat.2]
    · rfl
  refine ⟨fun {u x f} hf ↦ h.held ((hsame u x).symm.trans hf), fun {u f} hno ↦ h.free fun x ↦ ?_⟩
  rw [← hsame]
  exact hno x

/-- `palloc_get_page`. -/
theorem take (h : Frames hist A) (hv : A t v = old) (hnew : new.frame = some f)
    (hold : old.frame = none) (hfree : ∀ u x, (A u x).frame ≠ some f) :
    Frames (hist.take t f) (A.set t v new) := by
  subst hv
  refine ⟨fun {u x g} hg ↦ ?_, fun {u g} hno ↦ ?_⟩
  · by_cases hat : u = t ∧ g = f
    · obtain ⟨rfl, rfl⟩ := hat
      simp only [History.take, and_self, if_true]
      rw [h.free (hfree u)]
    · simp only [History.take, if_neg hat]
      rw [Lives.set] at hg
      split at hg
      · next hat' =>
        rw [hnew, some_inj] at hg
        exact absurd ⟨hat'.1, hg.symm⟩ hat
      · exact h.held hg
  · have hat : ¬ (u = t ∧ g = f) := by
      rintro ⟨rfl, rfl⟩
      exact hno v (by rwa [Lives.set_self])
    simp only [History.take, if_neg hat]
    refine h.free fun x hx ↦ hno x ?_
    rw [Lives.set_of_ne, hx]
    rintro ⟨rfl, rfl⟩
    cases hold.symm.trans hx

/-- `palloc_free_page`. -/
theorem give (h : Frames hist A) (hT : Tables s A) (hv : A t v = old)
    (hnew : new.frame = none) (hold : old.frame = some f) :
    Frames (hist.free t f) (A.set t v new) := by
  subst hv
  refine ⟨fun {u x g} hg ↦ ?_, fun {u g} hno ↦ ?_⟩
  · have hne : ¬ (u = t ∧ x = v) := by
      intro hat
      rw [Lives.set, if_pos hat, hnew] at hg
      cases hg
    rw [Lives.set_of_ne hne] at hg
    have hat : ¬ (u = t ∧ g = f) := by
      rintro ⟨rfl, rfl⟩
      exact hne ⟨rfl, (hT.frame_inj hg hold).2⟩
    simp only [History.free, if_neg hat]
    exact h.held hg
  · by_cases hat : u = t ∧ g = f
    · obtain ⟨rfl, rfl⟩ := hat
      simp only [History.free, and_self, if_true]
      exact h.held hold
    · simp only [History.free, if_neg hat]
      refine h.free fun x hx ↦ hno x ?_
      rw [Lives.set_of_ne, hx]
      rintro ⟨rfl, rfl⟩
      exact hat ⟨rfl, some_inj.mp (hx.symm.trans hold)⟩

end Frames

/-- The page may be in a swap slot. -/
def Life.maySwap : Life → Bool
  | .unframed .unloaded _ | .unframed .popped _ => true
  | .framed .loading _ _ | .framed .evicting _ _ => true
  | _ => false

/-- A slot that is marked has been written for a page whose entry has its number. -/
def Slots (s : Vm) (hist : History) (A : Lives) : Prop :=
  ∀ t n, 1 ≤ n → s.swap.InUse n → hist.slotOwner n = some t →
    ∃ v e pge, (A t v).entry = some e ∧ (A t v).maySwap = true ∧ s.heap e = some pge ∧
      pge.type = .anon ∧ pge.swapSlot = n

theorem Slots.set {hist hist' : History} (h : Slots s hist A) (hT : Tables s A)
    (hswap : ∀ n, 1 ≤ n → s'.swap.InUse n → s.swap.InUse n)
    (hhist : hist'.slotOwner = hist.slotOwner)
    (hheap : ∀ e pge, (A t v).entry ≠ some e → s.heap e = some pge → s'.heap e = some pge)
    (hpage : ∀ e pge, (A t v).entry = some e → (A t v).maySwap = true → s.heap e = some pge →
      pge.type = .anon → 1 ≤ pge.swapSlot → s'.swap.InUse pge.swapSlot →
      new.entry = some e ∧ new.maySwap = true ∧
      ∃ pge', s'.heap e = some pge' ∧ pge'.type = .anon ∧ pge'.swapSlot = pge.swapSlot) :
    Slots s' hist' (A.set t v new) := by
  intro u n hn huse howner
  rw [hhist] at howner
  obtain ⟨x, e, pge, he, hmay, hpge, htype, hslot⟩ := h u n hn (hswap n hn huse) howner
  by_cases hat : u = t ∧ x = v
  · obtain ⟨rfl, rfl⟩ := hat
    obtain ⟨hnew, hmay', pge', hpge', htype', hslot'⟩ :=
      hpage e pge he hmay hpge htype (hslot.symm ▸ hn) (hslot.symm ▸ huse)
    exact ⟨x, e, pge', by rwa [Lives.set_self], by rwa [Lives.set_self], hpge', htype',
      hslot'.trans hslot⟩
  · refine ⟨x, e, pge, by rwa [Lives.set_of_ne hat], by rwa [Lives.set_of_ne hat], ?_, htype, hslot⟩
    exact hheap e pge (fun he' ↦ hat (hT.entry_inj he he')) hpge

theorem Slots.congr {hist : History} (h : Slots s hist A) (hswap : s'.swap = s.swap)
    (hheap : ∀ e x, s.heap e = some x → s'.heap e = some x) : Slots s' hist A := by
  intro t n hn huse howner
  obtain ⟨v, e, x, he, hmay, hx, htype, hslot⟩ := h t n hn (hswap ▸ huse) howner
  exact ⟨v, e, x, he, hmay, hheap e x hx, htype, hslot⟩

/-- The page does not come to or from a swap slot. -/
theorem Slots.keep {hist hist' : History} (h : Slots s hist A) (hT : Tables s A)
    (hv : A t v = old) (hswap : s'.swap = s.swap) (hheap : s'.heap = s.heap)
    (hhist : hist'.slotOwner = hist.slotOwner)
    (hpage : old.maySwap = true → new.entry = old.entry ∧ new.maySwap = true) :
    Slots s' hist' (A.set t v new) := by
  subst hv
  refine h.set hT (fun n _ hn ↦ hswap ▸ hn) hhist (fun e x _ hx ↦ hheap ▸ hx) ?_
  intro e x he hmay hx htype _ _
  exact ⟨(hpage hmay).1.trans he, (hpage hmay).2, x, hheap ▸ hx, htype, rfl⟩

/-- The page is in no swap slot. -/
theorem Slots.leave {hist hist' : History} (h : Slots s hist A) (hT : Tables s A)
    (hv : A t v = old) (hswap : s'.swap = s.swap) (hheap : s'.heap = s.heap)
    (hhist : hist'.slotOwner = hist.slotOwner) (hpage : old.maySwap = false) :
    Slots s' hist' (A.set t v new) :=
  h.keep hT hv hswap hheap hhist fun hmay ↦ nomatch hpage.symm.trans hmay

/-- The entry of a page that is in no swap slot is written. -/
theorem Slots.write {hist : History} {e : Nat} {o : Option PageEntry} (h : Slots s hist A)
    (hT : Tables s A) (hv : A t v = old) (hpage : old.maySwap = false)
    (he : old.entry = some e ∨ s.heap e = none) : Slots (s.setPge e o) hist (A.set t v new) := by
  subst hv
  refine h.set hT (fun n _ hn ↦ hn) rfl (fun e' x hne hx ↦ ?_) fun _ _ _ hmay ↦ ?_
  · refine (update_of_ne ?_ _ _).trans hx
    rintro rfl
    rcases he with he | hnone
    · exact hne he
    · cases hnone.symm.trans hx
  · cases hpage.symm.trans hmay

theorem setPge_self {e : Nat} {x : PageEntry} (h : s.heap e = some x) :
    s.setPge e (some x) = s := by
  rw [setPge, ← h, update_eq_self]

namespace World

/-- What has to hold while processes run. -/
structure Inv (w : World) (A : Lives) : Prop where
  tables : Tables w.vm A
  places : Places w.pc w.holder A
  frames : Frames w.history A
  own : ∀ {t p}, (t, p) ∈ w.history.exitFreed → p.thread = t
  slots : Slots w.vm w.history A

namespace Inv

variable {w w' : World} {pge kaddr upage : Nat} {pc : Pc}

section

variable (h : w.Inv A)

include h

/-- A page that is not in memory, or not there for good, is not a victim. -/
theorem not_victim (hold : ∀ e f, A t v ≠ .framed .resident e f ∧
    A t v ≠ .framed .evicting e f) {u : Nat} (hu : (w.pc u).victim = some vict)
    (ht : vict.thread = t) : (A t v).entry ≠ some vict.pge := by
  subst ht
  intro he
  cases hpc : w.pc u with
  | chosen job vict' =>
    rw [hpc] at hu
    cases hu
    obtain ⟨x, hx⟩ := h.places.chosen hpc
    obtain ⟨-, rfl⟩ := h.tables.entry_inj he (u := vict.thread) (x := x) (by rw [hx]; rfl)
    exact (hold _ _).1 hx
  | saved job vict' =>
    rw [hpc] at hu
    cases hu
    obtain ⟨x, hx⟩ := h.places.saved hpc
    obtain ⟨-, rfl⟩ := h.tables.entry_inj he (u := vict.thread) (x := x) (by rw [hx]; rfl)
    exact (hold _ _).2 hx
  | _ =>
    rw [hpc] at hu
    cases hu

/-- The page that the thread is working on. -/
theorem here (hpc : w.pc t = pc) : ∃ v, pc.Expects v (A t v) ∧ ∀ x, x ≠ v → (A t x).Settled :=
  hpc ▸ h.places.here t

/-- A thread goes on with the page it is working on. -/
theorem move {at' : Pc} {old : Life} {hist : History} (new : Life)
    (hpc : w.pc t = at') (hv : A t v = old) (hrest : ∀ x, x ≠ v → (A t x).Settled)
    (hexpects : pc.Expects v new) (htables : Tables s' (A.set t v new))
    (hframes : Frames hist (A.set t v new)) (hlog : hist.exitFreed = w.history.exitFreed)
    (hslots : Slots s' hist (A.set t v new))
    (hquiet : pc ≠ .gone ∧ at'.victim = none ∧ pc.victim = none ∧
      (∀ e f, old ≠ .framed .resident e f ∧ old ≠ .framed .evicting e f) ∧
      ∀ e f, new ≠ .framed .evicting e f) :
    Inv ({ w with vm := s', history := hist }.goto t pc) (A.set t v new) := by
  obtain ⟨hgone, hvict, hvict', hold, hnew⟩ := hquiet
  subst hv hpc
  exact ⟨htables, h.places.move hrest hexpects hgone hvict hvict' (h.not_victim hold) hnew, hframes,
    fun hp ↦ h.own (hlog ▸ hp), hslots⟩

/-- Between two operations all pages are settled. -/
theorem settled (hpc : w.pc t = .user ∨ w.pc t = .exiting) (x : Nat) : (A t x).Settled := by
  obtain ⟨v, hexp, hrest⟩ := h.places.here t
  by_cases hx : x = v
  · subst hx
    rcases hpc with hpc | hpc <;>
    · rw [hpc] at hexp
      exact hexp
  · exact hrest x hx

/-- A page without an entry is not there. -/
theorem absent (hpc : w.pc t = .user ∨ w.pc t = .exiting)
    (hnone : w.vm.getPge t v = none) : A t v = .absent := by
  have hset := h.settled hpc v
  rw [h.tables.table] at hnone
  cases hl : A t v with
  | absent => rfl
  | unframed st e =>
    rw [hl] at hset hnone
    cases hset
    cases hnone
  | framed st e f =>
    rw [hl] at hset hnone
    rcases hset with rfl | rfl <;> cases hnone

/-! ### A stack page -/

theorem mallocEntry {garbage : PageEntry} (hpc : w.pc t = .user)
    (hnone : w.vm.getPge t upage = none) (hs : w.mallocEntry t upage pge garbage = some w') :
    ∃ A', w'.Inv A' := by
  simp only [World.mallocEntry, bind_eq_some, assert_eq_some, pure_eq_some] at hs
  obtain ⟨_, hfree, rfl⟩ := hs
  have hv := h.absent (.inl hpc) hnone
  exact ⟨_, h.move (.unframed .fresh pge) hpc hv (fun x _ ↦ h.settled (.inl hpc) x) ⟨rfl, rfl⟩
    (h.tables.malloc hv hfree)
    (h.frames.set hv rfl) rfl (h.slots.write h.tables hv rfl (.inr hfree)) (by simp [Pc.victim])⟩

/-- There is no memory for the `struct page`, and the block of the entry is lost. -/
theorem mallocPage_false (hpc : w.pc t = .mallocPage (.stack upage pge)) :
    ∃ A', (w.goto t .user).Inv A' := by
  obtain ⟨v, ⟨rfl, hv⟩, hrest⟩ := h.here hpc
  refine ⟨_, h.move .absent hpc hv hrest trivial ?_
    (h.frames.set hv rfl) rfl (h.slots.leave h.tables hv rfl rfl rfl rfl) (by simp [Pc.victim])⟩
  exact h.tables.release hv rfl (fun _ _ ↦ rfl) (fun _ _ ↦ rfl) rfl (fun _ _ ↦ rfl) rfl

theorem addPage_stack (hpc : w.pc t = .allocated (.stack upage pge) kaddr)
    (hs : w.addPage t pge kaddr (.added upage pge kaddr) = some w') : ∃ A', w'.Inv A' := by
  simp only [World.addPage, bind_eq_some, assert_eq_some, pure_eq_some] at hs
  obtain ⟨_, -, rfl⟩ := hs
  obtain ⟨v, ⟨rfl, hv⟩, hrest⟩ := h.here hpc
  exact ⟨_, h.move (.framed .listed pge kaddr) hpc hv hrest ⟨rfl, rfl⟩
    (h.tables.addPage hv rfl rfl rfl rfl rfl rfl)
    (h.frames.set hv rfl) rfl (h.slots.leave h.tables hv rfl rfl rfl rfl) (by simp [Pc.victim])⟩

theorem installPage_stack {table : Bool} (hpc : w.pc t = .added upage pge kaddr)
    (hs : w.installPage t upage kaddr true table (.installed upage pge kaddr) = some w') :
    ∃ A', w'.Inv A' := by
  simp only [World.installPage, bind_eq_some, Prod.exists, assert_eq_some, pure_eq_some] at hs
  obtain ⟨installed, s', hinstall, _, htrue, rfl⟩ := hs
  obtain ⟨-, -, hheap, hlist, hpool, hswap, hget, hframe⟩ := installPage_spec hinstall htrue
  obtain ⟨v, ⟨rfl, hv⟩, hrest⟩ := h.here hpc
  exact ⟨_, h.move (.framed .stacked pge kaddr) hpc hv hrest ⟨rfl, rfl⟩
    (h.tables.install hv rfl rfl rfl rfl rfl hget hframe hlist hheap hpool)
    (h.frames.set hv rfl) rfl (h.slots.leave h.tables hv hswap hheap rfl rfl) (by simp [Pc.victim])⟩

theorem fill (hpc : w.pc t = .installed upage pge kaddr) :
    ∃ A', Inv ({ w with vm := w.vm.setPge pge (some (stackEntry upage)) }.goto t
      (.filled upage pge kaddr)) A' := by
  obtain ⟨v, ⟨rfl, hv⟩, hrest⟩ := h.here hpc
  exact ⟨_, h.move (.framed .filled pge kaddr) hpc hv hrest ⟨rfl, rfl⟩
    (h.tables.write hv rfl rfl rfl rfl rfl rfl fun _ ↦ ⟨rfl, rfl⟩)
    (h.frames.set hv rfl) rfl (h.slots.write h.tables hv rfl (.inl rfl)) (by simp [Pc.victim])⟩

theorem insert (hpc : w.pc t = .filled upage pge kaddr) (hentry : w.vm.heap pge = some entry) :
    ∃ A', Inv ({ w with vm := w.vm.insertPge t entry.vaddr pge }.goto t .user) A' := by
  obtain ⟨v, ⟨rfl, hv⟩, hrest⟩ := h.here hpc
  obtain ⟨hvaddr, hloaded⟩ := h.tables.describes hv rfl hentry rfl
  rw [hvaddr]
  refine ⟨_, h.move (.framed .resident pge kaddr) hpc hv hrest (.inl rfl)
    ?_ (h.frames.set hv rfl) rfl
    (h.slots.leave h.tables hv (by simp) (by simp) rfl rfl) (by simp [Pc.victim])⟩
  refine h.tables.insert hv rfl rfl rfl rfl rfl (fun _ _ _ ↦ rfl) (fun e he ↦ ?_) rfl rfl rfl
  cases he
  exact ⟨.inl rfl, entry, hentry, fun _ ↦ ⟨hvaddr, hloaded⟩⟩

/-! ### A frame -/

/-- A thread goes on and touches nothing. -/
theorem goto (hvict : (w.pc t).victim = none) (hvict' : pc.victim = none)
    (hgone : pc = .gone → ∀ x, A t x = .absent)
    (hexpects : ∀ v life, (w.pc t).Expects v life → pc.Expects v life) : (w.goto t pc).Inv A := by
  obtain ⟨v, hexp, hrest⟩ := h.places.here t
  exact ⟨h.tables, h.places.goto hrest (hexpects v _ hexp) hgone hvict hvict', h.frames, h.own,
    h.slots⟩

theorem getPage {job : Job} (hpc : w.pc t = .getPage job)
    (hs : w.getPage t job = some w') : ∃ A', w'.Inv A' := by
  simp only [World.getPage, bind_eq_some, Prod.exists] at hs
  obtain ⟨k, s', hget, hs⟩ := hs
  rcases pallocGetPage_spec hget with ⟨rfl, rfl⟩ | ⟨f, rfl, hfree, b, rfl, hb⟩
  · cases hs
    exact ⟨A, h.goto (by rw [hpc]; rfl) rfl nofun fun v life hexp ↦ by rwa [hpc] at hexp⟩
  obtain ⟨v, hexp, hrest⟩ := h.here hpc
  have hno : ∀ u x, (A u x).frame ≠ some f := by
    intro u x hf
    cases hfree.symm.trans (h.tables.pool hf)
  cases job with
  | stack upage pge =>
    obtain ⟨rfl, hv⟩ := hexp
    cases hs
    exact ⟨_, h.move (.framed .taken pge f) hpc hv hrest ⟨rfl, rfl⟩
      (h.tables.getFrame hv rfl rfl rfl rfl rfl rfl (fun _ _ hset ↦ nomatch hset) hfree rfl rfl
        rfl hb)
      (h.frames.take hv rfl rfl hno) rfl (h.slots.leave h.tables hv rfl rfl rfl rfl)
      (by simp [Pc.victim])⟩
  | fault pge =>
    have hv : A t v = .unframed .unloaded pge := hexp
    cases hs
    exact ⟨_, h.move (.framed .loading pge f) hpc hv hrest rfl
      (h.tables.getFrame hv rfl rfl rfl rfl rfl rfl (fun _ hd ↦ hd) hfree rfl rfl rfl hb)
      (h.frames.take hv rfl rfl hno) rfl
      (h.slots.keep h.tables hv rfl rfl rfl fun _ ↦ ⟨rfl, rfl⟩) (by simp [Pc.victim])⟩

/-! ### A fault -/

theorem pageIn {files : Nat → FileImage}
    (hpc : w.pc t = .allocated (.fault pge) kaddr) (hentry : w.vm.heap pge = some entry)
    (hs : Vm.pageIn files w.vm entry kaddr = some s') :
    ∃ A', Inv ({ w with vm := s' }.goto t (.pagedIn pge kaddr)) A' := by
  simp only [Vm.pageIn, bind_eq_some, Prod.exists, pure_eq_some] at hs
  obtain ⟨swap, page, hfetch, rfl⟩ := hs
  obtain ⟨v, hexp, hrest⟩ := h.here hpc
  have hv : A t v = .framed .loading pge kaddr := hexp
  have htables : Tables w.vm (A.set t v (.framed .paged pge kaddr)) :=
    h.tables.relabel hv rfl rfl rfl rfl rfl fun _ hd ↦ hd
  refine ⟨_, h.move (.framed .paged pge kaddr) hpc hv hrest rfl
    (htables.same rfl rfl rfl rfl) (h.frames.set hv rfl) rfl ?_ (by simp [Pc.victim])⟩
  -- The slot that the page was in is not marked any more.
  have hclear : ∀ n, 1 ≤ n → swap.InUse n → w.vm.swap.InUse n ∧
      ¬ (entry.type = .anon ∧ entry.swapSlot = n) := by
    intro n hn huse
    rw [fetch] at hfetch
    cases htype : entry.type with
    | bin =>
      rw [htype] at hfetch
      simp only [bind_eq_some, pure_eq_some, Prod.mk.injEq] at hfetch
      obtain ⟨_, -, rfl, -⟩ := hfetch
      exact ⟨huse, by simp⟩
    | anon =>
      rw [htype] at hfetch
      obtain ⟨-, hbits⟩ := Swap.swapIn_spec hfetch
      obtain ⟨hne, hold⟩ := (hbits n hn).mp huse
      exact ⟨hold, fun heq ↦ hne heq.2.symm⟩
  refine h.slots.set h.tables (fun n hn huse ↦ (hclear n hn huse).1) rfl (fun _ _ _ hx ↦ hx) ?_
  intro e x he _ hx htype hn huse
  rw [hv] at he
  cases he
  cases hentry.symm.trans hx
  exact absurd ⟨htype, rfl⟩ (hclear _ hn huse).2

theorem installPage_fault {table : Bool}
    (hpc : w.pc t = .pagedIn pge kaddr) (hentry : w.vm.heap pge = some entry)
    (hs : w.installPage t entry.vaddr kaddr entry.writable table (.mapped pge kaddr) = some w') :
    ∃ A', w'.Inv A' := by
  simp only [World.installPage, bind_eq_some, Prod.exists, assert_eq_some, pure_eq_some] at hs
  obtain ⟨installed, s', hinstall, _, htrue, rfl⟩ := hs
  obtain ⟨-, -, hheap, hlist, hpool, hswap, hget, hframe⟩ := installPage_spec hinstall htrue
  obtain ⟨v, hexp, hrest⟩ := h.here hpc
  have hv : A t v = .framed .paged pge kaddr := hexp
  obtain ⟨rfl, -⟩ := h.tables.describes hv rfl hentry rfl
  exact ⟨_, h.move (.framed .installed pge kaddr) hpc hv hrest rfl
    (h.tables.install hv rfl rfl rfl rfl rfl hget hframe hlist hheap hpool)
    (h.frames.set hv rfl) rfl (h.slots.leave h.tables hv hswap hheap rfl rfl) (by simp [Pc.victim])⟩

theorem setLoaded (hpc : w.pc t = .mapped pge kaddr) (hentry : w.vm.heap pge = some entry) :
    ∃ A', Inv ({ w with vm := w.vm.setPge pge (some { entry with isLoaded := true }) }.goto t
      (.loaded pge kaddr)) A' := by
  obtain ⟨v, hexp, hrest⟩ := h.here hpc
  have hv : A t v = .framed .installed pge kaddr := hexp
  have hd := h.tables.describes hv rfl hentry rfl
  exact ⟨_, h.move (.framed .ready pge kaddr) hpc hv hrest rfl
    (h.tables.write hv rfl rfl rfl rfl rfl rfl fun _ ↦ ⟨hd.1, rfl⟩)
    (h.frames.set hv rfl) rfl (h.slots.write h.tables hv rfl (.inl rfl)) (by simp [Pc.victim])⟩

theorem addPage_fault (hpc : w.pc t = .loaded pge kaddr)
    (hs : w.addPage t pge kaddr .user = some w') : ∃ A', w'.Inv A' := by
  simp only [World.addPage, bind_eq_some, assert_eq_some, pure_eq_some] at hs
  obtain ⟨_, -, rfl⟩ := hs
  obtain ⟨v, hexp, hrest⟩ := h.here hpc
  have hv : A t v = .framed .ready pge kaddr := hexp
  exact ⟨_, h.move (.framed .resident pge kaddr) hpc hv hrest (.inl rfl)
    (h.tables.addPage hv rfl rfl rfl rfl rfl rfl)
    (h.frames.set hv rfl) rfl (h.slots.leave h.tables hv rfl rfl rfl rfl) (by simp [Pc.victim])⟩

/-! ### An eviction -/

/-- A page on `list_LRU` whose entry is in the table of its process is in memory. -/
theorem resident (hholder : w.holder = none)
    (hmem : vict ∈ w.vm.listLRU) (htable : w.vm.getPge vict.thread v = some vict.pge) :
    A vict.thread v = .framed .resident vict.pge vict.kaddr := by
  obtain ⟨x, hx⟩ := (h.tables.onList vict).mp hmem
  obtain ⟨st, hst, hlisted⟩ := Life.entry_of_onList hx
  rw [h.tables.table] at htable
  obtain ⟨-, rfl⟩ := h.tables.entry_inj (Life.entry_of_table htable) (u := vict.thread) (x := x)
    (by rw [hst]; rfl)
  rw [hst] at htable ⊢
  cases st with
  | resident => rfl
  | evicting =>
    obtain ⟨u, job, hu⟩ := h.places.evicting hst
    cases hholder.symm.trans (h.places.holder (congrArg Pc.victim hu))
  | loading => cases hlisted
  | paged => cases hlisted
  | installed => cases hlisted
  | ready => cases hlisted
  | _ => cases htable

theorem getVictim {job : Job} (hpc : w.pc t = .replace job)
    (hholder : w.holder = none) (hmem : vict ∈ w.vm.listLRU)
    (htable : w.vm.getPge vict.thread v = some vict.pge) :
    Inv ({ w with holder := some t }.goto t (.chosen job vict)) A :=
  ⟨h.tables, (hholder ▸ h.places).choose hpc (h.resident hholder hmem htable), h.frames, h.own,
    h.slots⟩

theorem writeBack {job : Job} (hpc : w.pc t = .chosen job vict)
    (hs : w.writeBack t job vict = some w') : ∃ A', w'.Inv A' := by
  simp only [World.writeBack, bind_eq_some, Prod.exists, pure_eq_some] at hs
  obtain ⟨pd, -, entry, hentry, s', entry', hback, rfl⟩ := hs
  obtain ⟨v, hv⟩ := h.places.chosen hpc
  obtain ⟨hvaddr, hloaded⟩ := h.tables.describes hv rfl hentry rfl
  have hslots : Slots (w.vm.setPge vict.pge (some entry')) w.history
      (A.set vict.thread v (.framed .evicting vict.pge vict.kaddr)) :=
    h.slots.write h.tables hv rfl (.inl rfl)
  have htables : entry'.vaddr = entry.vaddr → entry'.isLoaded = entry.isLoaded →
      Tables (w.vm.setPge vict.pge (some entry'))
        (A.set vict.thread v (.framed .evicting vict.pge vict.kaddr)) := fun hvaddr' hloaded' ↦
    h.tables.write hv rfl rfl rfl rfl rfl rfl fun _ ↦
      ⟨hvaddr'.trans hvaddr, hloaded'.trans hloaded⟩
  have hframes : Frames w.history
      (A.set vict.thread v (.framed .evicting vict.pge vict.kaddr)) :=
    h.frames.set hv rfl
  rcases writeBack_spec hback with ⟨hclean, rfl, rfl⟩ | ⟨hdirty, swap, slot, hout, rfl, rfl⟩
  · rw [if_pos hclean]
    exact ⟨_, htables rfl rfl, h.places.save hpc hv, hframes, h.own, hslots⟩
  · rw [if_neg hdirty]
    obtain ⟨-, -, -, hother⟩ := Swap.swapOut_spec hout
    refine ⟨_, (htables rfl rfl).same rfl rfl rfl rfl, h.places.save hpc hv,
      ⟨hframes.held, hframes.free⟩, h.own, fun u n hn huse howner ↦ ?_⟩
    replace howner : update w.history.slotOwner slot (some vict.thread) n = some u :=
      howner
    by_cases hslot : n = slot
    · -- The slot of the victim.
      subst hslot
      rw [update_self, some_inj] at howner
      subst howner
      exact ⟨v, vict.pge, _, by rw [Lives.set_self]; rfl, by rw [Lives.set_self]; rfl,
        update_self .., rfl, rfl⟩
    · rw [update_of_ne hslot] at howner
      exact hslots u n hn ((hother n hn hslot).mp huse) howner

theorem freeVictim {job : Job} (hpc : w.pc t = .saved job vict)
    (hs : w.freeVictim t job vict = some w') : ∃ A', w'.Inv A' := by
  simp only [World.freeVictim, bind_eq_some, pure_eq_some] at hs
  obtain ⟨entry, hentry, s', hfree, rfl⟩ := hs
  obtain ⟨v, hv⟩ := h.places.saved hpc
  have he : (A vict.thread v).entry = some vict.pge := by rw [hv]; rfl
  obtain ⟨hvaddr, hloaded⟩ := h.tables.describes hv rfl hentry rfl
  obtain ⟨entry', hentry', hfreed⟩ := freePage_spec hfree
  simp only [setPge, update_self, some_inj] at hentry'
  subst hentry'
  replace hfreed : Freed (w.vm.setPge vict.pge (some { entry with isLoaded := false })) vict v s' :=
    hvaddr ▸ hfreed
  have hslots : Slots s' w.history (A.set vict.thread v (.unframed .unloaded vict.pge)) := by
    refine h.slots.set h.tables (fun n _ hn ↦ hfreed.swap ▸ hn) rfl (fun e x hne hx ↦ ?_) ?_
    · rw [hfreed.heap]
      refine (update_of_ne ?_ _ _).trans hx
      rintro rfl
      exact hne he
    · intro e x he' _ hx htype _ _
      cases he.symm.trans he'
      cases hentry.symm.trans hx
      refine ⟨rfl, rfl, { entry with isLoaded := false }, ?_, htype, rfl⟩
      rw [hfreed.heap]
      exact update_self ..
  refine ⟨_, h.tables.free hv rfl rfl hfreed fun _ ↦ ⟨hvaddr, rfl⟩,
    h.places.unload hpc hv fun {x} hx ↦ ?_, h.frames.give h.tables hv rfl rfl, h.own, hslots⟩
  exact (h.tables.entry_inj (e := vict.pge) (by rw [hx]; rfl) he).2

/-! ### An exit -/

/-- What an exit does to a page: one with a frame keeps it for now. -/
theorem pop (hpc : w.pc t = .exiting) (hget : w.vm.getPge t v = some pge)
    (hfree : ∀ {u vict}, (w.pc u).victim = some vict → vict.pge ≠ pge) :
    ∃ A', Inv ({ w with vm := w.vm.popPge t v }.goto t (.popped pge)) A' := by
  have hset := h.settled (.inr hpc) v
  have hrest : ∀ x, x ≠ v → (A t x).Settled := fun x _ ↦ h.settled (.inr hpc) x
  have hvict : (w.pc t).victim = none := by rw [hpc]; rfl
  rw [h.tables.table] at hget
  have he := Life.entry_of_table hget
  have hnot : ∀ {u vict}, (w.pc u).victim = some vict → vict.thread = t →
      (A t v).entry ≠ some vict.pge := by
    intro u vict hu _ he'
    exact hfree hu (some_inj.mp (he'.symm.trans he))
  cases hv : A t v with
  | absent =>
    rw [hv] at hget
    cases hget
  | unframed st e =>
    rw [hv] at hset he
    cases hset
    cases he
    exact ⟨A.set t v (.unframed .popped pge),
      h.tables.pop hv rfl rfl rfl rfl rfl fun _ hd ↦ hd,
      h.places.move hrest (.inl rfl) nofun hvict rfl hnot nofun, h.frames.set hv rfl, h.own,
      h.slots.keep h.tables hv rfl rfl rfl fun _ ↦ ⟨rfl, rfl⟩⟩
  | framed st e f =>
    rw [hv] at hset he
    cases he
    have hst : st = .resident := by
      refine hset.resolve_right ?_
      rintro rfl
      obtain ⟨u, job, hu⟩ := h.places.evicting hv
      exact hfree (congrArg Pc.victim hu) rfl
    subst hst
    exact ⟨A.set t v (.framed .popped pge f),
      h.tables.pop hv rfl rfl rfl rfl rfl fun _ hd ↦ hd,
      h.places.move hrest (.inr ⟨f, rfl⟩) nofun hvict rfl hnot nofun, h.frames.set hv rfl, h.own,
      h.slots.leave h.tables hv rfl rfl rfl rfl⟩

theorem swapClear {swap : Swap} (hpc : w.pc t = .popped pge)
    (hentry : w.vm.heap pge = some entry) (hs : w.vm.swap.swapClear entry.swapSlot = some swap) :
    ∃ A', Inv ({ w with vm := { w.vm with swap } }.goto t (.cleared pge)) A' := by
  obtain ⟨v, hexp, hrest⟩ := h.here hpc
  have hbits := Swap.swapClear_spec hs
  have htables : Tables { w.vm with swap } A := h.tables.same rfl rfl rfl rfl
  -- The page is out of its slot, if it was in one.
  have hslots : ∀ {new : Life}, (A t v).entry = some pge →
      Slots { w.vm with swap } w.history (A.set t v new) := by
    intro new he
    refine h.slots.set h.tables (fun n hn huse ↦ ((hbits n hn).mp huse).2) rfl
      (fun _ _ _ hx ↦ hx) ?_
    intro e x he' _ hx _ hn huse
    cases he.symm.trans he'
    cases hentry.symm.trans hx
    exact absurd rfl ((hbits _ hn).mp huse).1
  rcases hexp with hv | ⟨f, hv⟩
  · exact ⟨_, h.move (.unframed .leaving pge) hpc hv hrest (.inl rfl)
      (htables.relabel hv rfl rfl rfl rfl rfl fun _ hd ↦ hd)
      (h.frames.set hv rfl) rfl (hslots (by rw [hv]; rfl)) (by simp [Pc.victim])⟩
  · exact ⟨_, h.move (.framed .leaving pge f) hpc hv hrest (.inr ⟨f, rfl⟩)
      (htables.relabel hv rfl rfl rfl rfl rfl fun _ hd ↦ hd)
      (h.frames.set hv rfl) rfl (hslots (by rw [hv]; rfl)) (by simp [Pc.victim])⟩

theorem lookup {pd : PageDir} (hpc : w.pc t = .cleared pge)
    (hentry : w.vm.heap pge = some entry) (hpd : (w.vm.procs t).pagedir = some pd) :
    (w.goto t (.lookedUp pge (pd.getPage entry.vaddr))).Inv A := by
  obtain ⟨v, hexp, hrest⟩ := h.here hpc
  have hframe : pd.getPage v = (A t v).mapping := by
    rw [← h.tables.mapping, frameOf, hpd]
    rfl
  refine ⟨h.tables, h.places.goto hrest ?_ (by simp) (by rw [hpc]; rfl) rfl, h.frames, h.own,
    h.slots⟩
  rcases hexp with hv | ⟨f, hv⟩
  · refine .inl ⟨hv, ?_⟩
    rw [(h.tables.describes hv rfl hentry rfl).1, hframe, hv]
    rfl
  · refine .inr ⟨f, hv, ?_⟩
    rw [(h.tables.describes hv rfl hentry rfl).1, hframe, hv]
    rfl

theorem freeFound {k : Option Nat} (hpc : w.pc t = .lookedUp pge k)
    (hs : w.freeFound t pge k = some w') : ∃ A', w'.Inv A' := by
  simp only [World.freeFound, bind_eq_some, assert_eq_some] at hs
  obtain ⟨_, hholder, hs⟩ := hs
  obtain ⟨v, hexp, hrest⟩ := h.here hpc
  rcases hexp with ⟨hv, rfl⟩ | ⟨f, hv, rfl⟩
  · -- The page is not in memory.
    cases hs
    exact ⟨_, h.move (.unframed .dropped pge) hpc hv hrest rfl
      (h.tables.relabel hv rfl rfl rfl rfl rfl fun _ _ hset ↦ by cases hset)
      (h.frames.set hv rfl) rfl (h.slots.leave h.tables hv rfl rfl rfl rfl) (by simp [Pc.victim])⟩
  · -- The frame that has been looked up is still that of the page.
    rw [bind_some, h.tables.findPage hv rfl] at hs
    simp only [bind_eq_some, pure_eq_some] at hs
    obtain ⟨s', hfree, rfl⟩ := hs
    obtain ⟨entry, hentry, hfreed⟩ := freePage_spec hfree
    rw [(h.tables.describes hv rfl hentry rfl).1] at hfreed
    have hframes : Frames (w.history.free t f) (A.set t v (.unframed .dropped pge)) :=
      h.frames.give h.tables hv rfl rfl
    refine ⟨A.set t v (.unframed .dropped pge), ?_, ?_, ⟨hframes.held, hframes.free⟩, ?_,
      h.slots.leave h.tables hv hfreed.swap hfreed.heap rfl rfl⟩
    · exact h.tables.free hv rfl rfl (setPge_self hentry ▸ hfreed) (by rintro ⟨⟩)
    · refine h.places.move hrest rfl (by simp) (by rw [hpc]; rfl) rfl (h.not_victim fun _ _ ↦ ?_)
        (by simp)
      rw [hv]
      exact ⟨by rintro ⟨⟩, by rintro ⟨⟩⟩
    · intro u p hp
      rcases mem_cons.mp hp with heq | hp
      · cases heq
        rfl
      · exact h.own hp

theorem freeEntry (hpc : w.pc t = .unlisted pge) :
    ∃ A', Inv ({ w with vm := w.vm.setPge pge none }.goto t .exiting) A' := by
  obtain ⟨v, hexp, hrest⟩ := h.here hpc
  have hv : A t v = .unframed .dropped pge := hexp
  refine ⟨_, h.move .absent hpc hv hrest trivial ?_
    (h.frames.set hv rfl) rfl (h.slots.write h.tables hv rfl (.inl rfl)) (by simp [Pc.victim])⟩
  exact h.tables.release hv rfl (fun _ _ ↦ rfl) (fun _ _ ↦ rfl) rfl
    (fun e he ↦ update_of_ne he _ _) rfl

/-- Nothing is left for `pagedir_destroy` to free. -/
theorem destroy (hpc : w.pc t = .exiting) (hs : w.destroy t = some w') : ∃ A', w'.Inv A' := by
  simp only [World.destroy, bind_eq_some, assert_eq_some] at hs
  obtain ⟨_, hempty, hs⟩ := hs
  have habsent : ∀ x, A t x = .absent := by
    refine fun x ↦ h.absent (.inr hpc) (eq_none_iff_forall_not_mem.mpr fun e he ↦ ?_)
    have hmem := mem_tableOf.mpr he
    rw [hempty] at hmem
    cases hmem
  have hgoto : (w.goto t .gone).Inv A := by
    refine ⟨h.tables, h.places.goto (v := 0) (fun x _ ↦ h.settled (.inr hpc) x) (habsent 0)
      (fun _ ↦ habsent) (by rw [hpc]; rfl) rfl, h.frames, h.own, h.slots⟩
  split at hs
  · cases hs
    exact ⟨A, hgoto⟩
  · next pd hpd =>
    have hnone : ∀ pte ∈ pd.entries.map Sigma.snd, pte.present = false := by
      intro pte hpte
      obtain ⟨⟨x, pte'⟩, hmem, rfl⟩ := mem_map.mp hpte
      by_contra hpresent
      have hlook : pd.lookup x = some pte' := AList.mem_lookup_iff.mpr hmem
      have hframe : w.vm.frameOf t x = some pte'.kpage := by
        simp_all [frameOf, PageDir.getPage]
      rw [h.tables.mapping, habsent] at hframe
      cases hframe
    rw [pagedirDestroy_of_absent hnone, filter_eq_nil_iff.mpr] at hs
    · simp only [foldl_nil, some_bind, pure_eq_some] at hs
      subst hs
      refine ⟨A, hgoto.tables.congr (fun u x ↦ ?_) (fun u x ↦ ?_) rfl
        (fun _ x hx ↦ ⟨x, hx, rfl, rfl⟩) (fun _ hf ↦ hf), hgoto.places, h.frames, h.own, h.slots⟩
      · by_cases hu : u = t <;> simp [getPge, setProc, hu, World.goto]
      · by_cases hu : u = t
        · subst hu
          show _ = w.vm.frameOf u x
          rw [h.tables.mapping, habsent]
          simp [frameOf, setProc, World.goto, Life.mapping]
        · simp [frameOf, setProc, hu, World.goto]
    · exact fun pte hpte hpresent ↦ Bool.false_ne_true ((hnone pte hpte).symm.trans hpresent)

/-! ### Beginning -/

theorem create (hpc : w.pc t = .gone) :
    Inv ({ w with vm := (w.vm.initThread t).setPagedir t ∅ }.goto t .user) A := by
  have habsent := h.places.gone hpc
  refine ⟨h.tables.congr (fun u x ↦ ?_) (fun u x ↦ ?_) rfl (fun _ x hx ↦ ⟨x, hx, rfl, rfl⟩)
    fun _ hf ↦ hf, h.places.goto (v := 0) (fun x _ ↦ ?_) ?_ nofun (by rw [hpc]; rfl) rfl, h.frames,
    h.own, h.slots⟩
  · by_cases hu : u = t
    · subst hu
      rw [h.tables.table, habsent]
      simp [getPge, setPagedir, setProc, initThread, World.goto, Life.table]
    · simp [getPge, setPagedir, setProc, initThread, World.goto, hu]
  · by_cases hu : u = t
    · subst hu
      rw [h.tables.mapping, habsent]
      simp [frameOf, setPagedir, setProc, initThread, World.goto, Life.mapping, PageDir.getPage]
    · simp [frameOf, setPagedir, setProc, initThread, World.goto, hu]
  · rw [habsent]
    trivial
  · rw [habsent]
    trivial

theorem loadPage (hpc : w.pc t = .user) (hfresh : entry.Fresh) (hfree : w.vm.heap pge = none) :
    ∃ A', Inv { w with vm := (w.vm.setPge pge (some entry)).insertPge t entry.vaddr pge } A' := by
  have hne : ∀ e x, w.vm.heap e = some x → e ≠ pge := by
    rintro e x hx rfl
    cases hfree.symm.trans hx
  have hheap : ∀ e x, w.vm.heap e = some x → (w.vm.setPge pge (some entry)).heap e = some x :=
    fun e x hx ↦ (update_of_ne (hne e x hx) _ _).trans hx
  cases hget : w.vm.getPge t entry.vaddr with
  | some e =>
    -- There is an entry for the page, and the block is lost.
    have hsame : (w.vm.setPge pge (some entry)).insertPge t entry.vaddr pge =
        w.vm.setPge pge (some entry) := by
      rw [insertPge, getPge_setPge, hget]
    rw [hsame]
    exact ⟨A, h.tables.congr (fun _ _ ↦ rfl) (fun _ _ ↦ rfl) rfl
      (fun e x hx ↦ ⟨x, hheap e x hx, rfl, rfl⟩) (fun _ hf ↦ hf), h.places, h.frames, h.own,
      h.slots.congr rfl hheap⟩
  | none =>
    have hv := h.absent (.inl hpc) hget
    refine ⟨A.set t entry.vaddr (.unframed .unloaded pge), ?_, ?_, h.frames.set hv rfl,
      h.own, ?_⟩
    · refine h.tables.insert hv rfl rfl rfl rfl rfl (fun e _ hsome ↦ ?_) (fun e he ↦ ?_) rfl rfl rfl
      · obtain ⟨x, hx⟩ := ne_none_iff_exists'.mp hsome
        rw [hx, hheap e x hx]
      · cases he
        exact ⟨.inr hfree, entry, update_self .., fun _ ↦ ⟨rfl, hfresh.2.1⟩⟩
    · have hplaces : Places (update w.pc t .user) w.holder
          (A.set t entry.vaddr (.unframed .unloaded pge)) :=
        h.places.move (fun x _ ↦ h.settled (.inl hpc) x) rfl nofun (by rw [hpc]; rfl) rfl
          (h.not_victim fun _ _ ↦ by rw [hv]; exact ⟨nofun, nofun⟩) nofun
      rwa [← hpc, update_eq_self] at hplaces
    · refine h.slots.set h.tables (fun n _ hn ↦ ?_) rfl (fun e x _ hx ↦ ?_) fun _ _ he ↦ ?_
      · rwa [insertPge_swap] at hn
      · rw [insertPge_heap]
        exact hheap e x hx
      · rw [hv] at he
        cases he

theorem access {upage : Nat} {store : Option (Nat × UInt8)}
    (hs : w.vm.access t upage store = some s') : Inv { w with vm := s' } A := by
  obtain ⟨-, hheap, hget, hframe, hlist, hpool, hswap⟩ := access_spec hs
  exact ⟨h.tables.congr hget hframe hlist (fun e x hx ↦ ⟨x, hheap ▸ hx, rfl, rfl⟩)
    fun _ hf ↦ hpool ▸ hf, h.places, h.frames, h.own, h.slots.congr hswap fun e x hx ↦ hheap ▸ hx⟩

theorem pageFault (hpc : w.pc t = .user) (hget : w.vm.getPge t v = some pge)
    (hframe : w.vm.frameOf t v = none) : (w.goto t (.mallocPage (.fault pge))).Inv A := by
  have hset := h.settled (.inl hpc) v
  rw [h.tables.table] at hget
  rw [h.tables.mapping] at hframe
  have hv : A t v = .unframed .unloaded pge := by
    cases hl : A t v with
    | absent =>
      rw [hl] at hget
      cases hget
    | unframed st e =>
      rw [hl] at hset hget
      cases hset
      cases hget
      rfl
    | framed st e f =>
      rw [hl] at hset hframe
      rcases hset with rfl | rfl <;> cases hframe
  exact ⟨h.tables, h.places.goto (v := v) (fun x _ ↦ h.settled (.inl hpc) x) hv nofun
    (by rw [hpc]; rfl) rfl, h.frames, h.own, h.slots⟩

end

end Inv

/-- What the paging functions rely on, and nobody sees to: no segment of the program covers the
stack page; a victim has been set up, and its process does not give it up; and a process does not
give a page up while it is being evicted. -/
def Careful (w : World) (t : Nat) : Act → Prop
  | .setupStack .. => w.vm.getPge t (physBase - pgSize) = none
  | .getVictim vict => vict.pge ∈ (w.vm.tableOf vict.thread).map Prod.snd
  | .pop vaddr => ∀ u ∈ w.holder, ∀ vict ∈ (w.pc u).victim, w.vm.getPge t vaddr ≠ some vict.pge
  | _ => True

instance (w : World) (t : Nat) (act : Act) : Decidable (w.Careful t act) := by
  cases act <;> unfold Careful <;> infer_instance

/-- **Every step keeps the invariant.** -/
theorem Inv.step {files : Nat → FileImage} {w w' : World} {t : Nat} {act : Act} (h : w.Inv A)
    (hc : w.Careful t act) (hs : w.step files t act = some w') : ∃ A', w'.Inv A' := by
  rw [World.step.eq_def] at hs
  split at hs
  · next hpc =>
    cases hs
    exact ⟨A, h.create hpc⟩
  · next entry pge hpc =>
    simp only [bind_eq_some, assert_eq_some, pure_eq_some] at hs
    obtain ⟨_, ⟨hfresh, hfree⟩, rfl⟩ := hs
    exact h.loadPage hpc hfresh hfree
  · next upage store hpc =>
    simp only [bind_eq_some, pure_eq_some] at hs
    obtain ⟨s', haccess, rfl⟩ := hs
    exact ⟨A, h.access haccess⟩
  · next pge garbage hpc => exact h.mallocEntry hpc hc hs
  · next addr pge garbage hpc =>
    simp only [bind_eq_some, assert_eq_some] at hs
    obtain ⟨_, hnone, hs⟩ := hs
    exact h.mallocEntry hpc hnone hs
  · next addr hpc =>
    simp only [bind_eq_some, assert_eq_some, pure_eq_some] at hs
    obtain ⟨pge, hget, _, hframe, rfl⟩ := hs
    exact ⟨A, h.pageFault hpc hget hframe⟩
  · next job hpc =>
    cases hs
    exact ⟨A, h.goto (by rw [hpc]; rfl) rfl (by rintro ⟨⟩) fun v life hexp ↦ by rwa [hpc] at hexp⟩
  · next upage pge hpc =>
    cases hs
    exact h.mallocPage_false hpc
  · next job hpc => exact h.getPage hpc hs
  · next job vict hpc =>
    simp only [bind_eq_some, assert_eq_some, pure_eq_some] at hs
    obtain ⟨_, ⟨hholder, hmem⟩, rfl⟩ := hs
    obtain ⟨⟨v, e⟩, hve, rfl⟩ := mem_map.mp hc
    exact ⟨A, h.getVictim hpc hholder hmem (mem_tableOf.mp hve)⟩
  · next job vict hpc => exact h.writeBack hpc hs
  · next job vict hpc => exact h.freeVictim hpc hs
  · next upage pge kaddr hpc => exact h.addPage_stack hpc hs
  · next upage pge kaddr table hpc => exact h.installPage_stack hpc hs
  · next upage pge kaddr hpc =>
    cases hs
    exact h.fill hpc
  · next upage pge kaddr hpc =>
    simp only [bind_eq_some, pure_eq_some] at hs
    obtain ⟨entry, hentry, rfl⟩ := hs
    exact h.insert hpc hentry
  · next pge kaddr hpc =>
    simp only [bind_eq_some, pure_eq_some] at hs
    obtain ⟨entry, hentry, s', hin, rfl⟩ := hs
    exact h.pageIn hpc hentry hin
  · next pge kaddr table hpc =>
    simp only [bind_eq_some] at hs
    obtain ⟨entry, hentry, hs⟩ := hs
    exact h.installPage_fault hpc hentry hs
  · next pge kaddr hpc =>
    simp only [bind_eq_some, pure_eq_some] at hs
    obtain ⟨entry, hentry, rfl⟩ := hs
    exact h.setLoaded hpc hentry
  · next pge kaddr hpc => exact h.addPage_fault hpc hs
  · next hpc =>
    cases hs
    exact ⟨A, h.goto (by rw [hpc]; rfl) rfl (by rintro ⟨⟩) fun v life hexp ↦ by rwa [hpc] at hexp⟩
  · next vaddr hpc =>
    simp only [bind_eq_some, pure_eq_some] at hs
    obtain ⟨pge, hget, rfl⟩ := hs
    refine h.pop hpc hget fun {u vict} hu heq ↦ ?_
    exact hc u (h.places.holder hu) vict hu (heq ▸ hget)
  · next pge hpc =>
    simp only [bind_eq_some, pure_eq_some] at hs
    obtain ⟨entry, hentry, swap, hclear, rfl⟩ := hs
    exact h.swapClear hpc hentry hclear
  · next pge hpc =>
    simp only [bind_eq_some, pure_eq_some] at hs
    obtain ⟨entry, hentry, pd, hpd, rfl⟩ := hs
    exact ⟨A, h.lookup hpc hentry hpd⟩
  · next pge kaddr hpc => exact h.freeFound hpc hs
  · next pge hpc =>
    cases hs
    exact h.freeEntry hpc
  · next hpc => exact h.destroy hpc hs
  · cases hs

theorem inv_boot (frames slots : Nat) (block : Block) :
    (boot frames slots block).Inv fun _ _ ↦ .absent := by
  refine ⟨?_, ?_, ⟨nofun, fun _ ↦ rfl⟩, nofun, nofun⟩
  · exact ⟨fun _ _ ↦ rfl, fun _ _ ↦ rfl, fun p ↦ ⟨nofun, nofun⟩, nodup_nil, nofun, nofun,
      nofun, nofun⟩
  · exact ⟨fun _ ↦ ⟨0, rfl, fun _ _ ↦ trivial⟩, fun _ _ ↦ rfl, nofun, nofun, nofun, nofun⟩

section

variable {files : Nat → FileImage} {frames slots : Nat} {block : Block} {acts : List (Nat × Act)}
  {w : World}

theorem exists_inv
    (hcareful : Run.Meets (move files) (fun w a ↦ w.Careful a.1 a.2) (boot frames slots block) acts)
    (hrun : Run.run (move files) (boot frames slots block) acts = some w) : ∃ A, w.Inv A :=
  Run.invariant (I := fun w ↦ ∃ A, w.Inv A) (fun _ _ _ ⟨_, h⟩ hc hs ↦ h.step hc hs)
    ⟨_, inv_boot frames slots block⟩ hcareful hrun

end

end World

/-! ## The frame table -/

/-- `list_LRU`, the tables and the page directories agree. -/
structure Agree (s : Vm) : Prop where
  kaddr : (s.listLRU.map Page.kaddr).Nodup
  page : ∀ p ∈ s.listLRU, ∃ entry, s.heap p.pge = some entry ∧
    s.getPge p.thread entry.vaddr = some p.pge ∧ entry.isLoaded = true ∧
    s.frameOf p.thread entry.vaddr = some p.kaddr
  loaded : ∀ t v e entry, s.getPge t v = some e → s.heap e = some entry → entry.isLoaded = true →
    ∃! p, p ∈ s.listLRU ∧ p.thread = t ∧ p.pge = e

/-- A page in this state is in one table and not in another. -/
def Life.exposed : Life → Bool
  | .framed .listed _ _ | .framed .stacked _ _ | .framed .filled _ _ | .framed .ready _ _
  | .framed .popped _ _ | .framed .leaving _ _ => true
  | _ => false

theorem Life.exposed_of_settled {l : Life} (h : l.Settled) : l.exposed = false := by
  cases l with
  | absent => rfl
  | unframed st e => rfl
  | framed st e f => rcases h with rfl | rfl <;> rfl

/-- A page on `list_LRU` is that of a state. -/
theorem Tables.of_mem {p : Page} (h : Tables s A) (hp : p ∈ s.listLRU) :
    ∃ v st, A p.thread v = .framed st p.pge p.kaddr ∧ st.isListed = true := by
  obtain ⟨v, hv⟩ := (h.onList p).mp hp
  obtain ⟨st, hst, hlisted⟩ := Life.entry_of_onList hv
  exact ⟨v, st, hst, hlisted⟩

theorem Tables.mem {e f : Nat} {st : Framed} (h : Tables s A)
    (hv : A t v = .framed st e f) (hst : st.isListed = true) : (⟨f, e, t⟩ : Page) ∈ s.listLRU := by
  refine (h.onList _).mpr ⟨v, ?_⟩
  rw [hv, Life.onList, hst, if_pos rfl]

/-- A page that is on `list_LRU` and not in its table shows that the tables do not agree. -/
theorem Agree.inTable {e f : Nat} {st : Framed} (h : s.Agree) (hT : Tables s A)
    (hv : A t v = .framed st e f) (hst : st.isListed = true) : st.inTable = true := by
  obtain ⟨entry, -, hget, -, -⟩ := h.page _ (hT.mem hv hst)
  dsimp only at hget
  rw [hT.table] at hget
  obtain ⟨-, hx⟩ := hT.entry_inj (Life.entry_of_table hget) (u := t) (x := v) (by rw [hv]; rfl)
  rw [hx, hv, Life.table] at hget
  by_contra hnot
  rw [if_neg hnot] at hget
  cases hget

/-- So does a page that is loaded and not on `list_LRU`. -/
theorem Agree.isListed {e f : Nat} {st : Framed} (h : s.Agree) (hT : Tables s A)
    (hv : A t v = .framed st e f) (hset : st.isSet = true) (htable : st.inTable = true)
    (hloaded : st.isLoaded = true) : st.isListed = true := by
  have he : (A t v).entry = some e := by rw [hv]; rfl
  obtain ⟨entry, hentry, hd⟩ := hT.heap he
  rw [hv] at hd
  have hget : s.getPge t v = some e := by rw [hT.table, hv, Life.table, htable, if_pos rfl]
  obtain ⟨p, ⟨hp, rfl, rfl⟩, -⟩ := h.loaded t v e entry hget hentry ((hd hset).2.trans hloaded)
  obtain ⟨x, st', hst', hlisted⟩ := hT.of_mem hp
  obtain ⟨-, rfl⟩ := hT.entry_inj he (u := p.thread) (x := x) (by rw [hst']; rfl)
  cases hv.symm.trans hst'
  exact hlisted

/-- No two pages on `list_LRU` have one frame. -/
theorem Tables.nodup_kaddr (h : Tables s A) : (s.listLRU.map Page.kaddr).Nodup := by
  refine h.nodup.map_on fun p hp q hq heq ↦ ?_
  obtain ⟨x, st, hst, -⟩ := h.of_mem hp
  obtain ⟨y, st', hst', -⟩ := h.of_mem hq
  obtain ⟨ht, rfl⟩ := h.frame_inj (t := p.thread) (v := x) (u := q.thread) (x := y)
    (f := p.kaddr) (by rw [hst]; rfl) (by rw [hst', heq]; rfl)
  rw [ht, hst'] at hst
  cases p
  cases q
  cases hst
  cases ht
  rfl

theorem Agree.not_exposed (h : s.Agree) (hT : Tables s A) (t v : Nat) :
    (A t v).exposed = false := by
  cases hv : A t v with
  | absent => rfl
  | unframed st e => rfl
  | framed st e f =>
    cases st with
    | listed => cases h.inTable hT hv rfl
    | stacked => cases h.inTable hT hv rfl
    | filled => cases h.inTable hT hv rfl
    | popped => cases h.inTable hT hv rfl
    | leaving => cases h.inTable hT hv rfl
    | ready => cases h.isListed hT hv rfl rfl rfl
    | _ => rfl

section

variable {s : Vm} {e f : Nat} (h : Tables s A) (hno : ∀ t v e f, A t v ≠ .framed .evicting e f)
  (hexp : ∀ t v, (A t v).exposed = false)

include hno hexp

/-- What is on `list_LRU` is in memory. -/
theorem Life.resident_of_isListed {st : Framed} (hv : A t v = .framed st e f)
    (hlisted : st.isListed = true) : st = .resident := by
  have hexp := hexp t v
  rw [hv] at hexp
  cases st with
  | resident => rfl
  | evicting => exact absurd hv (hno t v e f)
  | taken => cases hlisted
  | loading => cases hlisted
  | paged => cases hlisted
  | installed => cases hlisted
  | _ => cases hexp

include h

/-- So is what is loaded. -/
theorem Tables.resident_of_isLoaded (hget : s.getPge t v = some e)
    (hentry : s.heap e = some entry) (hloaded : entry.isLoaded = true) :
    ∃ f, A t v = .framed .resident e f := by
  rw [h.table] at hget
  have he := Life.entry_of_table hget
  have hd := h.describes rfl he hentry
  cases hv : A t v with
  | absent =>
    rw [hv] at hget
    cases hget
  | unframed st e' =>
    rw [hv] at hd hget
    cases st with
    | unloaded => cases (hd rfl).2.symm.trans hloaded
    | _ => cases hget
  | framed st e' f =>
    have hexp := hexp t v
    rw [hv] at hd hget hexp he
    cases he
    cases st with
    | resident => exact ⟨f, rfl⟩
    | evicting => exact absurd hv (hno t v e f)
    | ready => cases hexp
    | loading => cases (hd rfl).2.symm.trans hloaded
    | paged => cases (hd rfl).2.symm.trans hloaded
    | installed => cases (hd rfl).2.symm.trans hloaded
    | _ => cases hget

theorem Tables.agree : s.Agree := by
  refine ⟨h.nodup_kaddr, fun p hp ↦ ?_, fun t v e entry hget hentry hloaded ↦ ?_⟩
  · obtain ⟨v, st, hv, hlisted⟩ := h.of_mem hp
    obtain rfl := Life.resident_of_isListed hno hexp hv hlisted
    obtain ⟨entry, hentry, hd⟩ := h.heap (t := p.thread) (v := v) (e := p.pge) (by rw [hv]; rfl)
    rw [hv] at hd
    obtain ⟨rfl, hloaded⟩ := hd rfl
    refine ⟨entry, hentry, ?_, hloaded, ?_⟩
    · rw [h.table, hv]
      rfl
    · rw [h.mapping, hv]
      rfl
  · obtain ⟨f, hv⟩ := h.resident_of_isLoaded hno hexp hget hentry hloaded
    refine ⟨⟨f, e, t⟩, ⟨h.mem hv rfl, rfl, rfl⟩, ?_⟩
    rintro ⟨f', e', t'⟩ ⟨hp, rfl, rfl⟩
    obtain ⟨x, st, hst, -⟩ := h.of_mem hp
    obtain ⟨-, rfl⟩ := h.entry_inj (t := t') (v := v) (u := t') (x := x) (e := e')
      (by rw [hv]; rfl) (by rw [hst]; rfl)
    cases hv.symm.trans hst
    rfl

end

namespace World

/-- Thread `t` is where one of its pages is in one table and not in another. -/
def Exposed (w : World) (t : Nat) : Prop :=
  match w.pc t with
  | .added .. | .installed .. | .filled .. | .loaded .. => True
  | .popped pge | .cleared pge | .lookedUp pge _ =>
    ∃ entry, w.vm.heap pge = some entry ∧ entry.isLoaded = true
  | _ => False

/-- The entry of a page that an exit gives up is loaded if and only if the page has a frame. -/
theorem Inv.loaded_iff {w : World} {pge : Nat} {st : Unframed} {st' : Framed} (h : w.Inv A)
    (hset : st.isSet = true) (hset' : st'.isSet = true) (hloaded' : st'.isLoaded = true)
    (hv : A t v = .unframed st pge ∨ ∃ f, A t v = .framed st' pge f) :
    (∃ entry, w.vm.heap pge = some entry ∧ entry.isLoaded = true) ↔
      ∃ f, A t v = .framed st' pge f := by
  have he : (A t v).entry = some pge := by
    rcases hv with hv | ⟨f, hv⟩ <;> rw [hv] <;> rfl
  obtain ⟨entry, hentry, hd⟩ := h.tables.heap he
  constructor
  · rintro ⟨entry', hentry', hloaded⟩
    cases hentry.symm.trans hentry'
    refine hv.resolve_left fun hv ↦ ?_
    rw [hv] at hd
    cases (hd hset).2.symm.trans hloaded
  · rintro ⟨f, hv⟩
    rw [hv] at hd
    exact ⟨entry, hentry, (hd hset').2.trans hloaded'⟩

/-- What the page that the thread is working on is like says whether the thread is exposed. -/
theorem Inv.exposed_here {w : World} (h : w.Inv A) (hexp : (w.pc t).Expects v (A t v)) :
    w.Exposed t ↔ (A t v).exposed = true := by
  have hfalse : (A t v).exposed = false → (False ↔ (A t v).exposed = true) := fun hno ↦ by
    rw [hno]
    exact ⟨nofun, nofun⟩
  have hwaits : ∀ {job : Job}, job.Waits v (A t v) → (A t v).exposed = false := by
    rintro (_ | _) hjob
    · rw [hjob.2]
      rfl
    · rw [show A t v = _ from hjob]
      rfl
  have hgiven : ∀ {st : Unframed} {st' : Framed} {pge : Nat},
      (∀ f, (Life.framed st' pge f).exposed = true) →
      (A t v = .unframed st pge ∨ ∃ f, A t v = .framed st' pge f) →
      ((∃ f, A t v = .framed st' pge f) ↔ (A t v).exposed = true) := by
    rintro st st' pge hst hv
    constructor
    · rintro ⟨f, hv⟩
      rw [hv]
      exact hst f
    · intro hx
      refine hv.resolve_left fun hv ↦ ?_
      rw [hv] at hx
      cases hx
  rw [Exposed]
  cases hpc : w.pc t <;> rw [hpc] at hexp <;> dsimp only
  case gone =>
    refine hfalse ?_
    rw [show A t v = _ from hexp]
    rfl
  case user => exact hfalse (Life.exposed_of_settled hexp)
  case exiting => exact hfalse (Life.exposed_of_settled hexp)
  case mallocPage => exact hfalse (hwaits hexp)
  case getPage => exact hfalse (hwaits hexp)
  case replace => exact hfalse (hwaits hexp)
  case chosen => exact hfalse (hwaits hexp)
  case saved => exact hfalse (hwaits hexp)
  case allocated job kaddr =>
    refine hfalse ?_
    cases job with
    | stack upage pge =>
      rw [hexp.2]
      rfl
    | fault pge =>
      rw [show A t v = _ from hexp]
      rfl
  case added =>
    rw [hexp.2]
    exact ⟨fun _ ↦ rfl, fun _ ↦ trivial⟩
  case installed =>
    rw [hexp.2]
    exact ⟨fun _ ↦ rfl, fun _ ↦ trivial⟩
  case filled =>
    rw [hexp.2]
    exact ⟨fun _ ↦ rfl, fun _ ↦ trivial⟩
  case pagedIn =>
    refine hfalse ?_
    rw [show A t v = _ from hexp]
    rfl
  case mapped =>
    refine hfalse ?_
    rw [show A t v = _ from hexp]
    rfl
  case loaded =>
    rw [show A t v = _ from hexp]
    exact ⟨fun _ ↦ rfl, fun _ ↦ trivial⟩
  case popped => exact (h.loaded_iff rfl rfl rfl hexp).trans (hgiven (fun _ ↦ rfl) hexp)
  case cleared => exact (h.loaded_iff rfl rfl rfl hexp).trans (hgiven (fun _ ↦ rfl) hexp)
  case lookedUp pge k =>
    have hexp' : A t v = .unframed .leaving pge ∨ ∃ f, A t v = .framed .leaving pge f :=
      hexp.imp (fun hv ↦ hv.1) fun ⟨f, hv⟩ ↦ ⟨f, hv.1⟩
    exact (h.loaded_iff rfl rfl rfl hexp').trans (hgiven (fun _ ↦ rfl) hexp')
  case unlisted =>
    refine hfalse ?_
    rw [show A t v = _ from hexp]
    rfl

theorem Inv.exposed_iff {w : World} (h : w.Inv A) : w.Exposed t ↔ ∃ v, (A t v).exposed = true := by
  obtain ⟨x, hexp, hrest⟩ := h.places.here t
  rw [h.exposed_here hexp]
  refine ⟨fun hx ↦ ⟨x, hx⟩, fun ⟨v, hv⟩ ↦ ?_⟩
  by_cases hvx : v = x
  · exact hvx ▸ hv
  · cases (Life.exposed_of_settled (hrest v hvx)).symm.trans hv

section

variable {files : Nat → FileImage} {frames slots : Nat} {block : Block} {acts : List (Nat × Act)}
  {w : World}

/-- **The frame table agrees with the tables of the processes exactly while no thread is between
two of its updates.** -/
theorem agree_iff_not_exposed
    (hcareful : Run.Meets (move files) (fun w a ↦ w.Careful a.1 a.2) (boot frames slots block) acts)
    (hrun : Run.run (move files) (boot frames slots block) acts = some w)
    (hfree : w.holder = none) : w.vm.Agree ↔ ∀ t, ¬ w.Exposed t := by
  obtain ⟨A, h⟩ := exists_inv hcareful hrun
  have hno : ∀ t v e f, A t v ≠ .framed .evicting e f := by
    intro t v e f hv
    obtain ⟨u, job, hu⟩ := h.places.evicting hv
    cases hfree.symm.trans (h.places.holder (congrArg Pc.victim hu))
  constructor
  · intro hagree t ht
    obtain ⟨v, hv⟩ := h.exposed_iff.mp ht
    cases (hagree.not_exposed h.tables t v).symm.trans hv
  · intro hall
    refine h.tables.agree hno fun t v ↦ ?_
    exact Bool.eq_false_iff.mpr fun hv ↦ hall t (h.exposed_iff.mpr ⟨v, hv⟩)

/-- What a block may hold that `malloc` returns: in the place of `vaddr` there is a pointer of its
free list. -/
def junk : PageEntry := ⟨.bin, 0xC0101010, false, false, 0, 0, 0, 0, 0⟩

/-- A machine with one frame and one swap slot. -/
def smallBoot : World := boot 1 1 ⟨8, fun _ _ ↦ 0⟩

/-- `setup_stack` of thread `t`, with the block `pge`. -/
def stackSteps (t pge : Nat) : List (Nat × Act) :=
  [(t, .setupStack pge junk), (t, .mallocPage true), (t, .getPage), (t, .addPage),
    (t, .installPage true), (t, .fill), (t, .insert)]

/-- `setup_stack` of thread `t`, which has to evict the page `vict`.  After `get_victim`, another
thread does `acts`. -/
def evictingSteps (t pge : Nat) (vict : Page) (acts : List (Nat × Act)) : List (Nat × Act) :=
  (stackSteps t pge).take 3 ++ (t, .getVictim vict) :: acts ++
    [(t, .writeBack), (t, .freeVictim)] ++ (stackSteps t pge).drop 2

/-- A page of a segment. -/
def segmentPage : PageEntry := ⟨.bin, 0x08048000, false, false, 0, 0, 0, 4096, 0⟩

/-- Process 1 has a page of a segment, and its stack page is in the only frame.  Process 2 takes it
away, and meanwhile process 1 begins to exit, and gives up the page of the segment. -/
def exitWhileEvicted : List (Nat × Act) :=
  (1, .create) :: (2, .create) :: (1, .loadPage segmentPage 4) :: stackSteps 1 5 ++
    evictingSteps 2 6 ⟨0, 5, 1⟩ [(1, .exit), (1, .pop 0x08048000)]

theorem agree_iff_not_exposed_evicted : ∃ w, Run.run (move noFiles) smallBoot exitWhileEvicted =
    some w ∧ w.vm.listLRU = [⟨0, 6, 2⟩] ∧ (w.vm.Agree ↔ ∀ t, ¬ w.Exposed t) := by
  have hcareful : Run.Meets (move noFiles) (fun w a ↦ w.Careful a.1 a.2) smallBoot
      exitWhileEvicted := by
    decide +kernel
  refine Run.exists_of_view (fun w ↦ (w.holder, w.vm.listLRU)) (none, [⟨0, 6, 2⟩])
    (by decide +kernel) fun w hrun hw ↦ ?_
  obtain ⟨hfree, hlist⟩ := Prod.mk.inj hw
  exact ⟨hlist, agree_iff_not_exposed hcareful hrun hfree⟩

/-- **`setup_stack` publishes a page before its entry.**  Once `add_page_to_list_LRU` has released
the lock, the page is on `list_LRU`, and no table has its entry. -/
theorem stack_page_exposed : ∃ w, Run.run (move noFiles) smallBoot
    ((1, .create) :: (stackSteps 1 5).take 4) = some w ∧ w.holder = none ∧ ¬ w.vm.Agree := by
  refine Run.exists_of_view
    (fun w ↦ (w.holder, w.vm.listLRU, w.vm.heap 5, w.vm.getPge 1 junk.vaddr))
    (none, [⟨0, 5, 1⟩], some junk, none) (by decide +kernel) fun w _ hw ↦ ?_
  simp only [Prod.mk.injEq] at hw
  obtain ⟨hfree, hlist, hheap, hget⟩ := hw
  refine ⟨hfree, fun hagree ↦ ?_⟩
  obtain ⟨entry, hentry, htable, -⟩ := hagree.page ⟨0, 5, 1⟩ (by rw [hlist]; exact .head _)
  cases hheap.symm.trans hentry
  cases hget.symm.trans htable

/-- **An exit frees its own pages, each frame once, and leaves no slot behind.** -/
theorem exit_frees_own
    (hcareful : Run.Meets (move files) (fun w a ↦ w.Careful a.1 a.2) (boot frames slots block) acts)
    (hrun : Run.run (move files) (boot frames slots block) acts = some w) :
    (∀ t p, (t, p) ∈ w.history.exitFreed → p.thread = t) ∧
      (∀ t f, w.history.freed t f ≤ w.history.taken t f ∧
        w.history.taken t f ≤ w.history.freed t f + 1) ∧
      ∀ t, w.pc t = .gone → (∀ f, w.history.taken t f = w.history.freed t f) ∧
        ∀ n, 1 ≤ n → w.vm.swap.InUse n → w.history.slotOwner n ≠ some t := by
  obtain ⟨A, h⟩ := exists_inv hcareful hrun
  refine ⟨fun t p ↦ h.own, fun t f ↦ ?_, fun t ht ↦ ⟨fun f ↦ ?_, fun n hn huse howner ↦ ?_⟩⟩
  · by_cases hheld : ∃ v, (A t v).frame = some f
    · obtain ⟨v, hv⟩ := hheld
      rw [h.frames.held hv]
      omega
    · rw [h.frames.free fun v hv ↦ hheld ⟨v, hv⟩]
      omega
  · refine h.frames.free fun v hv ↦ ?_
    rw [h.places.gone ht v] at hv
    cases hv
  · obtain ⟨v, e, x, he, -⟩ := h.slots t n hn huse howner
    rw [h.places.gone ht v] at he
    cases he

/-- `spt_destroy_func` for the stack page of thread `t`, up to `lock_acquire`. -/
def popStack (t : Nat) : List (Nat × Act) :=
  [(t, .pop (physBase - pgSize)), (t, .swapClear), (t, .lookup)]

/-- The rest of it, and the end of `process_exit`. -/
def exitEnd (t : Nat) : List (Nat × Act) := [(t, .freeFound), (t, .freeEntry), (t, .destroy)]

theorem exit_frees_own_evicted : ∃ w, Run.run (move noFiles) smallBoot (exitWhileEvicted ++
    [(1, .swapClear), (1, .lookup), (1, .freeFound), (1, .freeEntry)] ++ popStack 1 ++ exitEnd 1) =
      some w ∧ w.pc 1 = .gone ∧ w.history.taken 1 0 = w.history.freed 1 0 ∧
    (w.vm.swap.InUse 1 → w.history.slotOwner 1 ≠ some 1) := by
  have hcareful : Run.Meets (move noFiles) (fun w a ↦ w.Careful a.1 a.2) smallBoot
      (exitWhileEvicted ++ [(1, .swapClear), (1, .lookup), (1, .freeFound), (1, .freeEntry)] ++
        popStack 1 ++ exitEnd 1) := by
    decide +kernel
  refine Run.exists_of_view (fun w ↦ w.pc 1) .gone (by decide +kernel) fun w hrun hpc ↦ ?_
  obtain ⟨-, -, hgone⟩ := exit_frees_own hcareful hrun
  exact ⟨hpc, (hgone 1 hpc).1 0, (hgone 1 hpc).2 1 (Nat.le_refl 1)⟩

/-- **An exit frees a page of another process, and leaves a slot behind.**  Process 1 has looked up
the frame of its stack page when process 2 evicts that page, takes the frame and completes
`setup_stack`. -/
theorem exit_frees_foreign_page : ∃ w, Run.run (move noFiles) smallBoot
    ((1, .create) :: (2, .create) :: stackSteps 1 5 ++ (1, .exit) :: popStack 1 ++
      evictingSteps 2 6 ⟨0, 5, 1⟩ [] ++ exitEnd 1) = some w ∧
    w.history.exitFreed = [(1, ⟨0, 6, 2⟩)] ∧ w.pc 2 = .user ∧
    w.vm.frameOf 2 (physBase - pgSize) = none ∧ w.pc 1 = .gone ∧ w.vm.swap.InUse 1 ∧
    w.history.slotOwner 1 = some 1 := by
  refine Run.exists_of_view (fun w ↦ ((w.history.exitFreed, w.pc 2, w.pc 1),
      w.vm.frameOf 2 (physBase - pgSize), w.vm.swap.bitmap.test 0, w.history.slotOwner 1))
    (([(1, ⟨0, 6, 2⟩)], .user, .gone), none, some true, some 1) (by decide +kernel) fun w _ hw ↦ ?_
  simp only [Prod.mk.injEq] at hw
  exact ⟨hw.1.1, hw.1.2.1, hw.2.1, hw.1.2.2, hw.2.2⟩

end

end World

end Vm

end Pintos
