import Pintos.Vm.Lifetime

/-!
# Who owns a swap slot

A page that is swapped out has the number of its slot in its page entry, and the bit of the slot
is set as long as the page is there.  `swap_in` clears the bit but leaves the number in the entry,
and `spt_destroy_func` hands the number of every entry to `swap_clear`, whether the page is
swapped out or back in memory.  By then the slot may belong to somebody else.

The operations run one after the other here (`Vm.Op`, `Vm.step`), each of them to its end.
`Vm.SlotsOwned` is what should hold between them.  It does as long as no process exits with the
number of a foreign slot left in one of its entries (`Vm.NoStaleSlot`), and the step that breaks
the rule breaks the ownership as well.
-/

set_option autoImplicit false

namespace Pintos

open List Option

/-- The page is in the swap area. -/
def PageEntry.Swapped (x : PageEntry) : Prop := x.type = .anon ∧ x.isLoaded = false

instance (x : PageEntry) : Decidable x.Swapped :=
  inferInstanceAs (Decidable (x.type = .anon ∧ x.isLoaded = false))

variable {x : PageEntry}

namespace Vm

variable {s s' : Vm} {t u v w e f pge kaddr upage : Nat} {page : Page} {own own' : Nat → Prop}

/-! ## The operations -/

/-- `sup_page_tab` of thread `t`, as a list of addresses and entries. -/
def tableOf (s : Vm) (t : Nat) : List (Nat × Nat) :=
  (s.procs t).spt.entries.map fun place ↦ (place.1, place.2)

/-- The entries of thread `t`. -/
def entriesOf (s : Vm) (t : Nat) : List PageEntry :=
  (s.tableOf t).filterMap fun place ↦ s.heap place.2

/-- What can happen to the memory of the processes, each time from beginning to end. -/
inductive Op where
  /-- Thread `t` starts and loads the executable `file`. -/
  | load (t file : Nat) (phdrs : List Phdr) (ptrs : List Nat) (stack : Option Nat)
      (memory : Bool) (vict : Page) (table : Bool)
  /-- A fault below the stack. -/
  | stackGrow (t addr : Nat) (pge : Option Nat) (memory : Bool) (vict : Page) (table : Bool)
  /-- An access to a page that is present. -/
  | access (t upage : Nat) (store : Option (Nat × UInt8))
  /-- `replacement_mem`. -/
  | evict (vict : Page)
  /-- A fault on a page that has an entry. -/
  | fault (t upage : Nat) (memory : Bool) (vict : Page) (table : Bool)
  /-- `process_exit`, which goes through the table in the order `order`. -/
  | exit (t : Nat) (order : List (Nat × Nat))

/-- One operation.  There is no next state when the operation cannot happen, or panics. -/
def step (files : Nat → FileImage) (s : Vm) : Op → Option Vm
  | .load t file phdrs ptrs stack memory vict table =>
    -- `malloc` returns no block that is in use.
    if t ∉ s.threads ∧ (stack.toList ++ ptrs).Nodup ∧
        ∀ e ∈ stack.toList ++ ptrs, s.heap e = none then
      ((s.initThread t).load t file (files file).length phdrs ptrs stack memory vict table).map
        fun result ↦ result.2.2
    else none
  | .stackGrow t addr pge memory vict table =>
    if t ∈ s.threads ∧ s.getPge t (addr / pgSize * pgSize) = none ∧
        ∀ e ∈ pge.toList, s.heap e = none then
      s.stackGrow t addr pge memory vict table
    else none
  | .access t upage store => s.access t upage store
  | .evict vict => s.replacementMem vict
  | .fault t upage memory vict table =>
    if s.frameOf t upage = none then
      (s.getPge t upage).bind fun pge ↦ handleMmFault files s t pge memory vict table
    else none
  | .exit t order =>
    if t ∈ s.threads ∧ order.Perm (s.tableOf t) then
      (s.processExit t order).map fun s' ↦ { s' with threads := s'.threads.erase t }
    else none

/-- The machine after boot: no process, and an empty swap area. -/
def boot (frames slots : Nat) (block : Block) : Vm :=
  { threads := [], heap := fun _ ↦ none, procs := fun _ ↦ ⟨none, ∅⟩, listLRU := [],
    userPool := Bitmap.create frames, mem := fun _ _ ↦ 0, swap := Swap.init slots block }

/-! ## Ownership -/

/-- Thread `t` has the entry `x` for the page `v`. -/
def Holds (s : Vm) (t v : Nat) (x : PageEntry) : Prop :=
  ∃ e, s.getPge t v = some e ∧ s.heap e = some x

/-- Every page that is swapped out has a slot of its own. -/
structure SlotsOwned (s : Vm) : Prop where
  /-- Its entry has the number of a slot that is in use. -/
  owned : ∀ {t v x}, s.Holds t v x → x.Swapped → 1 ≤ x.swapSlot ∧ s.swap.InUse x.swapSlot
  /-- No other entry, of this or another process, has the same number. -/
  distinct : ∀ {t v x u w y}, s.Holds t v x → x.Swapped → s.Holds u w y → y.Swapped →
    x.swapSlot = y.swapSlot → t = u ∧ v = w

/-- No loaded page of an exiting process still has the number of a slot that holds a page of
another process. -/
def NoStaleSlot (s : Vm) : Op → Prop
  | .exit t _ => ∀ x ∈ s.entriesOf t, x.isLoaded = true → ∀ u ∈ s.threads, u ≠ t →
      ∀ y ∈ s.entriesOf u, y.Swapped → y.swapSlot ≠ x.swapSlot
  | _ => True

instance (s : Vm) (op : Op) : Decidable (s.NoStaleSlot op) := by
  unfold NoStaleSlot
  split <;> infer_instance

/-! ## The invariant -/

/-- The part of the tables that concerns slots, where only the slots of the threads in `own` have
to be in use.  Between two operations these are all threads. -/
structure SlotInv (s : Vm) (own : Nat → Prop) : Prop where
  /-- A page of a file has no slot. -/
  bin : ∀ {t v x}, s.Holds t v x → x.type = .bin → x.swapSlot = 0
  pos : ∀ {t v x}, s.Holds t v x → x.Swapped → 1 ≤ x.swapSlot
  owned : ∀ {t v x}, own t → s.Holds t v x → x.Swapped → s.swap.InUse x.swapSlot
  distinct : ∀ {t v x u w y}, s.Holds t v x → x.Swapped → s.Holds u w y → y.Swapped →
    x.swapSlot = y.swapSlot → t = u ∧ v = w

/-- What only takes swapped-out pages away, and leaves the slots of the others in use, keeps the
invariant. -/
theorem SlotInv.mono (h : s.SlotInv own)
    (hbin : ∀ {t v x}, s'.Holds t v x → x.type = .bin → x.swapSlot = 0)
    (hold : ∀ {t v x}, s'.Holds t v x → x.Swapped →
      ∃ y, s.Holds t v y ∧ y.Swapped ∧ y.swapSlot = x.swapSlot)
    (howned : ∀ {t v x}, own' t → s'.Holds t v x → x.Swapped → s'.swap.InUse x.swapSlot) :
    s'.SlotInv own' := by
  refine ⟨hbin, fun hx hsw ↦ ?_, howned, fun hx hxs hy hys heq ↦ ?_⟩
  · obtain ⟨y, hy, hys, hslot⟩ := hold hx hsw
    exact hslot ▸ h.pos hy hys
  · obtain ⟨x', hx', hxs', hxe⟩ := hold hx hxs
    obtain ⟨y', hy', hys', hye⟩ := hold hy hys
    exact h.distinct hx' hxs' hy' hys' (hxe.trans (heq.trans hye.symm))

theorem SlotInv.slotsOwned (h : s.SlotInv fun _ ↦ True) : s.SlotsOwned :=
  ⟨fun hx hsw ↦ ⟨h.pos hx hsw, h.owned trivial hx hsw⟩, h.distinct⟩

/-- The invariant is about entries and slots alone. -/
theorem SlotInv.congr (h : s.SlotInv own) (hheap : s'.heap = s.heap)
    (hget : ∀ t v, s'.getPge t v = s.getPge t v) (hswap : s'.swap = s.swap) : s'.SlotInv own := by
  have hold : ∀ {t v x}, s'.Holds t v x → s.Holds t v x := by
    rintro t v x ⟨e, he, hx⟩
    exact ⟨e, hget t v ▸ he, hheap ▸ hx⟩
  exact h.mono (fun hx ↦ h.bin (hold hx)) (fun {t v x} hx hsw ↦ ⟨x, hold hx, hsw, rfl⟩)
    fun ho hx hsw ↦ hswap ▸ h.owned ho (hold hx) hsw

/-- **Eviction gives the page a slot that nobody has.** -/
theorem SlotInv.evicted {entry : PageEntry} (h : s.SlotInv fun _ ↦ True) (hc : s.Consistent)
    (hev : Evicted s page entry s') : s'.SlotInv fun _ ↦ True := by
  -- An entry of the new state is the victim's, or has not changed.
  have hcase : ∀ {t v x}, s'.Holds t v x →
      (s.getPge t v = some page.pge ∧ s'.heap page.pge = some x) ∨ s.Holds t v x := by
    rintro t v x ⟨e, he, hx⟩
    rw [hev.getPge] at he
    by_cases hep : e = page.pge
    · exact Or.inl (hep ▸ ⟨he, hx⟩)
    · exact Or.inr ⟨e, he, hev.heap_ne e hep ▸ hx⟩
  rcases hev.back with ⟨hswap, hbin, hvict⟩ | ⟨slot, hout, hvict⟩
  · have hnot : ∀ {x}, s'.heap page.pge = some x → ¬ x.Swapped := by
      rintro x hx ⟨hanon, -⟩
      obtain rfl := some_inj.mp (hvict.symm.trans hx)
      exact absurd (hanon.symm.trans hbin) (by simp)
    refine h.mono (fun hx htype ↦ ?_) (fun {t v x} hx hsw ↦ ?_) (fun ho hx hsw ↦ ?_)
    · rcases hcase hx with ⟨hget, hx⟩ | hx
      · obtain rfl := some_inj.mp (hvict.symm.trans hx)
        exact h.bin (x := entry) ⟨_, hget, hev.heap_page⟩ hbin
      · exact h.bin hx htype
    · rcases hcase hx with ⟨-, hx⟩ | hx
      · exact absurd hsw (hnot hx)
      · exact ⟨x, hx, hsw, rfl⟩
    · rcases hcase hx with ⟨-, hx⟩ | hx
      · exact absurd hsw (hnot hx)
      · exact hswap ▸ h.owned ho hx hsw
  · obtain ⟨hpos, hfree, huse, hother⟩ := Swap.swapOut_spec hout
    have hne : ∀ {t v x}, s.Holds t v x → x.Swapped → x.swapSlot ≠ slot := by
      rintro t v x hx hsw rfl
      exact hfree (h.owned trivial hx hsw)
    have hslot : ∀ {x}, s'.heap page.pge = some x → x.swapSlot = slot := by
      intro x hx
      obtain rfl := some_inj.mp (hvict.symm.trans hx)
      rfl
    refine ⟨fun hx htype ↦ ?_, fun hx hsw ↦ ?_, fun ho hx hsw ↦ ?_, fun hx hxs hy hys heq ↦ ?_⟩
    · rcases hcase hx with ⟨-, hx⟩ | hx
      · obtain rfl := some_inj.mp (hvict.symm.trans hx)
        simp at htype
      · exact h.bin hx htype
    · rcases hcase hx with ⟨-, hx⟩ | hx
      · exact hslot hx ▸ hpos
      · exact h.pos hx hsw
    · rcases hcase hx with ⟨-, hx⟩ | hx
      · exact hslot hx ▸ huse
      · exact (hother _ (h.pos hx hsw) (hne hx hsw)).mpr (h.owned ho hx hsw)
    · rcases hcase hx with ⟨hgx, hx⟩ | hx <;> rcases hcase hy with ⟨hgy, hy⟩ | hy
      · exact hc.inj hgx hgy
      · exact absurd (heq.symm.trans (hslot hx)) (hne hy hys)
      · exact absurd (heq.trans (hslot hy)) (hne hx hxs)
      · exact h.distinct hx hxs hy hys heq

/-- `alloc_page` keeps the invariant. -/
theorem SlotInv.allocated (h : s.SlotInv fun _ ↦ True) (hc : s.Consistent)
    (ha : Allocated s kaddr s') : s'.SlotInv fun _ ↦ True := by
  obtain ⟨m, hm, -, b, rfl, -⟩ := ha.before
  rcases hm with rfl | ⟨page, entry, hev⟩
  · exact h.congr rfl (fun _ _ ↦ rfl) rfl
  · exact (h.evicted hc hev).congr rfl (fun _ _ ↦ rfl) rfl

/-- An entry whose page is not mapped is not loaded. -/
theorem Consistent.not_loaded (hc : s.Consistent) (hget : s.getPge t v = some e)
    (hx : s.heap e = some x) (hframe : s.frameOf t v = none) : x.isLoaded = false := by
  by_contra hl
  obtain ⟨p, hp, rfl⟩ := hc.resident hget hx (by simpa using hl)
  obtain ⟨y, hy, -, hfr, -⟩ := hc.lru hp
  obtain rfl := some_inj.mp (hx.symm.trans hy)
  obtain ⟨z, hz, hv⟩ := hc.entry hget
  obtain rfl := some_inj.mp (hx.symm.trans hz)
  rw [← hc.own hp hget, hv, hframe] at hfr
  exact absurd hfr (by simp)

/-- **A page that comes back gives up its own slot and no other.** -/
theorem SlotInv.faulted {entry : PageEntry} (h : s.SlotInv own) (hc : s.Consistent)
    (hf : Faulted s t pge entry kaddr s') (hget : s.getPge t v = some pge) : s'.SlotInv own := by
  have hcase : ∀ {u w x}, s'.Holds u w x →
      (s.getPge u w = some pge ∧ x = { entry with isLoaded := true }) ∨
        (s.Holds u w x ∧ s.getPge u w ≠ some pge) := by
    rintro u w x ⟨e, he, hx⟩
    rw [hf.getPge] at he
    rw [hf.heap] at hx
    split at hx
    · rename_i hep
      exact Or.inl ⟨hep ▸ he, (some_inj.mp hx).symm⟩
    · rename_i hep
      refine Or.inr ⟨⟨e, he, hx⟩, fun hpge ↦ hep ?_⟩
      exact some_inj.mp (he.symm.trans hpge)
  refine h.mono (fun hx htype ↦ ?_) (fun {u w x} hx hsw ↦ ?_) (fun ho hx hsw ↦ ?_)
  · rcases hcase hx with ⟨hgu, rfl⟩ | ⟨hx, -⟩
    · exact h.bin (x := entry) ⟨pge, hgu, hf.heap_page⟩ htype
    · exact h.bin hx htype
  · rcases hcase hx with ⟨-, rfl⟩ | ⟨hx, -⟩
    · exact absurd hsw.2 (by simp)
    · exact ⟨x, hx, hsw, rfl⟩
  · rcases hcase hx with ⟨-, rfl⟩ | ⟨hx, hne⟩
    · exact absurd hsw.2 (by simp)
    rcases hf.swap with ⟨-, hswap⟩ | ⟨hanon, _, _, hin⟩
    · exact hswap ▸ h.owned ho hx hsw
    obtain ⟨-, hbits⟩ := Swap.swapIn_spec hin
    refine (hbits _ (h.pos hx hsw)).mpr ⟨fun heq ↦ hne ?_, h.owned ho hx hsw⟩
    -- The same number would make it the same page.
    obtain ⟨y, hy, hv⟩ := hc.entry hget
    obtain rfl := some_inj.mp (hf.heap_page.symm.trans hy)
    have hload : entry.isLoaded = false := hc.not_loaded hget hf.heap_page (hv ▸ hf.frame)
    obtain ⟨rfl, rfl⟩ := h.distinct hx hsw ⟨pge, hget, hf.heap_page⟩ ⟨hanon, hload⟩ heq
    exact hget

/-- A page that is not in the swap area comes in. -/
theorem SlotInv.add (h : s.SlotInv own) (hnot : ¬ x.Swapped) (hbin : x.type = .bin → x.swapSlot = 0)
    (hcase : ∀ {u w y}, s'.Holds u w y → y = x ∨ s.Holds u w y) (hswap : s'.swap = s.swap) :
    s'.SlotInv own := by
  have hold : ∀ {u w y}, s'.Holds u w y → y.Swapped → s.Holds u w y := by
    intro u w y hy hsw
    refine (hcase hy).resolve_left ?_
    rintro rfl
    exact hnot hsw
  refine h.mono (fun hy htype ↦ ?_) (fun {u w y} hy hsw ↦ ⟨y, hold hy hsw, hsw, rfl⟩)
    fun ho hy hsw ↦ hswap ▸ h.owned ho (hold hy hsw) hsw
  rcases hcase hy with rfl | hy
  · exact hbin htype
  · exact h.bin hy htype

/-- A stack page starts in memory, without a slot. -/
theorem SlotInv.grown (h : s.SlotInv own) (hg : Grown s t upage pge kaddr s') : s'.SlotInv own := by
  refine h.add (x := stackEntry upage) (by rintro ⟨-, ⟨⟩⟩) (by rintro ⟨⟩) ?_ hg.swap
  rintro u w x ⟨e, he, hx⟩
  rw [hg.heap] at hx
  split at hx
  · exact Or.inl (some_inj.mp hx).symm
  · rename_i hep
    rw [hg.getPge] at he
    split at he
    · exact absurd (some_inj.mp he).symm hep
    · exact Or.inr ⟨e, he, hx⟩

/-- A page of the executable starts in the file, without a slot. -/
theorem SlotInv.insert (h : s.SlotInv own) (hx : x.Fresh) :
    ((s.setPge pge (some x)).insertPge t x.vaddr pge).SlotInv own := by
  refine h.add (x := x) (fun hsw ↦ ?_) (fun _ ↦ hx.2.2) ?_ (insertPge_swap ..)
  · cases hsw.1.symm.trans hx.1
  rintro u w y ⟨e, he, hy⟩
  rw [insertPge_heap, setPge] at hy
  dsimp only at hy
  rw [Function.update_apply] at hy
  split at hy
  · exact Or.inl (some_inj.mp hy).symm
  · rename_i hep
    rw [getPge_insertPge] at he
    split at he
    · exact absurd (some_inj.mp he).symm hep
    · exact Or.inr ⟨e, he, hy⟩

/-! ## Exits -/

theorem mem_tableOf : (v, e) ∈ s.tableOf t ↔ s.getPge t v = some e := by
  rw [tableOf, List.mem_map, getPge, ← mem_def, AList.mem_lookup_iff]
  constructor
  · rintro ⟨⟨v', e'⟩, hmem, heq⟩
    obtain ⟨rfl, rfl⟩ := Prod.mk.injEq .. ▸ heq
    exact hmem
  · exact fun hmem ↦ ⟨⟨v, e⟩, hmem, rfl⟩

theorem lists_of_perm {order : List (Nat × Nat)} (h : order.Perm (s.tableOf t)) :
    s.Lists t order := by
  refine ⟨?_, fun {v e} ↦ by rw [h.mem_iff, mem_tableOf]⟩
  rw [(h.map Prod.fst).nodup_iff, tableOf, List.map_map]
  exact (s.procs t).spt.nodupKeys

theorem mem_entriesOf : x ∈ s.entriesOf t ↔ ∃ v, s.Holds t v x := by
  rw [entriesOf, mem_filterMap]
  constructor
  · rintro ⟨⟨v, e⟩, hmem, hx⟩
    exact ⟨v, e, mem_tableOf.mp hmem, hx⟩
  · rintro ⟨v, e, hget, hx⟩
    exact ⟨(v, e), mem_tableOf.mpr hget, hx⟩

/-- No loaded entry of thread `t` has the number of a slot of another thread. -/
def NoForeignSlot (s : Vm) (t : Nat) : Prop :=
  ∀ {v x u w y}, s.Holds t v x → x.isLoaded = true → u ≠ t → s.Holds u w y → y.Swapped →
    y.swapSlot ≠ x.swapSlot

theorem Destroyed.holds (hd : Destroyed s t v e s') (h : s'.Holds u w x) : s.Holds u w x := by
  obtain ⟨e', he', hx⟩ := h
  rw [hd.getPge] at he'
  rw [hd.heap] at hx
  split at he'
  · simp at he'
  · split at hx
    · simp at hx
    · exact ⟨e', he', hx⟩

/-- **Destroying an entry frees the slot of its own page at most**, unless the entry has the
number of a foreign slot. -/
theorem SlotInv.destroyed (h : s.SlotInv (· ≠ t)) (hno : s.NoForeignSlot t)
    (hget : s.getPge t v = some e) (hd : Destroyed s t v e s') :
    s'.SlotInv (· ≠ t) ∧ s'.NoForeignSlot t := by
  obtain ⟨entry, hentry, hclear⟩ := hd.swap
  have hmine : s.Holds t v entry := ⟨e, hget, hentry⟩
  refine ⟨h.mono (fun hx ↦ h.bin (hd.holds hx)) (fun {u w x} hx hsw ↦ ⟨x, hd.holds hx, hsw, rfl⟩)
    fun {u w x} ho hx hsw ↦ ?_, fun hx hl hu hy ↦ hno (hd.holds hx) hl hu (hd.holds hy)⟩
  have hx := hd.holds hx
  have hpos := h.pos hx hsw
  refine (Swap.swapClear_spec hclear _ hpos).mpr ⟨fun heq ↦ ?_, h.owned ho hx hsw⟩
  cases hl : entry.isLoaded with
  | true => exact hno hmine hl ho hx hsw heq
  | false =>
    cases htype : entry.type with
    | bin =>
      rw [heq, h.bin hmine htype] at hpos
      exact absurd hpos (by simp)
    | anon => exact ho (h.distinct hx hsw hmine ⟨htype, hl⟩ heq).1

/-! ## Whole runs -/

/-- What holds between two operations. -/
structure Inv (s : Vm) : Prop where
  consistent : s.Consistent
  slots : s.SlotInv fun _ ↦ True

theorem inv_boot (frames slots : Nat) (block : Block) : (boot frames slots block).Inv := by
  have hget : ∀ {t v}, (boot frames slots block).getPge t v = none := AList.lookup_empty _
  have hholds : ∀ {t v x}, ¬ (boot frames slots block).Holds t v x := by
    rintro t v x ⟨e, he, -⟩
    rw [hget] at he
    exact absurd he (by simp)
  refine ⟨⟨?_, ?_, ?_, ?_, ?_, ?_, nodup_nil, ?_, ?_, ?_⟩, ?_, ?_, ?_, ?_⟩
  · intro t v e h; simp [hget] at h
  · intro t v e h; simp [hget] at h
  · intro t v e u w h; simp [hget] at h
  · intro p hp; simp [boot] at hp
  · intro p q hp; simp [boot] at hp
  · intro p q hp; simp [boot] at hp
  · intro p t v hp; simp [boot] at hp
  · intro t v e x h; simp [hget] at h
  · intro t v f h; simp [boot, frameOf] at h
  · exact fun h ↦ absurd h hholds
  · exact fun h ↦ absurd h hholds
  · exact fun _ h ↦ absurd h hholds
  · exact fun h ↦ absurd h hholds

/-- A stack page in a process that is there, at an address `malloc` has not handed out. -/
theorem Inv.mapStackPage (h : s.Inv) {o : Option Nat} {memory table mapped : Bool}
    (hs : s.mapStackPage t upage o memory page table = some (mapped, s')) (ht : t ∈ s.threads)
    (hfresh : ∀ e ∈ o, s.heap e = none) : s'.Inv := by
  rcases mapStackPage_spec hs with rfl | ⟨pge, kaddr, m, rfl, ha, hg⟩
  · exact h
  · have hm := ha.consistent h.consistent
    obtain ⟨hused, hk⟩ := ha.fresh h.consistent
    obtain ⟨hthreads, -, -, hheap⟩ := ha.tables
    have hnone : m.heap pge = none := hheap pge (hfresh pge rfl)
    exact ⟨hg.consistent hm (hthreads ▸ ht) hk hused hnone,
      (h.slots.allocated h.consistent ha).grown hg⟩

theorem Inv.load (h : s.Inv) {file fileLength : Nat} {phdrs : List Phdr} {ptrs : List Nat}
    {stack : Option Nat} {memory table : Bool} {result : Bool × Option Nat × Vm}
    (ht : t ∉ s.threads) (hnodup : (stack.toList ++ ptrs).Nodup)
    (hfresh : ∀ e ∈ stack.toList ++ ptrs, s.heap e = none)
    (hload : (s.initThread t).load t file fileLength phdrs ptrs stack memory page table =
      some result) : result.2.2.Inv := by
  have hc0 := h.consistent.initThread ht
  have hslots0 : ((s.initThread t).setPagedir t ∅).SlotInv fun _ ↦ True :=
    h.slots.congr rfl (fun _ _ ↦ h.consistent.getPge_initThread ht) rfl
  have ht0 : t ∈ ((s.initThread t).setPagedir t ∅).threads := mem_cons_self
  obtain ⟨-, hptrs, hdisj⟩ := nodup_append.mp hnodup
  obtain ⟨hc, hslots, hthreads, hheap⟩ :=
    loadPages_invariant (I := fun s ↦ s.SlotInv fun _ ↦ True)
      (fun hI _ _ hx ↦ hI.insert hx)
      (fun x ↦ @fresh_of_mem_loadEntries file fileLength x phdrs) hptrs hc0 ht0
      (fun e he ↦ hfresh e (mem_append_right _ he)) hslots0
  rw [Vm.load] at hload
  dsimp only at hload
  split at hload
  · simp only [setupStack, bind_eq_some, Prod.exists, pure_eq_some] at hload
    obtain ⟨mapped, m, hmap, rfl⟩ := hload
    refine Inv.mapStackPage ⟨hc, hslots⟩ hmap (hthreads ▸ ht0) fun e he ↦ ?_
    have hmem : e ∈ stack.toList := mem_toList.mpr he
    rw [hheap e fun hep ↦ hdisj e hmem e hep rfl]
    exact hfresh e (mem_append_left _ hmem)
  · obtain rfl := some_inj.mp hload
    exact ⟨hc, hslots⟩

theorem Inv.exit (h : s.Inv) {order : List (Nat × Nat)} (hperm : order.Perm (s.tableOf t))
    (hno : s.NoStaleSlot (.exit t order)) (hexit : s.processExit t order = some s') :
    Inv { s' with threads := s'.threads.erase t } := by
  have hforeign : s.NoForeignSlot t := fun hx hl hu hy hsw ↦ by
    have ⟨_, he, _⟩ := hy
    exact hno _ (mem_entriesOf.mpr ⟨_, hx⟩) hl _ (h.consistent.thread he) hu _
      (mem_entriesOf.mpr ⟨_, hy⟩) hsw
  have hslots : s.SlotInv (· ≠ t) :=
    h.slots.mono h.slots.bin (fun {u w x} hx hsw ↦ ⟨x, hx, hsw, rfl⟩)
      fun _ hx hsw ↦ h.slots.owned trivial hx hsw
  have hloop : ∀ {m}, s.sptDestroy t order = some m → m.Consistent ∧
      (m.SlotInv (· ≠ t) ∧ m.NoForeignSlot t) ∧ m.threads = s.threads ∧ ∀ v, m.getPge t v = none :=
    fun hm ↦ sptDestroy_invariant (I := fun s ↦ s.SlotInv (· ≠ t) ∧ s.NoForeignSlot t)
      (fun hI _ hget hd ↦ hI.1.destroyed hI.2 hget hd) h.consistent (lists_of_perm hperm)
      ⟨hslots, hforeign⟩ hm
  obtain ⟨m, hm, rfl⟩ := processExit_spec hexit fun hm ↦ ⟨(hloop hm).1, (hloop hm).2.2.2⟩
  obtain ⟨hcm, ⟨hsm, -⟩, -, hnone⟩ := hloop hm
  refine ⟨hcm.remove hnone, ?_⟩
  -- What is left belongs to others.
  have hget : ∀ u w, Vm.getPge { m.setProc t { m.procs t with pagedir := none } with
      threads := m.threads.erase t } u w = m.getPge u w := by
    intro u w
    by_cases hu : u = t <;> simp [getPge, setProc, hu]
  have hall : m.SlotInv fun _ ↦ True := by
    refine hsm.mono hsm.bin (fun {u w x} hx hsw ↦ ⟨x, hx, hsw, rfl⟩) fun {u w x} _ hx hsw ↦ ?_
    refine hsm.owned ?_ hx hsw
    rintro rfl
    obtain ⟨e, he, -⟩ := hx
    rw [hnone] at he
    exact absurd he (by simp)
  exact hall.congr rfl hget rfl

/-- Every operation keeps the invariant, provided that an exit leaves foreign slots alone. -/
theorem Inv.step (files : Nat → FileImage) (s : Vm) (op : Op) (s' : Vm) (h : s.Inv)
    (hno : s.NoStaleSlot op) (hstep : s.step files op = some s') : s'.Inv := by
  cases op with
  | load t file phdrs ptrs stack memory vict table =>
    rw [Vm.step] at hstep
    split at hstep
    · rename_i hguard
      obtain ⟨result, hload, rfl⟩ := map_eq_some_iff.mp hstep
      exact h.load hguard.1 hguard.2.1 hguard.2.2 hload
    · simp at hstep
  | stackGrow t addr pge memory vict table =>
    rw [Vm.step] at hstep
    split at hstep
    · rename_i hguard
      simp only [stackGrow, bind_eq_some, Prod.exists, pure_eq_some] at hstep
      obtain ⟨mapped, m, hmap, rfl⟩ := hstep
      exact h.mapStackPage hmap hguard.1 fun e he ↦ hguard.2.2 e (mem_toList.mpr he)
    · simp at hstep
  | access t upage store =>
    obtain ⟨h1, h2, h3, h4, h5, h6, h7⟩ := access_spec hstep
    exact ⟨h.consistent.congr h2 h3 h4 h5 h6 fun hg ↦ h1 ▸ h.consistent.thread hg,
      h.slots.congr h2 h3 h7⟩
  | evict vict =>
    obtain ⟨entry, hev⟩ := replacementMem_spec hstep
    exact ⟨hev.consistent h.consistent, h.slots.evicted h.consistent hev⟩
  | fault t upage memory vict table =>
    rw [Vm.step] at hstep
    split at hstep
    · obtain ⟨pge, hget, hfault⟩ := bind_eq_some_iff.mp hstep
      obtain ⟨kaddr, m, entry, ha, hf⟩ := handleMmFault_spec hfault
      obtain ⟨hused, hk⟩ := ha.fresh h.consistent
      have hget' : m.getPge t upage = some pge := (ha.tables.2.1 t upage).trans hget
      have hm := ha.consistent h.consistent
      exact ⟨hf.consistent hm hk hused hget',
        (h.slots.allocated h.consistent ha).faulted hm hf hget'⟩
    · simp at hstep
  | exit t order =>
    rw [Vm.step] at hstep
    split at hstep
    · rename_i hguard
      obtain ⟨m, hexit, rfl⟩ := map_eq_some_iff.mp hstep
      exact h.exit hguard.2 hno hexit
    · simp at hstep

/-- **As long as no process exits with the number of a foreign slot in a loaded entry, every
swapped-out page has a slot of its own**, whatever the processes do otherwise. -/
theorem slotsOwned_of_noStaleSlot {files : Nat → FileImage} {frames slots : Nat} {block : Block}
    {ops : List Op} {s : Vm}
    (hno : Run.Meets (step files) NoStaleSlot (boot frames slots block) ops)
    (hrun : Run.run (step files) (boot frames slots block) ops = some s) : s.SlotsOwned :=
  (Run.invariant (Inv.step files) (inv_boot frames slots block) hno hrun).slots.slotsOwned

/-- Two processes with one stack page each, on a machine with two frames.  The first process is
evicted into slot 1 and comes back, then the second one is evicted into the same slot. -/
def reuse : List Op :=
  [.load 1 0 [] [] (some 10) true ⟨0, 0, 0⟩ true, .load 2 0 [] [] (some 20) true ⟨0, 0, 0⟩ true,
    .evict ⟨0, 10, 1⟩, .fault 1 (physBase - pgSize) true ⟨0, 0, 0⟩ true, .evict ⟨1, 20, 2⟩]

/-- The machine the examples run on: two frames and `swap_init (8 * 1024)`. -/
def smallBoot : Vm := boot 2 (8 * 1024) ⟨8 * 8 * 1024, fun _ _ ↦ 0⟩

/-- The second process exits first: its page goes, and the first process keeps its own. -/
theorem slotsOwned_reuse :
    (Run.run (step noFiles) smallBoot (reuse ++ [.exit 2 [(physBase - pgSize, 20)]])).isSome ∧
      ∀ s, Run.run (step noFiles) smallBoot (reuse ++ [.exit 2 [(physBase - pgSize, 20)]]) =
        some s → s.SlotsOwned :=
  ⟨by decide +kernel, fun _ h ↦ slotsOwned_of_noStaleSlot (by decide +kernel) h⟩

/-- **The exit of the first process frees the slot of the second**: the number is still in its
entry. -/
theorem exit_frees_foreign_slot :
    ∃ s, Run.run (step noFiles) smallBoot (reuse ++ [.exit 1 [(physBase - pgSize, 10)]]) = some s ∧
      ¬ s.SlotsOwned := by
  have hsome : (Run.run (step noFiles) smallBoot
      (reuse ++ [.exit 1 [(physBase - pgSize, 10)]])).isSome = true := by decide +kernel
  have hbad : ∀ s ∈ Run.run (step noFiles) smallBoot (reuse ++ [.exit 1 [(physBase - pgSize, 10)]]),
      ∃ x ∈ s.entriesOf 2, x.Swapped ∧ ¬ s.swap.InUse x.swapSlot := by decide +kernel
  obtain ⟨s, hs⟩ := isSome_iff_exists.mp hsome
  obtain ⟨x, hx, hsw, hfree⟩ := hbad s hs
  obtain ⟨v, hv⟩ := mem_entriesOf.mp hx
  exact ⟨s, hs, fun h ↦ hfree (h.owned hv hsw).2⟩

end Vm

end Pintos
