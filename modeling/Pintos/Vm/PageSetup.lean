import Pintos.Threads.HeapBlocks
import Pintos.Vm.Consistent

/-!
# Setting up a page, and failing to

`setup_stack`, `stack_grow` and `handle_mm_fault` need up to four things one after the other: a
block for the page entry, a block for the `struct page`, a frame, and room for the mapping.
`Pintos.Vm.Page` follows them as far as the tables are concerned.  Here the blocks are followed too,
and the clean-up is what the source says: `free_page_kaddr (kpage)`, with the address of the
`struct page` where the address of the frame is meant.

* `Vm.freePageKaddrAt` — the clean-up, which panics for every block of the heap
  (`Vm.freePageKaddrAt_block`);
* `PageSetup.mapStackPage`, `PageSetup.handleMmFault` — the functions, which are those of
  `Pintos.Vm.Page` (`mapStackPage_vm`, `handleMmFault_vm`);
* `PageSetup.Room` — what must be there for a stack page to be set up;
* `PageSetup.page_in_failure_panics` — a page that cannot be brought in is the end;
* `PageSetup.stack_page_all_or_nothing` — when a stack page is set up, or nothing happens.
-/

set_option autoImplicit false

namespace Pintos

open Function Option

/-- **No block of the heap begins with a page**: the `struct arena` does. -/
theorem HeapUse.Books.pgOfs_ne_zero {u : HeapUse} {b : Nat} (hu : u.Books) (hb : u.live b ≠ none) :
    pgOfs b ≠ 0 := by
  obtain ⟨size, hsize⟩ := ne_none_iff_exists'.mp hb
  obtain ⟨a, -, -, -, hround, -, -, hle, -⟩ := hu.blockSize_spec hsize
  simp only [pgRoundDown, pgOfs, pgSize, arenaSize] at *
  omega

/-- The first block that is handed out may be at 0xC010100C. -/
theorem HeapUse.exists_live : ∃ u : HeapUse, u.Sound ∧ u.live 0xC010100C ≠ none := by
  obtain ⟨h0, hinit, -, hnone, -⟩ := Heap.mallocInit_table
  have hpages : Heap.mallocInit.map (fun h ↦ h.pagesFor 20) = some 1 := rfl
  have hlive : (Heap.mallocInit.bind fun h ↦ HeapUse.step ⟨h, fun _ ↦ none⟩
      (.malloc 20 (some 0xC0101000))).map (fun u ↦ u.live 0xC010100C) = some (some 20) := by
    decide +kernel
  rw [hinit, map_some, some_inj] at hpages
  have hallowed : HeapUse.Allowed ⟨h0, fun _ ↦ none⟩ (.malloc 20 (some 0xC0101000)) := by
    refine ⟨by decide, ?_⟩
    rintro _ ⟨⟩
    refine ⟨by decide, by decide, ?_, fun a arena harena ↦ ?_⟩
    · dsimp only
      rw [hpages]
      decide
    · cases (hnone a).symm.trans harena
  obtain ⟨u, hstep, hu⟩ := (HeapUse.sound_of_init hinit).step hallowed
  rw [hinit, bind_some, hstep, map_some, some_inj] at hlive
  exact ⟨u, hu, by rw [hlive]; exact some_ne_none 20⟩

/-! ## The functions -/

namespace Vm

/-- The frame with the kernel address `addr`; the first one is at `base`. -/
def frameAt (base addr : Nat) : Option Nat :=
  if base ≤ addr then some ((addr - base) / pgSize) else none

/-- `free_page_kaddr`, with the assertion of `find_page_from_list_LRU`. -/
def freePageKaddrAt (base : Nat) (s : Vm) (addr : Nat) : Kernel Vm := do
  assert (pgOfs addr = 0)
  s.freePageKaddr (frameAt base addr)

theorem freePageKaddrAt_block {base addr : Nat} {s : Vm} (h : pgOfs addr ≠ 0) :
    s.freePageKaddrAt base addr = none := by
  rw [freePageKaddrAt, assert, if_neg h]
  rfl

end Vm

variable {pd : PageDir}

namespace PageSetup

/-- What does not depend on the functions themselves. -/
structure Choices where
  /-- The address that `malloc` returns for the page entry. -/
  pge : Option Nat
  /-- The address that `malloc` returns for the `struct page`. -/
  page : Option Nat
  /-- The page that `get_victim` picks, if it is called. -/
  vict : Page
  /-- `lookup_page` finds or gets the page table. -/
  table : Bool

/-- How far a function has come. -/
inductive Outcome where
  /-- There is no memory for the page entry. -/
  | noEntry
  /-- `alloc_page` returns a null pointer. -/
  | noPage
  /-- The page cannot be filled or mapped. -/
  | failed
  | mapped
  deriving DecidableEq, Repr

/-- What a function leaves. -/
structure Attempt where
  outcome : Outcome
  vm : Vm
  /-- The blocks it has got from `malloc` and not freed. -/
  blocks : List Nat

section

variable (base : Nat) (files : Nat → FileImage) (s : Vm) (t : Nat) (c : Choices)

/-- What `setup_stack` and `stack_grow` have in common: map a zeroed page at `upage`. -/
def mapStackPage (upage : Nat) : Kernel Attempt :=
  match c.pge with
  | none => some ⟨.noEntry, s, []⟩
  | some pge => do
    let (kaddr, s) ← s.allocPage c.page.isSome c.vict
    match kaddr, c.page with
    | some kaddr, some page =>
      let s := s.setMem kaddr fun _ ↦ 0
      let s := s.addPageToListLRU ⟨kaddr, pge, t⟩
      let (installed, s) ← s.installPage t upage kaddr true c.table
      if installed then
        let s := s.setPge pge (some (Vm.stackEntry upage))
        return ⟨.mapped, s.insertPge t upage pge, [pge, page]⟩
      else
        let s ← s.freePageKaddrAt base page
        -- `free (pge)`
        return ⟨.failed, s, [page]⟩
    | _, _ => return ⟨.noPage, s, [pge]⟩

/-- `setup_stack`: what it returns, and what it stores to `*esp`. -/
def setupStack : Kernel (Bool × Option Nat × Attempt) := do
  let a ← mapStackPage base s t c (physBase - pgSize)
  match a.outcome with
  | .noEntry | .failed => return (false, none, a)
  | .noPage => return (true, none, a)
  | .mapped => return (true, some (physBase - 12), a)

/-- `stack_grow`. -/
def stackGrow (addr : Nat) : Kernel Attempt := mapStackPage base s t c (pgRoundDown addr)

/-- `load_file` or `swap_in`: fill the frame `kaddr`.  If the file is too short, the frame holds
what could be read. -/
def fill (entry : PageEntry) (kaddr : Nat) : Kernel (Bool × Vm) :=
  match entry.type with
  | .bin =>
    let file := files entry.file
    match Vm.loadFile file entry with
    | some page => some (true, s.setMem kaddr page)
    | none => some (false, s.setMem kaddr fun o ↦
        if o < entry.readBytes ∧ entry.offset + o < file.length then file.data (entry.offset + o)
        else s.mem kaddr o)
  | .anon => do
    let (swap, page) ← s.swap.swapIn entry.swapSlot (s.mem kaddr)
    return (true, { s.setMem kaddr page with swap })

/-- The `switch` of `handle_mm_fault`: fill the frame `kaddr` and install it. -/
def bringIn (entry : PageEntry) (kaddr : Nat) : Kernel (Bool × Vm) := do
  let (filled, s) ← fill files s entry kaddr
  if filled then s.installPage t entry.vaddr kaddr entry.writable c.table else return (false, s)

/-- `handle_mm_fault` on the page entry at `pge`. -/
def handleMmFault (pge : Nat) : Kernel Attempt := do
  let (kaddr, s) ← s.allocPage c.page.isSome c.vict
  -- `ASSERT (kpage != NULL)`
  let kaddr ← kaddr
  let page ← c.page
  let entry ← s.heap pge
  let (installed, s) ← bringIn files s t c entry kaddr
  if installed then
    let s := s.setPge pge (some { entry with isLoaded := true })
    return ⟨.mapped, s.addPageToListLRU ⟨kaddr, pge, t⟩, [page]⟩
  else
    let s ← s.freePageKaddrAt base page
    return ⟨.failed, s, [page]⟩

end

/-! ## They are the functions on the tables -/

section

variable {base t pge page kaddr upage : Nat} {files : Nat → FileImage} {s m : Vm} {c : Choices}
  {entry : PageEntry}

theorem pageIn_eq : Vm.pageIn files m entry kaddr =
    (fill files m entry kaddr).bind fun r ↦ if r.1 then some r.2 else none := by
  rw [fill, Vm.pageIn, Vm.fetch]
  cases entry.type with
  | anon =>
    dsimp only
    cases m.swap.swapIn entry.swapSlot (m.mem kaddr) <;> rfl
  | bin =>
    dsimp only
    cases Vm.loadFile (files entry.file) entry <;> rfl

/-- **`handle_mm_fault` and the heap**: the tables are those of `Vm.handleMmFault`. -/
theorem handleMmFault_vm (hpage : ∀ page, c.page = some page → pgOfs page ≠ 0) :
    (handleMmFault base files s t c pge).map Attempt.vm =
      s.handleMmFault files t pge c.page.isSome c.vict c.table := by
  rw [handleMmFault, Vm.handleMmFault]
  cases hp : c.page with
  | none => rfl
  | some page =>
    have hpanic (m : Vm) : m.freePageKaddrAt base page = none :=
      Vm.freePageKaddrAt_block (hpage _ hp)
    rw [isSome_some]
    obtain - | ⟨_ | kaddr, m⟩ := s.allocPage true c.vict
    · rfl
    · rfl
    dsimp only [bind_eq_bind, bind_some]
    obtain - | entry := m.heap pge
    · rfl
    rw [bind_some, bind_some, pageIn_eq, bringIn]
    obtain - | ⟨_ | _, m'⟩ := fill files m entry kaddr
    · rfl
    · simp [hpanic]
    dsimp only [bind_some, bind_eq_bind]
    rw [if_pos rfl, if_pos rfl, bind_some]
    obtain - | ⟨_ | _, m''⟩ := m'.installPage t entry.vaddr kaddr entry.writable c.table
    · rfl
    · simp [hpanic, assert]
    · rfl

/-- **A new stack page and the heap**: the tables are those of `Vm.mapStackPage`. -/
theorem mapStackPage_vm (hpage : ∀ page, c.page = some page → pgOfs page ≠ 0) :
    (mapStackPage base s t c upage).map (fun a ↦ (decide (a.outcome = .mapped), a.vm)) =
      s.mapStackPage t upage c.pge c.page.isSome c.vict c.table := by
  rw [mapStackPage, Vm.mapStackPage.eq_def]
  cases c.pge with
  | none => rfl
  | some pge =>
    cases hp : c.page with
    | none => rfl
    | some page =>
      have hpanic (m : Vm) : m.freePageKaddrAt base page = none :=
        Vm.freePageKaddrAt_block (hpage _ hp)
      rw [isSome_some]
      obtain - | ⟨_ | kaddr, m⟩ := s.allocPage true c.vict
      · rfl
      · rfl
      dsimp only [bind_eq_bind, bind_some]
      obtain - | ⟨_ | _, m'⟩ :=
        ((m.setMem kaddr fun _ ↦ 0).addPageToListLRU ⟨kaddr, pge, t⟩).installPage t upage kaddr true
          c.table
      · rfl
      · simp [hpanic, assert]
      · rfl

/-! ## A page that cannot be brought in -/

/-- What `handle_mm_fault` must leave when it fails, where `m` is the state in which `alloc_page`
has returned the frame `kaddr`. -/
structure NoTrace (m : Vm) (pge kaddr : Nat) (a : Attempt) : Prop where
  failed : a.outcome = .failed
  /-- The frame is free again. -/
  frame : a.vm.userPool.bit kaddr = false
  listLRU : a.vm.listLRU = m.listLRU
  procs : a.vm.procs = m.procs
  /-- The `struct page` is freed. -/
  blocks : a.blocks = []
  entry : a.vm.heap pge = m.heap pge
  /-- The contents are still where the entry says. -/
  swap : a.vm.swap = m.swap

/-- `load_file` or `install_page` fails, for the page entry `entry` of thread `t`. -/
def Fails (files : Nat → FileImage) (m : Vm) (t : Nat) (entry : PageEntry) (table : Bool) : Prop :=
  entry.type = .bin ∧ Vm.loadFile (files entry.file) entry = none ∨
    m.frameOf t entry.vaddr ≠ none ∨ table = false

theorem fill_procs {filled : Bool} {m' : Vm} (h : fill files m entry kaddr = some (filled, m')) :
    m'.procs = m.procs := by
  rw [fill] at h
  split at h
  · dsimp only at h
    split at h
    all_goals
      cases h
      rfl
  · obtain ⟨⟨swap, data⟩, -, heq⟩ := bind_eq_some_iff.mp h
    cases heq
    rfl

theorem Fails.not_installed {m' : Vm} {installed : Bool} (h : Fails files m t entry c.table)
    (hin : bringIn files m t c entry kaddr = some (installed, m')) : installed = false := by
  obtain ⟨⟨filled, m1⟩, hfill, hin⟩ := bind_eq_some_iff.mp hin
  cases filled with
  | false =>
    cases hin
    rfl
  | true =>
    dsimp only at hin
    rw [if_pos rfl, Vm.installPage, fill_procs hfill] at hin
    obtain ⟨pd, hpd, hin⟩ := bind_eq_some_iff.mp hin
    split at hin
    · next hmap =>
      rcases h with ⟨hbin, hshort⟩ | hmapped | htable
      · simp only [fill, hbin, hshort] at hfill
        cases hfill
      · rw [Vm.frameOf, hpd, bind_some] at hmapped
        exact absurd hmap.1 hmapped
      · exact absurd hmap.2 (by rw [htable]; exact Bool.false_ne_true)
    · cases hin
      rfl

/-- **A failed page-in is a panic.**  Whenever `load_file` or `install_page` fails in
`handle_mm_fault`, whatever the page entry, the address of the `struct page` fails the assertion of
`find_page_from_list_LRU`.  Nothing is returned, and nothing is undone. -/
theorem page_in_failure_panics {u : HeapUse} (hu : u.Sound) (hpage : c.page = some page)
    (hlive : u.live page ≠ none) (halloc : s.allocPage true c.vict = some (some kaddr, m))
    (hentry : m.heap pge = some entry) (hfail : Fails files m t entry c.table) :
    handleMmFault base files s t c pge = none ∧
      ¬ Returns (handleMmFault base files s t c pge) (NoTrace m pge kaddr) := by
  have hnone : handleMmFault base files s t c pge = none := by
    rw [eq_none_iff_forall_ne_some]
    intro a ha
    rw [handleMmFault, hpage, isSome_some, halloc] at ha
    dsimp only [bind_eq_bind, bind_some] at ha
    rw [hentry, bind_some] at ha
    obtain ⟨⟨installed, m'⟩, hin, ha⟩ := bind_eq_some_iff.mp ha
    dsimp only at ha
    rw [hfail.not_installed hin, if_neg Bool.false_ne_true,
      Vm.freePageKaddrAt_block (hu.pgOfs_ne_zero hlive)] at ha
    cases ha
  refine ⟨hnone, ?_⟩
  rintro ⟨a, ha, -⟩
  rw [hnone] at ha
  cases ha

/-- A machine with two frames, where process 3 has the entry `entry`, at 0x100, and the page
directory `pd`. -/
def oneProcess (pd : PageDir) (entry : PageEntry) : Vm where
  threads := [3]
  heap := Function.update (fun _ ↦ none) 0x100 (some entry)
  procs := Function.update (fun _ ↦ ⟨none, ∅⟩) 3
    ⟨some pd, (∅ : AList fun _ : Nat ↦ Nat).insert entry.vaddr 0x100⟩
  listLRU := []
  userPool := Bitmap.create 2
  mem _ _ := 0
  swap := Swap.init 0 ⟨0, fun _ _ ↦ 0⟩

theorem getPge_oneProcess {v e : Nat}
    (h : (oneProcess pd entry).getPge 3 v = some e) : v = entry.vaddr ∧ e = 0x100 := by
  replace h : ((∅ : AList fun _ : Nat ↦ Nat).insert entry.vaddr 0x100).lookup v = some e := h
  by_cases hv : v = entry.vaddr
  · subst hv
    rw [AList.lookup_insert] at h
    exact ⟨rfl, (some.inj h).symm⟩
  · rw [AList.lookup_insert_ne hv] at h
    cases h

/-- A segment page, of which the file has nothing. -/
def shortEntry : PageEntry :=
  { type := .bin, vaddr := 0x08048000, writable := false, isLoaded := false, file := 0,
    offset := 0, readBytes := 4096, zeroBytes := 0, swapSlot := 0 }

theorem page_in_failure_panics_short :
    ∃ m, (oneProcess ∅ shortEntry).allocPage true ⟨0, 0, 0⟩ = some (some 0, m) ∧
      Fails noFiles m 3 shortEntry true ∧
      handleMmFault 0xC0400000 noFiles (oneProcess ∅ shortEntry) 3
        ⟨none, some 0xC010100C, ⟨0, 0, 0⟩, true⟩ 0x100 = none ∧
      ¬ Returns (handleMmFault 0xC0400000 noFiles (oneProcess ∅ shortEntry) 3
        ⟨none, some 0xC010100C, ⟨0, 0, 0⟩, true⟩ 0x100) (NoTrace m 0x100 0) := by
  obtain ⟨u, hu, hlive⟩ := HeapUse.exists_live
  have hfail {m : Vm} : Fails noFiles m 3 shortEntry true := .inl ⟨rfl, rfl⟩
  exact ⟨_, rfl, hfail, page_in_failure_panics hu rfl hlive rfl rfl hfail⟩

/-- A page of a segment whose file ends before it is touched: the kernel panics. -/
theorem short_file_panics : Vm.loadFile (noFiles shortEntry.file) shortEntry = none ∧
    handleMmFault 0xC0400000 noFiles (oneProcess ∅ shortEntry) 3
      ⟨none, some 0xC010100C, ⟨0, 0, 0⟩, true⟩ 0x100 = none := by
  exact ⟨rfl, rfl⟩

/-! ## Frames for new pages -/

/-- `alloc_page` takes the page `v` away from thread `t`: no frame is free, and `get_victim` picks
that page. -/
def Evicts (s : Vm) (vict : Page) (t v : Nat) : Prop :=
  s.pallocGetPage = some (none, s) ∧ vict.thread = t ∧
    ∃ entry, s.heap vict.pge = some entry ∧ entry.vaddr = v

theorem isSome_pagedir_replacementMem {vict : Page} (h : s.replacementMem vict = some m) :
    (m.procs t).pagedir.isSome = (s.procs t).pagedir.isSome := by
  simp only [Vm.replacementMem, Vm.freePage, bind_eq_bind, bind_eq_some_iff,
    assert_eq_some, Prod.exists] at h
  obtain ⟨_, -, pd, hpd, _, -, m1, entry', hback, pd', hpd', _, -, _, -, hfree⟩ := h
  have hm : m1.procs = s.procs := by
    rcases Vm.writeBack_spec hback with ⟨-, rfl, -⟩ | ⟨-, swap, slot, -, rfl, -⟩ <;> rfl
  rw [(Vm.pallocFreePage_spec hfree).2.2.1]
  by_cases ht : t = vict.thread
  · subst ht
    simp [Vm.delPageFromListLRU, Vm.setPagedir, Vm.setProc, hpd]
  · simp [Vm.delPageFromListLRU, Vm.setPagedir, Vm.setProc, Vm.setPge, hm, ht]

/-- **`alloc_page` and the tables of a thread.** -/
theorem allocPage_tables {k : Option Nat} {vict : Page} (h : s.allocPage true vict = some (k, m)) :
    k.isSome ∧ (∀ v, m.getPge t v = s.getPge t v) ∧
      (m.procs t).pagedir.isSome = (s.procs t).pagedir.isSome ∧
      ∀ v, m.frameOf t v = none ↔ s.frameOf t v = none ∨ Evicts s vict t v := by
  rw [Vm.allocPage, if_pos rfl] at h
  simp only [bind_eq_bind, bind_eq_some_iff, Prod.exists] at h
  obtain ⟨k0, s0, hget, h⟩ := h
  rcases Vm.pallocGetPage_spec hget with ⟨rfl, rfl⟩ | ⟨kaddr, rfl, -, b, rfl, -⟩
  · simp only [bind_eq_some_iff, Prod.exists, pure_def, some_inj,
      Prod.mk.injEq] at h
    obtain ⟨n, hrep, _, m', hget', kaddr, rfl, rfl, rfl⟩ := h
    obtain ⟨entry, hev⟩ := Vm.replacementMem_spec hrep
    -- The second `palloc_get_page` only changes the bitmap.
    obtain ⟨hnone, -⟩ | ⟨-, -, -, b, rfl, -⟩ := Vm.pallocGetPage_spec hget'
    · cases hnone
    refine ⟨rfl, fun v ↦ hev.getPge t v, (isSome_pagedir_replacementMem hrep :),
      fun v ↦ ?_⟩
    have hframe : Vm.frameOf { n with userPool := b } t v =
        if t = vict.thread ∧ v = entry.vaddr then none else s0.frameOf t v := hev.frameOf t v
    rw [hframe]
    split
    · next heq => exact iff_of_true rfl (.inr ⟨hget, heq.1.symm, entry, hev.heap_page, heq.2.symm⟩)
    · next hne =>
      refine ⟨.inl, ?_⟩
      rintro (hnone | ⟨-, rfl, entry', hentry, rfl⟩)
      · exact hnone
      · cases hev.heap_page.symm.trans hentry
        exact absurd ⟨rfl, rfl⟩ hne
  · cases h
    refine ⟨rfl, fun _ ↦ rfl, rfl, fun v ↦ ⟨.inl, ?_⟩⟩
    rintro (hnone | ⟨hfull, -⟩)
    · exact hnone
    · rw [hget] at hfull
      cases hfull

/-! ## A stack page -/

/-- There is what a page at `upage` takes, once there is a block for its entry. -/
structure Room (s : Vm) (t upage : Nat) (c : Choices) : Prop where
  /-- There is a block for the `struct page`. -/
  page : c.page ≠ none
  /-- `alloc_page` finds a frame: a free one, or that of a page which can be evicted. -/
  frame : s.allocPage true c.vict ≠ none
  pagedir : (s.procs t).pagedir ≠ none
  table : c.table = true
  /-- Nothing is mapped there, or it is what has to make way. -/
  unmapped : s.frameOf t upage = none ∨ Evicts s c.vict t upage
  unregistered : s.getPge t upage = none

/-- The page at `upage` is mapped writable, is on `list_LRU`, and has the entry at `pge`, which says
that it is anonymous and loaded. -/
structure HasStackPage (s : Vm) (t upage pge : Nat) : Prop where
  mapped : ∃ kaddr, s.frameOf t upage = some kaddr ∧ ⟨kaddr, pge, t⟩ ∈ s.listLRU
  writable : ∃ pd, (s.procs t).pagedir = some pd ∧ pd.isWritable upage = true
  registered : s.getPge t upage = some pge
  entry : s.heap pge = some (Vm.stackEntry upage)

/-- Nothing has happened, and nothing is left. -/
structure Untouched (s : Vm) (a : Attempt) : Prop where
  vm : a.vm = s
  blocks : a.blocks = []

/-- The state after `insert_pge`, where `m` is the one in which `alloc_page` has returned. -/
def mappedVm (m : Vm) (t upage pge kaddr : Nat) (pd : PageDir) : Vm :=
  ((((m.setMem kaddr fun _ ↦ 0).addPageToListLRU ⟨kaddr, pge, t⟩).setPagedir t
    (pd.setPage upage kaddr true)).setPge pge (some (Vm.stackEntry upage))).insertPge t upage pge

/-- **What can come of a stack page**, if the address of the `struct page` is not that of a page. -/
theorem mapStackPage_cases {a : Attempt} (hpage : ∀ page, c.page = some page → pgOfs page ≠ 0)
    (h : mapStackPage base s t c upage = some a) :
    c.pge = none ∧ a = ⟨.noEntry, s, []⟩ ∨ ∃ pge, c.pge = some pge ∧
      (c.page = none ∧ a = ⟨.noPage, s, [pge]⟩ ∨ ∃ page kaddr m pd, c.page = some page ∧
        s.allocPage true c.vict = some (some kaddr, m) ∧ (m.procs t).pagedir = some pd ∧
        pd.getPage upage = none ∧ c.table = true ∧
        a = ⟨.mapped, mappedVm m t upage pge kaddr pd, [pge, page]⟩) := by
  rw [mapStackPage] at h
  cases hpge : c.pge with
  | none =>
    rw [hpge] at h
    exact .inl ⟨rfl, (some.inj h).symm⟩
  | some pge =>
    rw [hpge] at h
    refine .inr ⟨pge, rfl, ?_⟩
    cases hp : c.page with
    | none =>
      rw [hp] at h
      exact .inl ⟨rfl, (some.inj h).symm⟩
    | some page =>
      rw [hp, isSome_some] at h
      simp only [bind_eq_bind, bind_eq_some_iff, Prod.exists] at h
      obtain ⟨k, m, halloc, h⟩ := h
      obtain ⟨kaddr, rfl⟩ := isSome_iff_exists.mp (allocPage_tables (t := t) halloc).1
      simp only [bind_eq_some_iff, Prod.exists] at h
      obtain ⟨installed, m', hinst, h⟩ := h
      obtain ⟨pd, hpd, hinst⟩ := bind_eq_some_iff.mp hinst
      split at hinst
      · next hroom =>
        cases hinst
        rw [if_pos rfl] at h
        exact .inr ⟨page, kaddr, m, pd, rfl, halloc, hpd, hroom.1, hroom.2,
          (some.inj h).symm⟩
      · cases hinst
        rw [if_neg Bool.false_ne_true, Vm.freePageKaddrAt_block (hpage _ hp)] at h
        cases h

theorem pagedir_insertPge {u w e : Nat} :
    ((m.insertPge u w e).procs t).pagedir = (m.procs t).pagedir := by
  rw [Vm.insertPge]
  split
  · rfl
  · by_cases h : t = u
    · subst h
      simp only [Vm.setProc, update_self]
    · simp only [Vm.setProc, update_of_ne h]

theorem getPge_mappedVm : (mappedVm m t upage pge kaddr pd).getPge t upage =
    if m.getPge t upage = none then some pge else m.getPge t upage := by
  have hget : ((((m.setMem kaddr fun _ ↦ 0).addPageToListLRU ⟨kaddr, pge, t⟩).setPagedir t
      (pd.setPage upage kaddr true)).setPge pge (some (Vm.stackEntry upage))).getPge t upage =
      m.getPge t upage :=
    (Vm.getPge_setPge ..).trans Vm.getPge_setPagedir
  rw [mappedVm, Vm.getPge_insertPge, hget]
  simp only [true_and]

/-- The page is there, unless `insert_pge` has found another entry. -/
theorem hasStackPage_mappedVm (hget : m.getPge t upage = none) :
    HasStackPage (mappedVm m t upage pge kaddr pd) t upage pge := by
  refine ⟨⟨kaddr, ?_, ?_⟩, ⟨pd.setPage upage kaddr true, ?_, ?_⟩, ?_, ?_⟩
  · rw [mappedVm, Vm.frameOf_insertPge, Vm.frameOf_setPge, Vm.frameOf_setPagedir, if_pos rfl,
      PageDir.getPage_setPage, if_pos rfl]
  · rw [mappedVm, Vm.insertPge_listLRU]
    exact List.mem_append_right _ List.mem_cons_self
  · rw [mappedVm, pagedir_insertPge]
    simp only [Vm.setPge, Vm.setPagedir, Vm.setProc, update_self]
  · simp only [PageDir.isWritable, PageDir.setPage, AList.lookup_insert]
  · rw [getPge_mappedVm, if_pos hget]
  · rw [mappedVm, Vm.insertPge_heap]
    exact update_self ..

/-- **With room, a stack page is set up.** -/
theorem mapStackPage_of_room (base : Nat) (hpge : c.pge = some pge) (hroom : Room s t upage c) :
    Returns (mapStackPage base s t c upage) fun a ↦
      a.outcome = .mapped ∧ HasStackPage a.vm t upage pge := by
  obtain ⟨page, hp⟩ := ne_none_iff_exists'.mp hroom.page
  obtain ⟨⟨k, m⟩, halloc⟩ := ne_none_iff_exists'.mp hroom.frame
  obtain ⟨hk, hget, hisSome, hframe⟩ := allocPage_tables (t := t) halloc
  obtain ⟨kaddr, rfl⟩ := isSome_iff_exists.mp hk
  rw [isSome_iff_ne_none.mpr hroom.pagedir, isSome_iff_exists] at hisSome
  obtain ⟨pd, hpd⟩ := hisSome
  have hnone := (hframe upage).mpr hroom.unmapped
  rw [Vm.frameOf, hpd, bind_some] at hnone
  have hinst : ((m.setMem kaddr fun _ ↦ 0).addPageToListLRU ⟨kaddr, pge, t⟩).installPage t upage
      kaddr true c.table = some (true, ((m.setMem kaddr fun _ ↦ 0).addPageToListLRU
        ⟨kaddr, pge, t⟩).setPagedir t (pd.setPage upage kaddr true)) := by
    refine bind_eq_some_iff.mpr ⟨pd, hpd, ?_⟩
    exact if_pos ⟨hnone, hroom.table⟩
  refine ⟨⟨.mapped, mappedVm m t upage pge kaddr pd, [pge, page]⟩, ?_, rfl,
    hasStackPage_mappedVm ((hget upage).trans hroom.unregistered)⟩
  rw [mapStackPage, hpge, hp, isSome_some, halloc]
  dsimp only [bind_eq_bind, bind_some]
  rw [hinst]
  rfl

/-- **A stack page that is set up had room.** -/
theorem room_of_hasStackPage {a : Attempt} (hpage : ∀ page, c.page = some page → pgOfs page ≠ 0)
    (hfresh : ∀ v, s.getPge t v ≠ some pge) (hpge : c.pge = some pge)
    (h : mapStackPage base s t c upage = some a) (ha : HasStackPage a.vm t upage pge) :
    a.outcome = .mapped ∧ Room s t upage c := by
  rcases mapStackPage_cases hpage h with ⟨hnone, -⟩ | ⟨pge', hpge', ⟨-, rfl⟩ |
    ⟨page, kaddr, m, pd, hp, halloc, hpd, hunmapped, htable, rfl⟩⟩
  · cases hnone.symm.trans hpge
  · exact absurd ha.registered (hfresh upage)
  · cases hpge'.symm.trans hpge
    obtain ⟨-, hget, hisSome, hframe⟩ := allocPage_tables (t := t) halloc
    refine ⟨rfl, ?_, ?_, ?_, htable, (hframe upage).mp ?_, ?_⟩
    · rw [hp]
      exact some_ne_none page
    · rw [halloc]
      exact some_ne_none _
    · rw [← isSome_iff_ne_none, ← hisSome, hpd]
      rfl
    · rw [Vm.frameOf, hpd]
      exact hunmapped
    · have hreg : (if m.getPge t upage = none then some pge else m.getPge t upage) = some pge :=
        getPge_mappedVm.symm.trans ha.registered
      rw [hget] at hreg
      by_contra hne
      rw [if_neg hne] at hreg
      exact hfresh upage hreg

theorem mapStackPage_noEntry (hpge : c.pge = none) :
    mapStackPage base s t c upage = some ⟨.noEntry, s, []⟩ := by
  rw [mapStackPage, hpge]

/-- Blocks are left over unless there is none for the page entry. -/
theorem pge_of_blocks {a : Attempt} (hpage : ∀ page, c.page = some page → pgOfs page ≠ 0)
    (h : mapStackPage base s t c upage = some a) (hblocks : a.blocks = []) : c.pge = none := by
  rcases mapStackPage_cases hpage h with ⟨hnone, -⟩ | ⟨pge, -, ⟨-, rfl⟩ |
    ⟨page, kaddr, m, pd, -, -, -, -, -, rfl⟩⟩
  · exact hnone
  · cases hblocks
  · cases hblocks

section

variable (hblock : ∀ page, c.page = some page → pgOfs page ≠ 0)
  (hfresh : ∀ pge v, c.pge = some pge → s.getPge t v ≠ some pge)

include hblock hfresh

theorem setupStack_iff : Returns (setupStack base s t c) (fun r ↦
      (r.1 = true → r.2.1 = some (physBase - 12) ∧
        ∃ pge, c.pge = some pge ∧ HasStackPage r.2.2.vm t (physBase - pgSize) pge) ∧
      (r.1 = false → Untouched s r.2.2)) ↔ c.pge = none ∨ Room s t (physBase - pgSize) c := by
  constructor
  · rintro ⟨r, hr, htrue, hfalse⟩
    obtain ⟨a, ha, hr⟩ := bind_eq_some_iff.mp hr
    split at hr
    all_goals cases hr
    · exact .inl (pge_of_blocks hblock ha (hfalse rfl).blocks)
    · exact .inl (pge_of_blocks hblock ha (hfalse rfl).blocks)
    · cases (htrue rfl).1
    · obtain ⟨-, pge, hpge, hhas⟩ := htrue rfl
      exact .inr (room_of_hasStackPage hblock (fun v ↦ hfresh pge v hpge) hpge ha hhas).2
  · intro h
    cases hpge : c.pge with
    | none =>
      refine ⟨(false, none, ⟨.noEntry, s, []⟩), ?_, nofun, fun _ ↦ ⟨rfl, rfl⟩⟩
      exact bind_eq_some_iff.mpr ⟨_, mapStackPage_noEntry hpge, rfl⟩
    | some pge =>
      have hroom := h.resolve_left (by rw [hpge]; exact some_ne_none pge)
      obtain ⟨a, ha, hmapped, hhas⟩ := mapStackPage_of_room base hpge hroom
      refine ⟨(true, some (physBase - 12), a), ?_, fun _ ↦ ⟨rfl, pge, rfl, hhas⟩, nofun⟩
      refine bind_eq_some_iff.mpr ⟨a, ha, ?_⟩
      rw [hmapped]
      rfl

theorem mapStackPage_iff : Returns (mapStackPage base s t c upage) (fun a ↦
      (∃ pge, c.pge = some pge ∧ HasStackPage a.vm t upage pge) ∨ Untouched s a) ↔
    c.pge = none ∨ Room s t upage c := by
  constructor
  · rintro ⟨a, ha, ⟨pge, hpge, hhas⟩ | hun⟩
    · exact .inr (room_of_hasStackPage hblock (fun v ↦ hfresh pge v hpge) hpge ha hhas).2
    · exact .inl (pge_of_blocks hblock ha hun.blocks)
  · intro h
    cases hpge : c.pge with
    | none => exact ⟨⟨.noEntry, s, []⟩, mapStackPage_noEntry hpge, .inr ⟨rfl, rfl⟩⟩
    | some pge =>
      have hroom := h.resolve_left (by rw [hpge]; exact some_ne_none pge)
      exact (mapStackPage_of_room base hpge hroom).mono fun a ha ↦ .inl ⟨pge, rfl, ha.2⟩

end

/-- **A stack page, or nothing.**  `setup_stack` returns true only with the stack page set up and
`*esp` below it, and false only with nothing left behind, and `stack_grow` sets up the page or
leaves everything as it was, if and only if there is no block for the page entry, or there is room
for everything else.  Otherwise an assertion fails, or `setup_stack` returns true for a stack page
that is not there, or the block of the page entry is lost. -/
theorem stack_page_all_or_nothing {u : HeapUse} (hu : u.Sound)
    (hpage : ∀ page, c.page = some page → u.live page ≠ none)
    (hfresh : ∀ pge v, c.pge = some pge → s.getPge t v ≠ some pge) :
    (Returns (setupStack base s t c) (fun r ↦ (r.1 = true → r.2.1 = some (physBase - 12) ∧
          ∃ pge, c.pge = some pge ∧ HasStackPage r.2.2.vm t (physBase - pgSize) pge) ∧
        (r.1 = false → Untouched s r.2.2)) ↔ c.pge = none ∨ Room s t (physBase - pgSize) c) ∧
    ∀ addr, (Returns (stackGrow base s t c addr) (fun a ↦
        (∃ pge, c.pge = some pge ∧ HasStackPage a.vm t (pgRoundDown addr) pge) ∨ Untouched s a) ↔
      c.pge = none ∨ Room s t (pgRoundDown addr) c) := by
  have hblock : ∀ page, c.page = some page → pgOfs page ≠ 0 := fun page hp ↦
    hu.pgOfs_ne_zero (hpage page hp)
  exact ⟨setupStack_iff hblock hfresh, fun addr ↦ mapStackPage_iff hblock hfresh⟩

/-- With memory for everything, the stack page is set up. -/
theorem stack_page_all_or_nothing_room : Room (oneProcess ∅ shortEntry) 3 (physBase - pgSize)
      ⟨some 0x200, some 0xC010100C, ⟨0, 0, 0⟩, true⟩ ∧
    Returns (setupStack 0xC0400000 (oneProcess ∅ shortEntry) 3
      ⟨some 0x200, some 0xC010100C, ⟨0, 0, 0⟩, true⟩) (fun r ↦
        (r.1 = true → r.2.1 = some (physBase - 12) ∧ ∃ pge, some 0x200 = some pge ∧
          HasStackPage r.2.2.vm 3 (physBase - pgSize) pge) ∧
        (r.1 = false → Untouched (oneProcess ∅ shortEntry) r.2.2)) := by
  obtain ⟨u, hu, hlive⟩ := HeapUse.exists_live
  have hroom : Room (oneProcess ∅ shortEntry) 3 (physBase - pgSize)
      ⟨some 0x200, some 0xC010100C, ⟨0, 0, 0⟩, true⟩ :=
    ⟨nofun, nofun, nofun, rfl, .inl rfl, rfl⟩
  refine ⟨hroom, (stack_page_all_or_nothing hu ?_ ?_).1.mpr (.inr hroom)⟩
  · rintro _ ⟨⟩
    exact hlive
  · rintro _ v ⟨⟩ hget
    cases (getPge_oneProcess hget).2

/-- There is a block for the page entry and none for the `struct page`: `setup_stack` returns true
without a stack page, and the block is lost, as it is in `stack_grow`.  If there is no page table,
both run into the assertion. -/
theorem stack_page_missing : (∃ a, setupStack 0xC0400000 (oneProcess ∅ shortEntry) 3
        ⟨some 0x200, none, ⟨0, 0, 0⟩, true⟩ = some (true, none, a) ∧
      a.vm.frameOf 3 (physBase - pgSize) = none ∧ a.blocks = [0x200]) ∧
    (∃ a, stackGrow 0xC0400000 (oneProcess ∅ shortEntry) 3
        ⟨some 0x200, none, ⟨0, 0, 0⟩, true⟩ 0xBFFFE000 = some a ∧
      a.vm.frameOf 3 0xBFFFE000 = none ∧ a.blocks = [0x200]) ∧
    setupStack 0xC0400000 (oneProcess ∅ shortEntry) 3
      ⟨some 0x200, some 0xC010100C, ⟨0, 0, 0⟩, false⟩ = none := by
  exact ⟨⟨_, rfl, rfl, rfl⟩, ⟨_, rfl, rfl, rfl⟩, rfl⟩

end

end PageSetup

end Pintos
