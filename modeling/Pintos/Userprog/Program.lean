import Pintos.Userprog.Segment
import Pintos.Userprog.Arguments
import Pintos.Vm.PageSetup
import Pintos.Vm.SwapOwnership

/-!
# The pages of a program

`load` reads the executable header and the program headers of a file, and `load_segment` calls
`insert_pge` for each page of a `PT_LOAD` segment.  A second entry for the same page is refused by
`hash_insert`, and neither `load_segment` nor `setup_stack` looks at what `insert_pge` returns.

* `headerLoop` and `loadProgram` — `load`, from the bytes of the file on;
* `headerLoop_of_fits` — once the headers can be read, it is the loop over their list;
* `accepted_of_loadEntries`, `loadEntries_eq` — which headers `load` accepts, and the entries it
  makes then;
* `getElem_loadPages` — if no page comes twice, each has the entry made for it;
* `load_maps_segments_iff` — and only then.
-/

set_option autoImplicit false

namespace Pintos

open List Option

/-! ## The headers -/

/-- The 16-bit number at offset `o`. -/
def le16 (b : Buffer) (o : Nat) : Nat := (b o).toNat + 2 ^ 8 * (b (o + 1)).toNat

/-- `sizeof (struct Elf32_Ehdr)`. -/
abbrev ehdrSize : Nat := 52

/-- `sizeof (struct Elf32_Phdr)`. -/
abbrev phdrSize : Nat := 32

/-- `struct Elf32_Ehdr`: the fields `load` looks at. -/
structure Ehdr where
  /-- The first seven bytes of `e_ident`. -/
  eIdent : List UInt8
  eType : Nat
  eMachine : Nat
  eVersion : Nat
  ePhoff : Nat
  ePhentsize : Nat
  ePhnum : Nat
  deriving DecidableEq, Repr

/-- The executable header at the beginning of a file. -/
def readEhdr (b : Buffer) : Ehdr where
  eIdent := (List.range 7).map b
  eType := le16 b 16
  eMachine := le16 b 18
  eVersion := le32 b 20
  ePhoff := le32 b 28
  ePhentsize := le16 b 42
  ePhnum := le16 b 44

/-- The program header at offset `ofs`. -/
def readPhdr (b : Buffer) (ofs : Nat) : Phdr where
  pType := le32 b ofs
  pOffset := le32 b (ofs + 4)
  pVaddr := le32 b (ofs + 8)
  pFilesz := le32 b (ofs + 16)
  pMemsz := le32 b (ofs + 20)
  pFlags := le32 b (ofs + 24)

/-- `load` verifies the executable header. -/
def verifyEhdr (image : FileImage) : Bool :=
  let ehdr := readEhdr image.data
  decide (ehdrSize ≤ image.length)
    && ehdr.eIdent == [0x7f, 0x45, 0x4c, 0x46, 1, 1, 1]
    && ehdr.eType == 2
    && ehdr.eMachine == 3
    && ehdr.eVersion == 1
    && ehdr.ePhentsize == phdrSize
    && !decide (ehdr.ePhnum > 1024)

/-- The loop of `load` over the `n` program headers from `fileOfset` on: the entries made, and
whether it came through. -/
def headerLoop (file : Nat) (image : FileImage) : Nat → Nat → List PageEntry × Bool
  | 0, _ => ([], true)
  | n + 1, fileOfset =>
    -- `file_ofset` is signed, so that an offset of 2 ^ 31 or more is negative.
    if fileOfset ≥ 2 ^ 31 ∨ fileOfset > image.length then ([], false)
    else if fileOfset + phdrSize > image.length then ([], false)
    else
      let phdr := readPhdr image.data fileOfset
      if phdr.pType = 2 ∨ phdr.pType = 3 ∨ phdr.pType = 5 then ([], false)
      else if phdr.pType = 1 then
        if validateSegment phdr image.length then
          let (entries, success) := headerLoop file image n (fileOfset + phdrSize)
          (segmentEntries file phdr ++ entries, success)
        else ([], false)
      else headerLoop file image n (fileOfset + phdrSize)

/-- What `load` does not decide itself. -/
structure ProgramChoices where
  /-- The addresses that `malloc` returns for the entries of the segments. -/
  ptrs : List Nat
  /-- The address that `malloc` returns for the entry of the stack page. -/
  stack : Option Nat
  /-- There is memory for the `struct page` of the stack page. -/
  memory : Bool
  /-- The page that `get_victim` picks, if it is called. -/
  vict : Page
  /-- `lookup_page` gets the page table. -/
  table : Bool
  /-- The words of the command line. -/
  words : List (List UInt8)

/-- `load` in thread `t`, once it has a page directory and `filesys_open` has found the file.  If
`setup_stack` does not store to `*esp`, it is zero, as `start_process` has left it. -/
def loadProgram (s : Vm) (t file : Nat) (image : FileImage) (c : ProgramChoices) :
    Kernel (Bool × Vm) :=
  let s := s.setPagedir t ∅
  if verifyEhdr image then
    let ehdr := readEhdr image.data
    let (entries, success) := headerLoop file image ehdr.ePhnum ehdr.ePhoff
    let s := s.loadPages t c.ptrs entries
    if success ∧ entries.length ≤ c.ptrs.length then do
      let (success, esp, s) ← s.setupStack t c.stack c.memory c.vict c.table
      if success then
        let _ ← UserStack.constructEsp ⟨esp.getD 0, fun _ ↦ 0⟩ c.words
        return (true, s)
      else return (false, s)
    else some (false, s)
  else some (false, s)

/-! ## The headers that are accepted -/

/-- The `n` program headers from offset `ofs` on. -/
def phdrsFrom (b : Buffer) : Nat → Nat → List Phdr
  | 0, _ => []
  | n + 1, ofs => readPhdr b ofs :: phdrsFrom b n (ofs + phdrSize)

/-- The program headers of a file. -/
def FileImage.phdrs (image : FileImage) : List Phdr :=
  phdrsFrom image.data (readEhdr image.data).ePhnum (readEhdr image.data).ePhoff

/-- The `n` program headers from offset `ofs` on are within the file. -/
def Fits (image : FileImage) (n ofs : Nat) : Prop :=
  ∀ i < n, ofs + i * phdrSize < 2 ^ 31 ∧ ofs + (i + 1) * phdrSize ≤ image.length

/-- `load` accepts a program header. -/
def Phdr.Accepted (phdr : Phdr) (fileLength : Nat) : Prop :=
  ¬ (phdr.pType = 2 ∨ phdr.pType = 3 ∨ phdr.pType = 5) ∧
    (phdr.pType = 1 → validateSegment phdr fileLength = true)

/-- `load` accepts a file. -/
structure FileImage.Accepted (image : FileImage) : Prop where
  ehdr : verifyEhdr image = true
  fits : Fits image (readEhdr image.data).ePhnum (readEhdr image.data).ePhoff
  phdrs : ∀ phdr ∈ image.phdrs, phdr.Accepted image.length

/-- The pages of the `PT_LOAD` headers, in the order in which `load` comes to them: the header, and
the number of the page. -/
def segmentPages (phdrs : List Phdr) : List (Phdr × Nat) :=
  (phdrs.filter (·.pType = 1)).flatMap fun phdr ↦ (List.range phdr.pageCnt).map fun k ↦ (phdr, k)

/-- The entry for page `k` of a segment. -/
def Phdr.pageEntry (phdr : Phdr) (file k : Nat) : PageEntry :=
  segmentPage file (phdr.pOffset / pgSize * pgSize) (phdr.pVaddr / pgSize * pgSize) phdr.readBytes
    (decide (phdr.pFlags / 2 % 2 ≠ 0)) k

/-- The address of page `k` of a segment. -/
def Phdr.upage (phdr : Phdr) (k : Nat) : Nat := phdr.pVaddr / pgSize * pgSize + k * pgSize

section

variable {file fileLength n ofs : Nat} {image : FileImage} {phdrs : List Phdr}

theorem fits_succ : Fits image (n + 1) ofs ↔
    (ofs < 2 ^ 31 ∧ ofs + phdrSize ≤ image.length) ∧ Fits image n (ofs + phdrSize) := by
  constructor
  · intro h
    refine ⟨by simpa using h 0 (by omega), fun i hi ↦ ?_⟩
    have := h (i + 1) (by omega)
    simp only [phdrSize] at this ⊢
    omega
  · rintro ⟨h, hrest⟩ i hi
    cases i with
    | zero => simpa using h
    | succ i =>
      have := hrest i (by omega)
      simp only [phdrSize] at this ⊢
      omega

/-- **The headers are read one after the other**, and this is the loop over their list. -/
theorem headerLoop_of_fits (h : Fits image n ofs) :
    headerLoop file image n ofs = loadEntries file image.length (phdrsFrom image.data n ofs) := by
  induction n generalizing ofs with
  | zero => rfl
  | succ n ih =>
    obtain ⟨⟨hsigned, hlen⟩, hrest⟩ := fits_succ.mp h
    rw [headerLoop, if_neg (by simp only [phdrSize] at hlen; omega), if_neg (by omega), phdrsFrom,
      loadEntries, ih hrest]

theorem fits_of_headerLoop (h : (headerLoop file image n ofs).2 = true) : Fits image n ofs := by
  induction n generalizing ofs with
  | zero => exact nofun
  | succ n ih =>
    rw [headerLoop] at h
    split at h
    · cases h
    split at h
    · cases h
    next hsigned hlen =>
      refine fits_succ.mpr ⟨by omega, ih ?_⟩
      dsimp only at h
      split at h
      · cases h
      split at h
      · split at h
        · exact h
        · cases h
      · exact h

theorem accepted_of_loadEntries (h : (loadEntries file fileLength phdrs).2 = true) :
    ∀ phdr ∈ phdrs, phdr.Accepted fileLength := by
  induction phdrs with
  | nil => exact nofun
  | cons phdr rest ih =>
    rw [loadEntries] at h
    split at h
    · cases h
    next hrefused =>
      split at h
      next hload =>
        split at h
        next hvalid => exact forall_mem_cons.mpr ⟨⟨hrefused, fun _ ↦ hvalid⟩, ih h⟩
        next => cases h
      next hload =>
        exact forall_mem_cons.mpr ⟨⟨hrefused, fun hpt ↦ absurd hpt hload⟩, ih h⟩

/-- **Which entries `load` makes**: one for each page of each `PT_LOAD` header. -/
theorem loadEntries_eq (hword : ∀ phdr ∈ phdrs, phdr.pMemsz < 2 ^ 32)
    (h : ∀ phdr ∈ phdrs, phdr.Accepted fileLength) : loadEntries file fileLength phdrs =
      ((segmentPages phdrs).map fun page ↦ page.1.pageEntry file page.2, true) := by
  induction phdrs with
  | nil => rfl
  | cons phdr rest ih =>
    obtain ⟨⟨hrefused, hvalid⟩, hrest⟩ := forall_mem_cons.mp h
    obtain ⟨hmemsz, hword⟩ := forall_mem_cons.mp hword
    rw [loadEntries, if_neg hrefused, ih hword hrest]
    by_cases hload : phdr.pType = 1
    · have hpages : segmentPages (phdr :: rest) =
          (List.range phdr.pageCnt).map (fun k ↦ (phdr, k)) ++ segmentPages rest := by
        rw [segmentPages, filter_cons_of_pos (by simpa using hload), flatMap_cons]
        rfl
      rw [if_pos hload, if_pos (hvalid hload), hpages, map_append, List.map_map,
        segmentEntries_eq (Phdr.Valid.of_validateSegment hmemsz (hvalid hload))]
      rfl
    · rw [if_neg hload, segmentPages, segmentPages,
        filter_cons_of_neg (by simpa using hload)]

theorem pMemsz_lt_of_mem_phdrsFrom {b : Buffer} {phdr : Phdr} (h : phdr ∈ phdrsFrom b n ofs) :
    phdr.pMemsz < 2 ^ 32 := by
  induction n generalizing ofs with
  | zero => cases h
  | succ n ih =>
    rcases mem_cons.mp h with rfl | h
    · exact le32_lt _ _
    · exact ih h

end

/-- The entries of a program. -/
def FileImage.entries (image : FileImage) (file : Nat) : List PageEntry :=
  (segmentPages image.phdrs).map fun page ↦ page.1.pageEntry file page.2

theorem headerLoop_of_accepted {file : Nat} {image : FileImage} (h : image.Accepted) :
    headerLoop file image (readEhdr image.data).ePhnum (readEhdr image.data).ePhoff =
      (image.entries file, true) := by
  rw [headerLoop_of_fits h.fits]
  exact loadEntries_eq (fun _ ↦ pMemsz_lt_of_mem_phdrsFrom) h.phdrs

theorem accepted_of_headerLoop {file : Nat} {image : FileImage} (hverify : verifyEhdr image = true)
    (h : (headerLoop file image (readEhdr image.data).ePhnum (readEhdr image.data).ePhoff).2 =
      true) : image.Accepted := by
  have hfits := fits_of_headerLoop h
  rw [headerLoop_of_fits hfits] at h
  exact ⟨hverify, hfits, accepted_of_loadEntries h⟩

/-! ## The entries in the table -/

namespace Vm

variable {s : Vm} {t : Nat} {ptrs : List Nat} {entries : List PageEntry}

/-- What one entry preserves holds after all of them. -/
theorem loadPages_preserves {I : Vm → Prop}
    (hstep : ∀ {m : Vm} {pge : Nat} {entry : PageEntry}, pge ∈ ptrs → I m →
      I ((m.setPge pge (some entry)).insertPge t entry.vaddr pge)) (h : I s) :
    I (s.loadPages t ptrs entries) := by
  induction entries generalizing s ptrs with
  | nil => cases ptrs <;> exact h
  | cons entry entries ih =>
    cases ptrs with
    | nil => exact h
    | cons pge ptrs =>
      exact ih (fun hmem ↦ hstep (mem_cons_of_mem _ hmem)) (hstep mem_cons_self h)

theorem loadPages_listLRU : (s.loadPages t ptrs entries).listLRU = s.listLRU :=
  loadPages_preserves (I := fun m ↦ m.listLRU = s.listLRU)
    (fun _ hm ↦ insertPge_listLRU.trans hm) rfl

theorem loadPages_userPool : (s.loadPages t ptrs entries).userPool = s.userPool :=
  loadPages_preserves (I := fun m ↦ m.userPool = s.userPool)
    (fun _ hm ↦ insertPge_userPool.trans hm) rfl

theorem loadPages_pagedir {u : Nat} :
    ((s.loadPages t ptrs entries).procs u).pagedir = (s.procs u).pagedir :=
  loadPages_preserves (I := fun m ↦ (m.procs u).pagedir = (s.procs u).pagedir)
    (fun _ hm ↦ PageSetup.pagedir_insertPge.trans hm) rfl

/-- What is not at one of the addresses stays. -/
theorem loadPages_heap {e : Nat} (he : e ∉ ptrs) :
    (s.loadPages t ptrs entries).heap e = s.heap e := by
  refine loadPages_preserves (I := fun m ↦ m.heap e = s.heap e) (fun hmem hm ↦ ?_) rfl
  rw [insertPge_heap]
  refine (Function.update_of_ne ?_ _ _).trans hm
  rintro rfl
  exact he hmem

/-- A page that has an entry keeps it. -/
theorem loadPages_getPge {v e : Nat} (h : s.getPge t v = some e) :
    (s.loadPages t ptrs entries).getPge t v = some e := by
  refine loadPages_preserves (I := fun m ↦ m.getPge t v = some e) (fun _ hm ↦ ?_) h
  rw [getPge_insertPge, getPge_setPge, getPge_setPge, hm, if_neg]
  rintro ⟨-, rfl, hnone⟩
  cases hm.symm.trans hnone

/-- **If no page comes twice, each has the entry made for it.** -/
theorem getElem_loadPages (hptrs : ptrs.Nodup) (hpages : (entries.map (·.vaddr)).Nodup)
    (hnone : ∀ entry ∈ entries, s.getPge t entry.vaddr = none)
    (hlen : entries.length ≤ ptrs.length) {i : Nat} {entry : PageEntry}
    (hi : entries[i]? = some entry) :
    ∃ e, ptrs[i]? = some e ∧ (s.loadPages t ptrs entries).getPge t entry.vaddr = some e ∧
      (s.loadPages t ptrs entries).heap e = some entry := by
  induction entries generalizing s ptrs i with
  | nil => cases hi
  | cons first entries ih =>
    cases ptrs with
    | nil => cases hlen
    | cons pge ptrs =>
      obtain ⟨hpge, hptrs⟩ := nodup_cons.mp hptrs
      obtain ⟨hfirst, hpages⟩ := nodup_cons.mp hpages
      obtain ⟨hnone1, hnone⟩ := forall_mem_cons.mp hnone
      rw [loadPages]
      cases i with
      | zero =>
        cases hi
        refine ⟨pge, rfl, loadPages_getPge ?_, (loadPages_heap hpge).trans ?_⟩
        · rw [getPge_insertPge, getPge_setPge, if_pos ⟨rfl, rfl, hnone1⟩]
        · rw [insertPge_heap]
          exact Function.update_self ..
      | succ i =>
        refine ih hptrs hpages (fun entry hentry ↦ ?_) (Nat.le_of_succ_le_succ hlen) hi
        rw [getPge_insertPge, getPge_setPge, getPge_setPge, if_neg, hnone entry hentry]
        rintro ⟨-, hv, -⟩
        exact hfirst (List.mem_map.mpr ⟨entry, hentry, hv⟩)

/-- The entry of the stack page changes neither another page of the table nor another entry, unless
its page is on `list_LRU` and may have to make way. -/
theorem setupStack_keeps {o : Option Nat} {memory table success : Bool} {vict : Page}
    {esp : Option Nat} {s' : Vm} {v e : Nat} {entry : PageEntry}
    (h : s.setupStack t o memory vict table = some (success, esp, s'))
    (hv : v ≠ physBase - pgSize) (hstack : e ∉ o) (hlru : ∀ p ∈ s.listLRU, p.pge ≠ e)
    (hget : s.getPge t v = some e) (hheap : s.heap e = some entry) :
    s'.getPge t v = some e ∧ s'.heap e = some entry := by
  simp only [setupStack, bind_eq_some, Prod.exists, pure_eq_some, Prod.mk.injEq] at h
  obtain ⟨mapped, m, hmap, -, -, rfl⟩ := h
  rcases mapStackPage_spec hmap with rfl | ⟨pge, kaddr, m', rfl, ha, hg⟩
  · exact ⟨hget, hheap⟩
  have hne : e ≠ pge := fun h ↦ hstack (h ▸ rfl)
  have hold : m'.heap e = s.heap e := by
    obtain ⟨m'', hm, -, b, rfl, -⟩ := ha.before
    rcases hm with rfl | ⟨page, entry', hev⟩
    · rfl
    · exact hev.heap_ne e (hlru page hev.mem).symm
  constructor
  · rw [hg.getPge, if_neg (fun h ↦ hv h.2.1), ha.tables.2.1, hget]
  · rw [hg.heap, if_neg hne, hold, hheap]

end Vm

/-! ## Every segment is mapped -/

/-- A program may be loaded: `malloc` returns no block that is in use. -/
structure Ready (s : Vm) (c : ProgramChoices) : Prop where
  nodup : (c.stack.toList ++ c.ptrs).Nodup
  fresh : ∀ e ∈ c.stack.toList ++ c.ptrs, s.heap e = none
  /-- The pages on `list_LRU` have their entries. -/
  lru : ∀ page ∈ s.listLRU, s.heap page.pge ≠ none

/-- Each page of each `PT_LOAD` header has the entry made for it, and none is the stack page. -/
def Maps (s : Vm) (t file : Nat) (image : FileImage) (ptrs : List Nat) : Prop :=
  ∀ (i : Nat) (phdr : Phdr) (k : Nat), (segmentPages image.phdrs)[i]? = some (phdr, k) →
    phdr.upage k ≠ physBase - pgSize ∧
    ∃ e, ptrs[i]? = some e ∧ s.getPge t (phdr.upage k) = some e ∧
      s.heap e = some (phdr.pageEntry file k)

/-- The pages of a program, and the stack page. -/
def FileImage.upages (image : FileImage) : List Nat :=
  (physBase - pgSize) :: (segmentPages image.phdrs).map fun page ↦ page.1.upage page.2

section

variable {s s' : Vm} {t file : Nat} {image : FileImage} {c : ProgramChoices}

/-- What has happened when `load` returns true. -/
theorem loadProgram_eq_true (h : loadProgram s t file image c = some (true, s')) :
    image.Accepted ∧ (image.entries file).length ≤ c.ptrs.length ∧ ∃ esp,
      ((s.setPagedir t ∅).loadPages t c.ptrs (image.entries file)).setupStack t c.stack c.memory
        c.vict c.table = some (true, esp, s') := by
  rw [loadProgram] at h
  dsimp only at h
  split at h
  next hverify =>
    split at h
    next hloop =>
      have haccepted := accepted_of_headerLoop hverify hloop.1
      rw [headerLoop_of_accepted haccepted] at h hloop
      simp only [bind_eq_some, Prod.exists] at h
      obtain ⟨success, esp, m, hstack, h⟩ := h
      split at h
      next hsuccess =>
        simp only [bind_eq_some, pure_eq_some, Prod.mk.injEq] at h
        obtain ⟨_, -, -, rfl⟩ := h
        obtain rfl := hsuccess
        exact ⟨haccepted, hloop.2, esp, hstack⟩
      next => cases h
    next => cases h
  next => cases h

/-- **Pages that come once are mapped.** -/
theorem maps_of_nodup (hready : Ready s c)
    (h : loadProgram (s.initThread t) t file image c = some (true, s'))
    (hnodup : image.upages.Nodup) : Maps s' t file image c.ptrs := by
  obtain ⟨-, hlen, esp, hstack⟩ := loadProgram_eq_true h
  obtain ⟨hstackPage, hpages⟩ := nodup_cons.mp hnodup
  obtain ⟨-, hptrs, hdisj⟩ := nodup_append.mp hready.nodup
  have hvaddrs : ((image.entries file).map (·.vaddr)).Nodup := by
    rw [FileImage.entries, List.map_map]
    exact hpages
  intro i phdr k hi
  have hne : phdr.upage k ≠ physBase - pgSize := fun heq ↦
    hstackPage (List.mem_map.mpr ⟨(phdr, k), mem_of_getElem? hi, heq⟩)
  have hentry : (image.entries file)[i]? = some (phdr.pageEntry file k) := by
    rw [FileImage.entries, List.getElem?_map, hi]
    rfl
  have hnone : ∀ entry ∈ image.entries file,
      ((s.initThread t).setPagedir t ∅).getPge t entry.vaddr = none := by
    intro entry _
    rw [Vm.getPge_setPagedir, Vm.getPge, Vm.initThread]
    dsimp only
    rw [Function.update_self]
    rfl
  obtain ⟨e, he, hget, hheap⟩ := Vm.getElem_loadPages hptrs hvaddrs hnone hlen hentry
  have hmem : e ∈ c.ptrs := mem_of_getElem? he
  refine ⟨hne, e, he, Vm.setupStack_keeps hstack hne ?_ ?_ hget hheap⟩
  · exact fun h ↦ hdisj e (mem_toList.mpr h) e hmem rfl
  · rw [Vm.loadPages_listLRU]
    rintro p hp rfl
    exact hready.lru p hp (hready.fresh _ (mem_append_right _ hmem))

/-- A page has only one entry. -/
theorem nodup_of_maps (hptrs : c.ptrs.Nodup) (h : Maps s t file image c.ptrs) :
    image.upages.Nodup := by
  have htable : ((segmentPages image.phdrs).map fun page ↦ page.1.upage page.2).map (s.getPge t) =
      (c.ptrs.take (segmentPages image.phdrs).length).map some := by
    refine ext_getElem? fun i ↦ ?_
    rw [List.getElem?_map, List.getElem?_map, List.getElem?_map, List.getElem?_take]
    cases hi : (segmentPages image.phdrs)[i]? with
    | none => rw [if_neg (by simpa using hi)]; rfl
    | some page =>
      obtain ⟨-, e, he, hget, -⟩ := h i page.1 page.2 hi
      rw [if_pos (List.getElem?_eq_some_iff.mp hi).1, he]
      exact congrArg some hget
  refine nodup_cons.mpr ⟨fun hmem ↦ ?_, .of_map (s.getPge t) ?_⟩
  · obtain ⟨⟨phdr, k⟩, hmem, heq⟩ := List.mem_map.mp hmem
    obtain ⟨i, hi⟩ := List.getElem?_of_mem hmem
    exact (h i phdr k hi).1 heq
  · rw [htable]
    exact (hptrs.sublist (take_sublist ..)).map (some_injective _)

/-- With a free frame and memory for everything, `setup_stack` returns true, whatever the table
says about its page. -/
theorem exists_setupStack {m : Vm} (pge : Nat) (vict : Page) (hpool : m.userPool = .create 1)
    (hpd : (m.procs t).pagedir = some ∅) :
    ∃ s', m.setupStack t (some pge) true vict true = some (true, some (physBase - 12), s') := by
  have halloc : ∃ b, m.allocPage true vict = some (some 0, { m with userPool := b }) := by
    rw [Vm.allocPage, if_pos rfl, Vm.pallocGetPage, hpool]
    exact ⟨_, rfl⟩
  obtain ⟨b, halloc⟩ := halloc
  rw [Vm.setupStack, Vm.mapStackPage, halloc]
  dsimp only [some_bind]
  rw [Vm.installPage]
  have hpd' : ((({ m with userPool := b } : Vm).setMem 0 fun _ ↦ 0).addPageToListLRU
      ⟨0, pge, t⟩).procs t = m.procs t := rfl
  rw [hpd', hpd]
  exact ⟨_, rfl⟩

/-- The kernel has one frame and no process. -/
def emptyVm : Vm := .boot 1 0 ⟨0, fun _ _ ↦ 0⟩

/-- There is memory for everything: the entries of `n` pages are at 1, 2, …, and that of the stack
page at 0. -/
def enoughMemory (n : Nat) : ProgramChoices :=
  { ptrs := List.range' 1 n, stack := some 0, memory := true, vict := ⟨0, 0, 0⟩, table := true
    words := [] }

theorem ready_enoughMemory (n : Nat) : Ready emptyVm (enoughMemory n) :=
  ⟨nodup_range' (s := 0) (n := n + 1), fun _ _ ↦ rfl, nofun⟩

/-- With memory for everything, a file that is accepted is loaded. -/
theorem exists_loadProgram (file : Nat) (h : image.Accepted) :
    ∃ s', loadProgram (emptyVm.initThread 1) 1 file image
      (enoughMemory (image.entries file).length) = some (true, s') := by
  have hlen : (image.entries file).length ≤
      (enoughMemory (image.entries file).length).ptrs.length := by
    rw [enoughMemory, length_range']
  obtain ⟨s', hs'⟩ := exists_setupStack (t := 1) 0 ⟨0, 0, 0⟩
    (m := ((emptyVm.initThread 1).setPagedir 1 ∅).loadPages 1
      (enoughMemory (image.entries file).length).ptrs (image.entries file))
    Vm.loadPages_userPool (Vm.loadPages_pagedir.trans rfl)
  refine ⟨s', ?_⟩
  rw [loadProgram, if_pos h.ehdr]
  dsimp only
  rw [headerLoop_of_accepted h, if_pos ⟨rfl, hlen⟩]
  have hesp : Returns (UserStack.constructEsp ⟨physBase - 12, fun _ ↦ 0⟩ []) _ :=
    UserStack.constructEsp_returns (by decide) ⟨by decide, by decide⟩
  obtain ⟨st, hst, -⟩ := hesp
  refine bind_eq_some_iff.mpr ⟨_, hs', ?_⟩
  rw [if_pos rfl]
  exact bind_eq_some_iff.mpr ⟨st, hst, rfl⟩

end

/-- **A load maps every segment**, for every state and all that `malloc` and `get_victim` do, if and
only if `load` never accepts the file, or no page of its `PT_LOAD` headers comes twice or is the
stack page. -/
theorem load_maps_segments_iff (file : Nat) (image : FileImage) :
    (∀ s t c s', Ready s c → loadProgram (s.initThread t) t file image c = some (true, s') →
      Maps s' t file image c.ptrs) ↔ (image.Accepted → image.upages.Nodup) := by
  constructor
  · intro hmaps haccepted
    obtain ⟨s', hload⟩ := exists_loadProgram file haccepted
    have hready := ready_enoughMemory (image.entries file).length
    exact nodup_of_maps (nodup_append.mp hready.nodup).2.1 (hmaps _ _ _ s' hready hload)
  · intro hnodup s t c s' hready hload
    exact maps_of_nodup hready hload (hnodup (loadProgram_eq_true hload).1)

/-- The bytes of a program header with `p_offset` and `p_align` zero, for `size` bytes of the file
and as many of memory. -/
def phdrBytes (pType vaddr size flags : Nat) : List UInt8 :=
  [pType, 0, vaddr, vaddr, size, size, flags, 0].flatMap wordBytes

/-- An executable with a read-only and a writable segment on the same page. -/
def overlapping : FileImage where
  length := 116
  data i :=
    ([0x7f, 0x45, 0x4c, 0x46, 1, 1, 1, 0, 0, 0, 0, 0, 0, 0, 0, 0, 2, 0, 3, 0, 1, 0, 0, 0,
        0x54, 0x80, 4, 8, 52, 0, 0, 0, 0, 0, 0, 0, 0, 0, 0, 0, 52, 0, 32, 0, 2, 0, 0, 0,
        0, 0, 0, 0] ++
      phdrBytes 1 0x08048000 116 5 ++ phdrBytes 1 0x08048000 116 6).getD i 0

/-- `load` returns true, and the page of the writable segment is read-only. -/
theorem load_overlapping : Ready emptyVm (enoughMemory 2) ∧
    ∃ s', loadProgram (emptyVm.initThread 1) 1 0 overlapping (enoughMemory 2) = some (true, s') ∧
      (overlapping.phdrs.map fun phdr ↦ (phdr.upage 0, (phdr.pageEntry 0 0).writable)) =
        [(0x08048000, false), (0x08048000, true)] ∧
      ((s'.getPge 1 0x08048000).bind s'.heap).map (·.writable) = some false ∧
      ¬ Maps s' 1 0 overlapping (enoughMemory 2).ptrs := by
  have hload : (loadProgram (emptyVm.initThread 1) 1 0 overlapping (enoughMemory 2)).map
      (fun r ↦ (r.1, ((r.2.getPge 1 0x08048000).bind r.2.heap).map (·.writable))) =
      some (true, some false) := by decide +kernel
  obtain ⟨⟨success, s'⟩, hs', heq⟩ := map_eq_some_iff.mp hload
  obtain ⟨rfl, hentry⟩ := Prod.mk.inj heq
  refine ⟨ready_enoughMemory 2, s', hs', by decide +kernel, hentry, fun h ↦ ?_⟩
  have hnodup := nodup_of_maps (c := enoughMemory 2) (by decide) h
  revert hnodup
  decide +kernel

end Pintos
