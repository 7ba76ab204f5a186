import Pintos.Userprog.Load
import Pintos.Filesys.Inode

/-!
# The pages of a segment are the image the executable describes

`load` of `userprog/process.c` turns a `PT_LOAD` header into the arguments of `load_segment`, which
makes one page entry per page, and `load_file` of `vm/page.c` fills a page once it is touched.  Here
the three are run one after the other: what the program sees at an address is the byte of the file
the header asks for, or zero.

* `segmentArgs` — the arguments `load` computes.  They are `uint32_t`s, and so are the counters of
  the loop; a sum or a difference that wraps around has no result here, so that a function that
  returns has computed without wrap-around.
* `Fs.loadSegment` — `load_segment`, with its assertions and with a `malloc` that may fail.  For a
  header that `validate_segment` accepts its entries are those of `segmentEntries`
  (`Fs.loadSegment_eq`), which are the pages `segmentPage` of the segment, one by one
  (`segmentEntries_eq`).
* `Fs.loadFile` — `load_file` on the file system, and what it leaves in the page
  (`Fs.loadFile_vm`).
-/

set_option autoImplicit false

namespace Pintos

open Function Option

/-! ## The arguments of `load_segment` -/

/-- The sum of two `uint32_t`, if it is one. -/
def addUint32 (a b : Nat) : Kernel Nat := if a + b < 2 ^ 32 then some (a + b) else none

/-- The difference of two `uint32_t`, if it is one. -/
def subUint32 (a b : Nat) : Kernel Nat := if b ≤ a then some (a - b) else none

/-- A `uint32_t` as an `off_t`, if it is one. -/
def toOff (n : Nat) : Kernel Nat := if n < 2 ^ 31 then some n else none

/-- `ROUND_UP (x, PGSIZE)`. -/
def roundUp (x : Nat) : Kernel Nat := do
  let y ← addUint32 x pgSize
  return (y - 1) / pgSize * pgSize

theorem addUint32_eq {a b : Nat} (h : a + b < 2 ^ 32) : addUint32 a b = some (a + b) := if_pos h

theorem subUint32_eq {a b : Nat} (h : b ≤ a) : subUint32 a b = some (a - b) := if_pos h

variable {n file : Nat}

theorem toOff_eq (h : n < 2 ^ 31) : toOff n = some n := if_pos h

theorem roundUp_eq {x : Nat} (h : x + pgSize < 2 ^ 32) :
    roundUp x = some ((x + pgSize - 1) / pgSize * pgSize) := by
  rw [roundUp, addUint32_eq h]
  rfl

/-- The arguments of a call of `load_segment`, without the file. -/
structure SegmentArgs where
  ofs : Nat
  upage : Nat
  readBytes : Nat
  zeroBytes : Nat
  writable : Bool
  deriving DecidableEq, Repr

/-- The `PT_LOAD` case of `load`, up to the call of `load_segment`. -/
def segmentArgs (phdr : Phdr) : Kernel SegmentArgs := do
  let writable := decide (phdr.pFlags / 2 % 2 ≠ 0)
  let filePage := phdr.pOffset / pgSize * pgSize
  let memPage := phdr.pVaddr / pgSize * pgSize
  let pageOffset := phdr.pVaddr % pgSize
  let ofs ← toOff filePage
  if phdr.pFilesz > 0 then
    let readBytes ← addUint32 pageOffset phdr.pFilesz
    let zeroBytes ← subUint32 (← roundUp (← addUint32 pageOffset phdr.pMemsz)) readBytes
    return ⟨ofs, memPage, readBytes, zeroBytes, writable⟩
  else
    let zeroBytes ← roundUp (← addUint32 pageOffset phdr.pMemsz)
    return ⟨ofs, memPage, 0, zeroBytes, writable⟩

namespace Phdr

/-- The number of pages of a segment. -/
def pageCnt (phdr : Phdr) : Nat := (phdr.pVaddr % pgSize + phdr.pMemsz + pgSize - 1) / pgSize

/-- `read_bytes`. -/
def readBytes (phdr : Phdr) : Nat :=
  if phdr.pFilesz > 0 then phdr.pVaddr % pgSize + phdr.pFilesz else 0

/-- What `validate_segment` has established, with the bound of a 32-bit word on `p_memsz`. -/
structure Valid (phdr : Phdr) (fileLength : Nat) : Prop where
  congr : phdr.pOffset % pgSize = phdr.pVaddr % pgSize
  filesz_le : phdr.pFilesz ≤ phdr.pMemsz
  offset_le : phdr.pOffset ≤ fileLength
  low : pgSize ≤ phdr.pVaddr
  high : phdr.pVaddr + phdr.pMemsz < physBase

theorem Valid.of_validateSegment {phdr : Phdr} {fileLength : Nat} (hword : phdr.pMemsz < 2 ^ 32)
    (h : validateSegment phdr fileLength = true) : phdr.Valid fileLength := by
  simp only [validateSegment, Bool.and_eq_true, beq_iff_eq, Bool.not_eq_true',
    decide_eq_false_iff_not, decide_eq_true_eq] at h
  obtain ⟨⟨⟨⟨⟨⟨⟨hcongr, hofs⟩, hfile⟩, hzero⟩, hstart⟩, hstop⟩, hwrap⟩, hlow⟩ := h
  -- A sum that wraps around would be below `p_vaddr`.
  have hsum : phdr.pVaddr + phdr.pMemsz < 2 ^ 32 := by
    omega
  rw [Nat.mod_eq_of_lt hsum] at hstop
  exact ⟨hcongr, by omega, by omega, by omega, hstop⟩

variable {phdr : Phdr} {fileLength : Nat}

theorem Valid.readBytes_le (h : phdr.Valid fileLength) :
    phdr.readBytes ≤ phdr.pageCnt * pgSize := by
  have := h.filesz_le
  simp only [readBytes, pageCnt, pgSize]
  split <;> omega

/-- The last page of a segment ends below `PHYS_BASE`. -/
theorem Valid.end_le (h : phdr.Valid fileLength) :
    phdr.pVaddr / pgSize * pgSize + phdr.pageCnt * pgSize ≤ physBase := by
  have := h.high
  simp only [pageCnt, pgSize, physBase] at this ⊢
  omega

/-- **Nothing wraps around in the arguments `load` computes.** -/
theorem Valid.segmentArgs_eq (h : phdr.Valid fileLength) (hlen : fileLength < 2 ^ 31) :
    segmentArgs phdr = some ⟨phdr.pOffset / pgSize * pgSize, phdr.pVaddr / pgSize * pgSize,
      phdr.readBytes, phdr.pageCnt * pgSize - phdr.readBytes,
      decide (phdr.pFlags / 2 % 2 ≠ 0)⟩ := by
  have hofs : phdr.pOffset / pgSize * pgSize < 2 ^ 31 := by
    have := h.offset_le
    simp only [pgSize]
    omega
  have hlow := h.low
  have hhigh := h.high
  have hfile := h.filesz_le
  have hread := h.readBytes_le
  simp only [physBase, pgSize] at hlow hhigh
  have hsum : phdr.pVaddr % pgSize + phdr.pMemsz + pgSize < 2 ^ 32 := by
    simp only [pgSize]
    omega
  have hround : roundUp (phdr.pVaddr % pgSize + phdr.pMemsz) = some (phdr.pageCnt * pgSize) :=
    roundUp_eq hsum
  rw [segmentArgs, toOff_eq hofs, addUint32_eq (by omega : _ + phdr.pMemsz < 2 ^ 32)]
  by_cases hpos : phdr.pFilesz > 0
  · rw [readBytes, if_pos hpos] at hread ⊢
    simp only [some_bind, if_pos hpos, hround,
      addUint32_eq (by omega : phdr.pVaddr % pgSize + phdr.pFilesz < 2 ^ 32), subUint32_eq hread,
      pure_def]
  · simp only [some_bind, if_neg hpos, hround, pure_def, readBytes, Nat.sub_zero]

end Phdr

/-! ## The loop of `load_segment` -/

/-- Page `k` of a segment of which `readBytes` bytes come from the file. -/
def segmentPage (file ofs upage readBytes : Nat) (writable : Bool) (k : Nat) : PageEntry :=
  { type := .bin, vaddr := upage + k * pgSize, writable, isLoaded := false, file
    offset := ofs + min (k * pgSize) readBytes
    readBytes := min (readBytes - k * pgSize) pgSize
    zeroBytes := pgSize - min (readBytes - k * pgSize) pgSize
    swapSlot := 0 }

theorem loadSegment_eq {writable : Bool} :
    ∀ {ofs upage readBytes zeroBytes : Nat}, readBytes + zeroBytes = n * pgSize →
      loadSegment file ofs upage readBytes zeroBytes writable n =
        (List.range n).map (segmentPage file ofs upage readBytes writable) := by
  induction n with
  | zero => intros; rfl
  | succ n ih =>
    intro ofs upage readBytes zeroBytes hsum
    simp only [pgSize] at hsum
    rw [loadSegment, if_pos (by omega), List.range_succ_eq_map, List.map_cons, List.map_map]
    have hread : (if readBytes < pgSize then readBytes else pgSize) = min readBytes pgSize := by
      simp only [pgSize]
      split <;> omega
    simp only [hread]
    refine congrArg₂ List.cons ?_ ?_
    · simp only [segmentPage, Nat.zero_mul, Nat.zero_min, Nat.sub_zero, Nat.add_zero]
    · rw [ih (by simp only [pgSize]; omega)]
      refine List.map_congr_left fun k _ ↦ ?_
      simp only [segmentPage, comp_apply, pgSize, PageEntry.mk.injEq, true_and, and_true,
        Nat.succ_eq_add_one]
      omega

/-- The entries of a segment are its pages. -/
theorem segmentEntries_eq {fileLength : Nat} {phdr : Phdr} (h : phdr.Valid fileLength) :
    segmentEntries file phdr = (List.range phdr.pageCnt).map
      (segmentPage file (phdr.pOffset / pgSize * pgSize) (phdr.pVaddr / pgSize * pgSize)
        phdr.readBytes (decide (phdr.pFlags / 2 % 2 ≠ 0))) := by
  have hread := h.readBytes_le
  have hcnt : phdr.pageCnt * pgSize / pgSize = phdr.pageCnt := Nat.mul_div_cancel _ (by decide)
  rw [← loadSegment_eq (Nat.add_sub_cancel' hread)]
  nth_rewrite 2 [← hcnt]
  rfl

namespace Fs

/-- The loop of `load_segment`: whether it came through, and the entries it has inserted. -/
def segmentLoop (file : Nat) (writable : Bool) :
    Nat → Fs → Nat → Nat → Nat → Nat → Kernel (Bool × List PageEntry × Fs)
  | 0, _, _, _, _, _ => none
  | fuel + 1, fs, ofs, upage, readBytes, zeroBytes =>
    if readBytes > 0 ∨ zeroBytes > 0 then
      let pageReadBytes := if readBytes < pgSize then readBytes else pgSize
      let pageZeroBytes := pgSize - pageReadBytes
      match fs.malloc with
      | (false, fs) => some (false, [], fs)
      | (true, fs) => do
        let pge : PageEntry :=
          { type := .bin, vaddr := upage, writable, isLoaded := false, file, offset := ofs,
            readBytes := pageReadBytes, zeroBytes := pageZeroBytes, swapSlot := 0 }
        -- `insert_pge`.
        assert (pgOfs upage = 0)
        let readBytes ← subUint32 readBytes pageReadBytes
        let zeroBytes ← subUint32 zeroBytes pageZeroBytes
        let upage ← addUint32 upage pgSize
        let ofs ← toOff (ofs + pageReadBytes)
        let (success, entries, fs) ← segmentLoop file writable fuel fs ofs upage readBytes zeroBytes
        return (success, pge :: entries, fs)
    else some (true, [], fs)

/-- `load_segment`, if `fuel` rounds are enough. -/
def loadSegment (fs : Fs) (fuel file : Nat) (args : SegmentArgs) :
    Kernel (Bool × List PageEntry × Fs) := do
  assert ((← addUint32 args.readBytes args.zeroBytes) % pgSize = 0)
  assert (pgOfs args.upage = 0)
  assert (args.ofs % pgSize = 0)
  let fs ← fs.fileSeek file args.ofs
  segmentLoop file args.writable fuel fs args.ofs args.upage args.readBytes args.zeroBytes

/-- `load_file`. -/
def loadFile (fs : Fs) (kaddr : Buffer) (pge : PageEntry) : Kernel (Bool × Buffer × Fs) := do
  assert (pge.type = .bin)
  let (n, kaddr, fs) ← fs.fileReadAt pge.file kaddr pge.readBytes pge.offset
  if n ≠ pge.readBytes then return (false, kaddr, fs)
  return (true, memset kaddr pge.readBytes 0 pge.zeroBytes, fs)

/-- **The loop does not underflow, and it ends**: with memory for the entries, `n` rounds take it
through a segment of `n` pages. -/
theorem segmentLoop_eq {writable : Bool} {fs : Fs} (hmem : fs.oracle = []) :
    ∀ {fuel ofs upage readBytes zeroBytes : Nat}, n < fuel →
      readBytes + zeroBytes = n * pgSize → upage % pgSize = 0 →
      upage + n * pgSize ≤ physBase → ofs + readBytes < 2 ^ 31 →
      segmentLoop file writable fuel fs ofs upage readBytes zeroBytes =
        some (true, Pintos.loadSegment file ofs upage readBytes zeroBytes writable n, fs) := by
  induction n with
  | zero =>
    rintro (_ | fuel) ofs upage readBytes zeroBytes hfuel hsum - - -
    · omega
    · rw [segmentLoop, if_neg (by omega)]
      rfl
  | succ n ih =>
    rintro (_ | fuel) ofs upage readBytes zeroBytes hfuel hsum hpage hend hofs
    · omega
    · simp only [pgSize, physBase] at hsum hpage hend
      have hmalloc : fs.malloc = (true, fs) := by rw [malloc, hmem]
      have hcond : readBytes > 0 ∨ zeroBytes > 0 := by omega
      rw [segmentLoop, Pintos.loadSegment, if_pos hcond, if_pos hcond, hmalloc]
      generalize hr : (if readBytes < pgSize then readBytes else pgSize) = pageReadBytes
      have hr' : pageReadBytes = min readBytes 4096 := by
        rw [← hr]
        simp only [pgSize]
        split <;> omega
      -- Short of a full page of file bytes, a whole page is left.
      have hassert : assert (pgOfs upage = 0) = some () := if_pos hpage
      simp only [hassert, subUint32_eq (by omega : pageReadBytes ≤ readBytes),
        subUint32_eq (by simp only [pgSize]; omega : pgSize - pageReadBytes ≤ zeroBytes),
        addUint32_eq (by simp only [pgSize]; omega : upage + pgSize < 2 ^ 32),
        toOff_eq (by omega : ofs + pageReadBytes < 2 ^ 31), bind_eq_bind, bind_some]
      rw [ih (by omega) (by simp only [pgSize]; omega) (by simp only [pgSize]; omega)
        (by simp only [pgSize, physBase]; omega) (by omega)]
      rfl

/-- The file is open, it is described by `data`, and its sectors are on the device. -/
structure HasFile (fs : Fs) (file : Nat) (data : InodeDisk) : Prop where
  opened : ∃ f inode, fs.files file = some f ∧ fs.inodes f.inode = some inode ∧ inode.data = data
  onDevice : OnDevice fs.device.size data

section

variable {fs : Fs} {file : Nat} {data : InodeDisk} {phdr : Phdr}

/-- **`load_segment` on a header that `validate_segment` accepts.** -/
theorem loadSegment_eq {args : SegmentArgs} (hfile : fs.HasFile file data) (hmem : fs.oracle = [])
    (hlen : data.length < 2 ^ 31) (hvalid : phdr.Valid data.length.toNat)
    (hsize : (phdr.pOffset + phdr.pFilesz : Int) ≤ data.length)
    (hargs : segmentArgs phdr = some args) : ∃ fs', (∀ fuel, physBase / pgSize ≤ fuel →
      fs.loadSegment fuel file args = some (true, segmentEntries file phdr, fs')) ∧
      fs'.HasFile file data ∧ fs'.device = fs.device ∧ fs'.oracle = [] := by
  obtain ⟨⟨f, inode, hf, hid, rfl⟩, hdev⟩ := hfile
  rw [hvalid.segmentArgs_eq (by omega), some.injEq] at hargs
  have hread := hvalid.readBytes_le
  have hend := hvalid.end_le
  have hlow := hvalid.low
  have hcongr := hvalid.congr
  have hofs : phdr.pOffset / pgSize * pgSize + phdr.readBytes < 2 ^ 31 := by
    simp only [Phdr.readBytes, pgSize] at hcongr ⊢
    split <;> omega
  have hseek : fs.fileSeek file ((phdr.pOffset / pgSize * pgSize : Nat) : Int) =
      some (fs.setFile file (some { f with pos := phdr.pOffset / pgSize * pgSize })) := by
    rw [fileSeek, assert, if_pos (Int.natCast_nonneg _), hf]
    rfl
  generalize hfs : fs.setFile file (some { f with pos := phdr.pOffset / pgSize * pgSize }) = fs'
    at hseek
  have hmem' : fs'.oracle = [] := by rw [← hfs]; exact hmem
  have hhas : fs'.HasFile file inode.data := by
    rw [← hfs]
    exact ⟨⟨_, inode, update_self .., hid, rfl⟩, hdev⟩
  refine ⟨fs', fun fuel hfuel ↦ ?_, hhas, by rw [← hfs]; rfl, hmem'⟩
  have hsum : phdr.readBytes + (phdr.pageCnt * pgSize - phdr.readBytes) < 2 ^ 32 := by
    simp only [physBase] at hend
    omega
  rw [← hargs, loadSegment, addUint32_eq hsum]
  simp only [some_bind, assert, pgOfs, Nat.mul_mod_left, Nat.add_sub_cancel' hread, if_true, hseek]
  have hcnt : phdr.pageCnt < fuel := by
    simp only [physBase, pgSize] at hend hfuel hlow
    omega
  rw [segmentEntries_eq hvalid, ← Pintos.loadSegment_eq (Nat.add_sub_cancel' hread)]
  exact segmentLoop_eq hmem' hcnt (Nat.add_sub_cancel' hread) (Nat.mul_mod_left ..) hend hofs

/-- **`load_file`** does what it does with a file that is only its bytes, if there is memory for a
bounce buffer. -/
theorem loadFile_vm {pge : PageEntry} (kaddr : Buffer) (hfile : fs.HasFile pge.file data)
    (hmem : fs.oracle = []) (htype : pge.type = .bin) :
    let image := Vm.loadFile ⟨data.length.toNat, fileByte fs.device data⟩ pge
    ∃ page, fs.loadFile kaddr pge = some (image.isSome, page, fs) ∧
      ∀ bytes ∈ image, ∀ i < pge.readBytes + pge.zeroBytes, page i = bytes i := by
  obtain ⟨⟨f, inode, hf, hid, rfl⟩, hdev⟩ := hfile
  have hspec : Returns (fs.inodeReadAt f.inode kaddr pge.readBytes pge.offset)
    (ReadSpec fs inode.data false kaddr pge.readBytes pge.offset 0) := inodeReadAt_spec hid hdev
  obtain ⟨⟨n, page, fs'⟩, heq, n, oracle, rfl, rfl, htr, hbytes⟩ := hspec
  have hn := htr.full (.inr hmem)
  have hfs : { fs with oracle } = fs := by rw [htr.quiet hmem, ← hmem]
  simp only [loadFile, assert, if_pos htype, fileReadAt, hf, some_bind, heq, Nat.zero_add, hfs,
    Vm.loadFile]
  by_cases hend : pge.readBytes = 0 ∨ pge.offset + pge.readBytes ≤ inode.data.length.toNat
  · obtain rfl : n = pge.readBytes := by omega
    simp only [if_pos hend]
    refine ⟨_, if_neg (not_not.mpr rfl), ?_⟩
    rintro _ ⟨⟩ i hi
    dsimp only [memset] at hbytes ⊢
    split
    · rw [if_neg (by omega)]
    · rw [if_pos (by omega), hbytes i, if_pos (by omega), Nat.sub_zero]
  · simp only [if_neg hend]
    exact ⟨page, if_pos (by omega), by rintro _ ⟨⟩⟩

end

end Fs

/-! ## The image -/

namespace Phdr

/-- The addresses are those of the pages that hold a byte of the segment. -/
structure Covers (phdr : Phdr) (vaddrs : List Nat) : Prop where
  mem_iff : ∀ v, v ∈ vaddrs ↔
    v % pgSize = 0 ∧ v < phdr.pVaddr + phdr.pMemsz ∧ phdr.pVaddr < v + pgSize
  nodup : vaddrs.Nodup
  user : ∀ v ∈ vaddrs, pgSize ≤ v ∧ v + pgSize ≤ physBase

/-- The page at `vaddr` holds the bytes that the segment has there: those of the file, and then
zeros. -/
def Shows (phdr : Phdr) (byte : Nat → UInt8) (vaddr : Nat) (page : Buffer) : Prop :=
  ∀ a, vaddr ≤ a → a < vaddr + pgSize →
    (phdr.pVaddr ≤ a → a < phdr.pVaddr + phdr.pFilesz →
      page (a - vaddr) = byte (phdr.pOffset + (a - phdr.pVaddr))) ∧
    (phdr.pVaddr + phdr.pFilesz ≤ a → a < phdr.pVaddr + phdr.pMemsz → page (a - vaddr) = 0)

variable {phdr : Phdr} {file fileLength : Nat}

theorem Valid.covers (h : phdr.Valid fileLength) :
    phdr.Covers ((segmentEntries file phdr).map PageEntry.vaddr) := by
  rw [segmentEntries_eq h, List.map_map]
  have hmem : ∀ v, v ∈ (List.range phdr.pageCnt).map (PageEntry.vaddr ∘ segmentPage file
      (phdr.pOffset / pgSize * pgSize) (phdr.pVaddr / pgSize * pgSize) phdr.readBytes
      (decide (phdr.pFlags / 2 % 2 ≠ 0))) ↔
      ∃ k < phdr.pageCnt, phdr.pVaddr / pgSize * pgSize + k * pgSize = v := by
    intro v
    simp only [List.mem_map, List.mem_range, comp_apply, segmentPage]
  refine ⟨fun v ↦ (hmem v).trans ⟨?_, ?_⟩, ?_, ?_⟩
  · rintro ⟨k, hk, rfl⟩
    simp only [pageCnt, pgSize] at hk ⊢
    omega
  · rintro ⟨hv, hstop, hstart⟩
    refine ⟨(v - phdr.pVaddr / pgSize * pgSize) / pgSize, ?_, ?_⟩
    all_goals
      simp only [pageCnt, pgSize] at hv hstop hstart ⊢
      omega
  · refine List.Nodup.map ?_ List.nodup_range
    intro k k' heq
    simp only [comp_apply, segmentPage, pgSize] at heq
    omega
  · intro v hv
    obtain ⟨k, hk, rfl⟩ := (hmem v).mp hv
    have hlow := h.low
    have hhigh := h.end_le
    simp only [pgSize, physBase] at hlow hhigh ⊢
    omega

/-- A page that is filled as its entry says shows the segment. -/
theorem Valid.shows {byte : Nat → UInt8} {page : Buffer} {pge : PageEntry}
    (h : phdr.Valid fileLength) (hpge : pge ∈ segmentEntries file phdr)
    (hpage : ∀ i < pge.readBytes + pge.zeroBytes,
      page i = if i < pge.readBytes then byte (pge.offset + i) else 0) :
    phdr.Shows byte pge.vaddr page := by
  rw [segmentEntries_eq h, List.mem_map] at hpge
  obtain ⟨k, hk, rfl⟩ := hpge
  have hcongr := h.congr
  intro a hlow hhigh
  simp only [segmentPage, readBytes, pgSize] at hcongr hpage hlow hhigh ⊢
  refine ⟨fun hstart hstop ↦ ?_, fun hstart hstop ↦ ?_⟩
  · rw [if_pos (by omega)] at hpage
    rw [hpage _ (by omega), if_pos (by omega)]
    exact congrArg byte (by omega)
  · split at hpage <;> exact (hpage _ (by omega)).trans (if_neg (by omega))

end Phdr

namespace Fs

variable {fs : Fs} {file : Nat} {data : InodeDisk} {phdr : Phdr}

/-- **The pages that are loaded on demand show the executable.**  For a header that
`validate_segment` accepts and whose bytes are in the file, no argument of `load_segment` wraps
around and its assertions hold; with memory for the page entries it comes to its end, within the
user address space, with one entry for each page of the segment.  Whenever one of them is filled
later, and there is memory for a bounce buffer, `load_file` succeeds and leaves in the page what
the segment has there. -/
theorem lazy_load_image (hfile : fs.HasFile file data) (hmem : fs.oracle = [])
    (hlen : data.length < 2 ^ 31) (hword : phdr.pMemsz < 2 ^ 32)
    (hvalid : validateSegment phdr data.length.toNat = true)
    (hsize : (phdr.pOffset + phdr.pFilesz : Int) ≤ data.length) :
    ∃ args entries fs', segmentArgs phdr = some args ∧ (∀ fuel, physBase / pgSize ≤ fuel →
        fs.loadSegment fuel file args = some (true, entries, fs')) ∧
      fs'.HasFile file data ∧ fs'.device = fs.device ∧ fs'.oracle = [] ∧
      phdr.Covers (entries.map PageEntry.vaddr) ∧
      ∀ now : Fs, now.HasFile file data → now.oracle = [] → ∀ pge ∈ entries, ∀ kaddr : Buffer,
        ∃ page, now.loadFile kaddr pge = some (true, page, now) ∧
          phdr.Shows (fileByte now.device data) pge.vaddr page := by
  have hv := Phdr.Valid.of_validateSegment hword hvalid
  have hargs := hv.segmentArgs_eq (by omega)
  obtain ⟨fs', hrun, hfile', hdevice, hmem'⟩ := loadSegment_eq hfile hmem hlen hv hsize hargs
  refine ⟨_, segmentEntries file phdr, fs', hargs, hrun, hfile', hdevice, hmem', hv.covers, ?_⟩
  intro now hnow hquiet pge hpge kaddr
  -- The bytes the entry names are in the file.
  have hentry : pge.type = .bin ∧ pge.file = file ∧
      (pge.readBytes = 0 ∨ pge.offset + pge.readBytes ≤ data.length.toNat) := by
    rw [segmentEntries_eq hv, List.mem_map] at hpge
    obtain ⟨k, hk, rfl⟩ := hpge
    refine ⟨rfl, rfl, ?_⟩
    have hcongr := hv.congr
    simp only [segmentPage, Phdr.readBytes, pgSize] at hcongr ⊢
    split <;> omega
  obtain ⟨htype, rfl, hend⟩ := hentry
  obtain ⟨page, heq, hbytes⟩ := loadFile_vm kaddr hnow hquiet htype
  rw [Vm.loadFile, if_pos hend] at heq hbytes
  exact ⟨page, heq, hv.shows hpge (hbytes _ rfl)⟩

/-- An executable of 5000 bytes, open as file 0. -/
def exampleProgram (oracle : List Bool) : Fs :=
  { device := ⟨12, fun s i ↦ (s + i).toUInt8⟩, freeMap := .create 12, freeMapFile := none
    inodes := fun _ ↦ some ⟨0, 1, false, 0, ⟨1, 5000, inodeMagic⟩⟩, openInodes := [0]
    files := fun _ ↦ some ⟨0, 0, true⟩, next := 1, oracle, garbage := fun _ ↦ 0 }

/-- Its segment takes three pages: one full page of the file, one with 904 bytes of the file, and
one of zeros. -/
theorem lazy_load_image_exampleProgram :
    ∃ args entries fs', segmentArgs ⟨1, 0, 0x08048000, 5000, 9000, 6⟩ = some args ∧
      (∀ fuel, physBase / pgSize ≤ fuel →
        (exampleProgram []).loadSegment fuel 0 args = some (true, entries, fs')) ∧
      ∀ pge ∈ entries, ∃ page, fs'.loadFile (fun _ ↦ 0xcc) pge = some (true, page, fs') ∧
        Phdr.Shows ⟨1, 0, 0x08048000, 5000, 9000, 6⟩
          (fileByte fs'.device ⟨1, 5000, inodeMagic⟩) pge.vaddr page := by
  have hfile : (exampleProgram []).HasFile 0 ⟨1, 5000, inodeMagic⟩ := by
    refine ⟨⟨_, _, rfl, rfl, rfl⟩, fun pos hpos ↦ ?_⟩
    simp only [exampleProgram, byteToSector, blockSectorSize]
    dsimp only at hpos
    omega
  obtain ⟨args, entries, fs', hargs, hrun, hfile', -, hmem', -, hfill⟩ :=
    @lazy_load_image (exampleProgram []) 0 _ ⟨1, 0, 0x08048000, 5000, 9000, 6⟩ hfile rfl (by decide)
      (by decide) (by decide) (by decide)
  exact ⟨args, entries, fs', hargs, hrun, fun pge hpge ↦ hfill fs' hfile' hmem' pge hpge _⟩

/-- **`load_file` fails where there is no memory for a bounce buffer.**  The page entries are made,
and the first page is read sector by sector; for the second page a buffer is needed. -/
theorem load_file_needs_bounce :
    validateSegment ⟨1, 0, 0x08048000, 5000, 9000, 6⟩ 5000 = true ∧
    (do
      let args ← segmentArgs ⟨1, 0, 0x08048000, 5000, 9000, 6⟩
      let (success, entries, fs) ← (exampleProgram [true, true, true, false]).loadSegment 4 0 args
      let pge ← entries[1]?
      let (filled, _, _) ← fs.loadFile (fun _ ↦ 0xcc) pge
      return (success, filled)) = some (true, false) := by
  decide +kernel

end Fs

end Pintos
