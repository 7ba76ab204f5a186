import Pintos.Filesys.Stores
import Pintos.Lib.Ustar

/-!
# Archives on the scratch device

`filesys/fsutil.c`: `fsutil_append` copies a file of the file system to the end of an archive on the
scratch device, and `fsutil_extract` makes the files of an archive.  Each of the two counts sectors
on its own, so all they share is what the archive looks like: `HasEntry` for the sectors of one
file, `HasEntries` for those of several, one behind the other.

* `fsutilAppend_spec` — an entry is written where the last one ended, and a marker behind it;
* `Archived.run` — so after any number of calls the entries are there;
* `extractLoop_spec` — from entries and a sector of zeros behind them the files are made.

The marker is meant to be two sectors of zeros.  Both calls of `block_write` go to the same sector,
and the second one from `buffer + 1`, so the last byte of the sector comes from behind the buffer
and the sector after it stays as it was.  With another byte than zero there the archive cannot be
extracted any more.
-/

set_option autoImplicit false

namespace Pintos

open Function List

/-! ## The functions of `fsutil.c` -/

/-- `chunk_size` in the loops below. -/
def copyChunk (size : Nat) : Nat := if size > blockSectorSize then blockSectorSize else size

/-- The loop of `fsutil_extract` that copies a file. -/
def copyLoop (src : Block) (dst : Nat) : Nat → Fs → Nat → Nat → Kernel (Fs × Nat)
  | 0, fs, sector, _ => some (fs, sector)
  | fuel + 1, fs, sector, size =>
    if size > 0 then do
      let data ← src.read sector
      let (n, fs) ← fs.fileWrite dst data (copyChunk size)
      assert (n = copyChunk size)
      copyLoop src dst fuel fs (sector + 1) (size - copyChunk size)
    else some (fs, sector)

/-- A file of the archive, in the loop of `fsutil_extract`. -/
def extractFile (src : Block) (fs : Fs) (sector : Nat) (entry : UstarEntry) :
    Kernel (Fs × Nat) := do
  let fileName ← entry.fileName
  let (created, fs) ← fs.filesysCreate fileName entry.size
  assert (created = true)
  let (dst, fs) ← fs.filesysOpen fileName
  let dst ← dst
  let (fs, sector) ← copyLoop src dst entry.size fs sector entry.size
  let fs ← fs.fileClose (some dst)
  return (fs, sector)

/-- The loop of `fsutil_extract`.  A sector is read each time, so there are no more turns than
sectors. -/
def extractLoop (src : Block) : Nat → Fs → Nat → Kernel (Fs × Nat)
  | 0, _, _ => none
  | fuel + 1, fs, sector => do
    let header ← src.read sector
    let entry ← (ustarParseHeader header).toOption
    match entry.type with
    | .eof => return (fs, sector + 1)
    | .directory => extractLoop src fuel fs (sector + 1)
    | .regular =>
      let (fs, sector) ← extractFile src fs (sector + 1) entry
      extractLoop src fuel fs sector

/-- `fsutil_extract`; `sector` is its static variable. -/
def fsutilExtract (fs : Fs) (src : Block) (sector : Nat) : Kernel (Fs × Block × Nat) := do
  let (header, fs) := fs.malloc
  let (data, fs) := fs.malloc
  assert (header = true ∧ data = true)
  let (fs, sector) ← extractLoop src (src.size + 1) fs sector
  let src ← src.write 0 fun _ ↦ 0
  let src ← src.write 1 fun _ ↦ 0
  return (fs, src, sector)

/-- The loop of `fsutil_append`. -/
def appendLoop (src : Nat) : Nat → Fs → Block → Nat → Nat → Buffer →
    Kernel (Fs × Block × Nat × Buffer)
  | 0, fs, dst, sector, _, buffer => some (fs, dst, sector, buffer)
  | fuel + 1, fs, dst, sector, size, buffer =>
    if size > 0 then do
      assert (sector < dst.size)
      let (n, buffer, fs) ← fs.fileRead src buffer (copyChunk size)
      assert (n = copyChunk size)
      let buffer := memset buffer (copyChunk size) 0 (blockSectorSize - copyChunk size)
      let dst ← dst.write sector buffer
      appendLoop src fuel fs dst (sector + 1) (size - copyChunk size) buffer
    else some (fs, dst, sector, buffer)

/-- What a call of `fsutil_append` depends on besides the two devices. -/
structure AppendCall where
  fileName : List UInt8
  /-- What is in the block that `malloc` returns. -/
  buffer : Buffer
  /-- The byte behind that block, when the marker is written. -/
  behind : UInt8

/-- The file system, the scratch device and the static variable of `fsutil_append`. -/
structure Archiver where
  fs : Fs
  scratch : Block
  sector : Nat

/-- `fsutil_append`. -/
def fsutilAppend (a : Archiver) (c : AppendCall) : Kernel Archiver := do
  let (ok, fs) := a.fs.malloc
  assert (ok = true)
  let (src, fs) ← fs.filesysOpen c.fileName
  let src ← src
  let size ← fs.fileLength src
  let (ok, buffer) ← ustarMakeHeader c.fileName .regular size c.buffer
  assert (ok = true)
  let dst ← a.scratch.write a.sector buffer
  let (fs, dst, sector, buffer) ←
    appendLoop src size.toNat fs dst (a.sector + 1) size.toNat buffer
  let buffer := memset buffer 0 0 blockSectorSize
  let dst ← dst.write sector buffer
  -- `buffer + 1`: of the 512 bytes that are written, the last one is not in the buffer.
  let dst ← dst.write sector fun i ↦
    if i + 1 < blockSectorSize then buffer (i + 1) else c.behind
  let fs ← fs.fileClose (some src)
  return ⟨fs, dst, sector⟩

/-! ## What an archive looks like -/

/-- A file: its name and its bytes. -/
abbrev NamedFile := List UInt8 × List UInt8

/-- The sectors that hold `size` bytes. -/
def dataSectors (size : Nat) : Nat := (size + 511) / 512

/-- The sectors of a file in an archive. -/
def entrySize (file : NamedFile) : Nat := 1 + dataSectors file.2.length

/-- The sectors of several files. -/
def archiveSize (files : List NamedFile) : Nat := (files.map entrySize).sum

/-- The entry of a file begins in sector `s`. -/
structure HasEntry (device : Block) (s : Nat) (file : NamedFile) : Prop where
  header : ustarParseHeader (device.data s) = .ok ⟨some file.1, .regular, file.2.length⟩
  data : ∀ i < file.2.length, device.data (s + 1 + i / 512) (i % 512) = file.2.getD i 0

/-- The entries of the files begin in sector `s`. -/
def HasEntries (device : Block) : Nat → List NamedFile → Prop
  | _, [] => True
  | s, file :: files => HasEntry device s file ∧ HasEntries device (s + entrySize file) files

variable {device device' src : Block} {fs fs' : Fs} {f t pos s size fuel sector : Nat}
  {file : NamedFile} {files : List NamedFile}

theorem dataSectors_copyChunk (h : 0 < size) :
    dataSectors size = dataSectors (size - copyChunk size) + 1 := by
  simp only [dataSectors, copyChunk, blockSectorSize]
  split <;> omega

theorem copyChunk_le (size : Nat) : copyChunk size ≤ size ∧ copyChunk size ≤ 512 := by
  simp only [copyChunk, blockSectorSize]
  split <;> omega

/-- The chunks of a file are whole sectors, but for the last one. -/
theorem copyChunk_cases (h : 0 < size) :
    0 < copyChunk size ∧ (copyChunk size = 512 ∨ copyChunk size = size) := by
  simp only [copyChunk, blockSectorSize]
  split <;> omega

theorem archiveSize_cons (file : NamedFile) (files : List NamedFile) :
    archiveSize (file :: files) = entrySize file + archiveSize files := by
  rw [archiveSize, map_cons, sum_cons, archiveSize]

theorem archiveSize_append (files files' : List NamedFile) :
    archiveSize (files ++ files') = archiveSize files + archiveSize files' := by
  rw [archiveSize, map_append, sum_append, archiveSize, archiveSize]

theorem HasEntry.congr (h : HasEntry device s file)
    (heq : ∀ x, s ≤ x → x < s + entrySize file → device'.data x = device.data x) :
    HasEntry device' s file := by
  rw [entrySize, dataSectors] at heq
  refine ⟨?_, fun i hi ↦ ?_⟩
  · rw [heq s (Nat.le_refl s) (by omega)]
    exact h.header
  · rw [heq _ (by omega) (by omega)]
    exact h.data i hi

theorem HasEntries.congr {files : List NamedFile} : ∀ {s : Nat}, HasEntries device s files →
    (∀ x, s ≤ x → x < s + archiveSize files → device'.data x = device.data x) →
    HasEntries device' s files := by
  induction files with
  | nil => exact fun _ _ ↦ trivial
  | cons file files ih =>
    intro s h heq
    rw [archiveSize_cons] at heq
    exact ⟨h.1.congr fun x hle hlt ↦ heq x hle (by omega),
      ih h.2 fun x hle hlt ↦ heq x (by omega) (by omega)⟩

/-- One more entry behind the others. -/
theorem HasEntries.concat {files : List NamedFile} : ∀ {s : Nat}, HasEntries device s files →
    HasEntry device (s + archiveSize files) file → HasEntries device s (files ++ [file]) := by
  induction files with
  | nil => exact fun _ h ↦ ⟨h, trivial⟩
  | cons file' files ih =>
    intro s h hlast
    rw [archiveSize_cons, ← Nat.add_assoc] at hlast
    exact ⟨h.1, ih h.2 hlast⟩

/-! ## Extracting -/

/-- Copying a file from the scratch device. -/
theorem copyLoop_spec (hfuel : size ≤ fuel) (h : fs.Using f t pos)
    (hlen : (inodeAt fs.device t).length = (pos + size : Nat))
    (hsrc : sector + dataSectors size ≤ src.size) :
    Returns (copyLoop src f fuel fs sector size) fun r ↦ r.1.Using f t (pos + size) ∧
      Fs.Beside t fs r.1 ∧ r.2 = sector + dataSectors size ∧
      ∀ p, Fs.fileByte r.1.device (inodeAt r.1.device t) p = if pos ≤ p ∧ p < pos + size then
        src.data (sector + (p - pos) / 512) ((p - pos) % 512)
        else Fs.fileByte fs.device (inodeAt fs.device t) p := by
  induction fuel generalizing fs pos size sector with
  | zero =>
    obtain rfl : size = 0 := by omega
    exact .pure ⟨h, .refl t fs, rfl, fun p ↦ (if_neg (by omega)).symm⟩
  | succ fuel ih =>
    rw [copyLoop]
    by_cases h0 : size > 0
    case neg =>
      obtain rfl : size = 0 := by omega
      rw [if_neg h0]
      exact .pure ⟨h, .refl t fs, rfl, fun p ↦ (if_neg (by omega)).symm⟩
    rw [if_pos h0]
    have hsectors := dataSectors_copyChunk h0
    obtain ⟨hle, hle'⟩ := copyChunk_le size
    obtain ⟨hpos, hchunk⟩ := copyChunk_cases h0
    generalize copyChunk size = chunk at *
    refine Returns.bind_some (Block.read_eq_some.mpr ⟨by omega, rfl⟩) ?_
    refine Returns.bind (h.fileWrite _ chunk) ?_
    rintro ⟨n, fs1⟩ ⟨hn, h1, hbeside, hbytes⟩
    dsimp only at hn h1 hbeside hbytes
    obtain rfl : n = chunk := by
      rw [hn, hlen, Int.toNat_natCast]
      omega
    refine Returns.bind_some (if_pos rfl) ?_
    refine Returns.mono (ih (by omega) h1 ?_ ?_) ?_
    · rw [hbeside.node, hlen]
      exact congrArg Nat.cast (by omega)
    · omega
    rintro ⟨fs2, sector2⟩ ⟨h2, hbeside2, hsector, hbytes2⟩
    dsimp only at h2 hbeside2 hsector hbytes2 ⊢
    refine ⟨?_, hbeside.trans hbeside2, by omega, fun p ↦ ?_⟩
    · rwa [show pos + size = pos + n + (size - n) by omega]
    · rw [hbytes2, hbytes]
      by_cases h1 : pos + n ≤ p ∧ p < pos + size
      · obtain rfl : n = 512 := hchunk.resolve_right (by omega)
        obtain ⟨e, rfl⟩ := Nat.exists_eq_add_of_le h1.1
        rw [if_pos (by omega), if_pos (by omega), Nat.add_sub_cancel_left, Nat.add_assoc pos,
          Nat.add_sub_cancel_left, Nat.add_comm 512, Nat.add_div_right _ (by decide),
          Nat.add_mod_right, Nat.add_assoc, Nat.add_comm 1]
      · rw [if_neg (by omega)]
        by_cases h2 : pos ≤ p ∧ p < pos + n
        · rw [if_pos h2, if_pos (by omega), Nat.div_eq_of_lt (by omega),
            Nat.mod_eq_of_lt (by omega), Nat.add_zero]
        · rw [if_neg h2, if_neg (by omega)]

/-- The name of a file that can be in the file system and is not changed in an archive. -/
structure ProperName (name : List UInt8) : Prop where
  nul : 0 ∉ name
  length : name.length ≤ nameMax
  strip : stripAntisocialPrefixes name = name

theorem ProperName.ne_nil {name : List UInt8} (h : ProperName name) : name ≠ [] := by
  rintro rfl
  exact absurd h.strip (by decide)

/-- The sectors that the file system needs for the files. -/
def storeSize (files : List NamedFile) : Nat :=
  (files.map fun file ↦ 1 + bytesToSectors file.2.length).sum

/-- One entry of the archive is made a file. -/
theorem extractFile_spec {n : Nat} (h : fs.Stores files)
    (hentry : HasEntry src s file) (hname : ProperName file.1)
    (hnew : file.1 ∉ files.map Prod.fst) (hcnt : files.length < 16)
    (hlen : file.2.length < 2 ^ 31) (hroom : fs.Room (1 + (bytesToSectors file.2.length + n)))
    (hsrc : s + entrySize file ≤ src.size) :
    Returns (extractFile src fs (s + 1) ⟨some file.1, .regular, file.2.length⟩) fun r ↦
      r.1.Stores (file :: files) ∧ r.1.Room n ∧ r.2 = s + entrySize file := by
  rw [entrySize] at hsrc ⊢
  have htakes : Fs.Takes fs.device (inodeAt fs.device rootDirSector) 16 file.1 := by
    refine ⟨hname.ne_nil, hname.length, fun hmem ↦ hnew (h.names.mem_iff.mp hmem), ?_⟩
    have hlength := h.names.length_eq
    rw [length_map, length_map] at hlength
    exact lt_of_eq_of_lt hlength hcnt
  refine Returns.bind_some rfl ?_
  refine Returns.bind (h.toAtRest.filesysCreate htakes hname.nul (Int.natCast_nonneg _)
    (by exact_mod_cast hlen) hroom) ?_
  rintro ⟨_, fs1⟩ ⟨rfl, h1, hroom1, t, hadd⟩
  refine Returns.bind_some (if_pos rfl) ?_
  refine Returns.bind (h1.filesysOpen (hadd.contents.mem_iff.mpr mem_cons_self)) ?_
  rintro ⟨_, fs2⟩ ⟨f, rfl, h2, hdev2, hmap2⟩
  refine Returns.bind_some rfl ?_
  have hlength : (inodeAt fs2.device t).length = (0 + file.2.length : Nat) := by
    rw [hdev2, hadd.length, Nat.zero_add]
  have hsrc' : s + 1 + dataSectors file.2.length ≤ src.size := by omega
  refine Returns.bind (copyLoop_spec (Nat.le_refl _) h2 hlength hsrc') ?_
  rintro ⟨fs3, sector⟩ ⟨h3, hbeside, hsector, hbytes⟩
  refine Returns.bind h3.fileClose ?_
  rintro fs4 ⟨h4, hdev4, hmap4⟩
  have hbeside' : Fs.Beside t fs1 fs4 :=
    ((Fs.Beside.of_device hdev2 hmap2).trans hbeside).trans (.of_device hdev4 hmap4)
  dsimp only at hbytes hsector hroom1
  refine .pure ⟨h.cons hadd hbeside' h4 fun p hp ↦ ?_, ?_, ?_⟩
  · rw [hdev4, hbytes, if_pos (by omega), Nat.sub_zero, hentry.data p hp]
  · rw [Fs.Room, hbeside'.freeMap]
    exact hroom1
  · omega

theorem storeSize_cons (file : NamedFile) (files : List NamedFile) :
    storeSize (file :: files) = 1 + (bytesToSectors file.2.length + storeSize files) := by
  rw [storeSize, map_cons, sum_cons, storeSize, Nat.add_assoc]

theorem length_le_archiveSize (files : List NamedFile) : files.length ≤ archiveSize files := by
  induction files with
  | nil => exact Nat.zero_le _
  | cons file files ih =>
    rw [archiveSize_cons, entrySize, length_cons]
    omega

/-- **The loop of `fsutil_extract`** makes the files of the archive. -/
theorem extractLoop_spec {files : List NamedFile} :
    ∀ {fs : Fs} {made : List NamedFile} {s fuel : Nat}, fs.Stores made → HasEntries src s files →
      isAllZeros (src.data (s + archiveSize files)) 512 = true → s + archiveSize files < src.size →
      (∀ file ∈ files, ProperName file.1 ∧ file.2.length < 2 ^ 31) →
      ((files ++ made).map Prod.fst).Nodup → files.length + made.length ≤ 16 →
      fs.Room (storeSize files) → files.length < fuel →
      Returns (extractLoop src fuel fs s) fun r ↦ r.1.Stores (files.reverse ++ made) := by
  induction files with
  | nil =>
    rintro fs made s (_ | fuel) h - hend hsrc - - - - hfuel
    · cases hfuel
    · rw [extractLoop]
      refine Returns.bind_some (Block.read_eq_some.mpr ⟨hsrc, rfl⟩) ?_
      refine Returns.bind_some (a := ⟨none, .eof, 0⟩) ?_ ?_
      · rw [ustarParseHeader, if_pos (by exact hend)]
        rfl
      exact .pure h
  | cons file files ih =>
    rintro fs made s (_ | fuel) h hent hend hsrc hproper hnames hcnt hroom hfuel
    · cases hfuel
    · rw [archiveSize_cons] at hend hsrc
      rw [storeSize_cons] at hroom
      rw [length_cons] at hcnt hfuel
      rw [cons_append, map_cons, nodup_cons, map_append] at hnames
      obtain ⟨hname, hlen⟩ := hproper file mem_cons_self
      rw [extractLoop]
      refine Returns.bind_some (Block.read_eq_some.mpr ⟨by omega, rfl⟩) ?_
      refine Returns.bind_some (by rw [hent.1.header]; rfl) ?_
      have hnew : file.1 ∉ made.map Prod.fst :=
        fun hmem ↦ hnames.1 (mem_append_right _ hmem)
      refine Returns.bind (extractFile_spec h hent.1 hname hnew (by omega) hlen hroom (by omega)) ?_
      rintro ⟨fs1, _⟩ ⟨h1, hroom1, rfl⟩
      rw [reverse_cons, append_assoc, singleton_append]
      refine ih h1 hent.2 ?_ (by omega) ?_ ?_ ?_ hroom1 (by omega)
      · rwa [Nat.add_assoc]
      · exact fun file' hmem ↦ hproper file' (mem_cons_of_mem _ hmem)
      · have hperm : (files ++ file :: made).Perm (file :: (files ++ made)) := perm_middle
        rw [(hperm.map Prod.fst).nodup_iff, map_cons, nodup_cons, map_append]
        exact hnames
      · rw [length_cons]
        omega

/-! ## Appending -/

/-- Copying a file to the scratch device. -/
theorem appendLoop_spec {dst : Block} {buffer : Buffer} (hfuel : size ≤ fuel)
    (h : fs.Using f t pos) (hlen : (inodeAt fs.device t).length = (pos + size : Nat))
    (hdst : sector + dataSectors size ≤ dst.size) :
    Returns (appendLoop f fuel fs dst sector size buffer) fun r ↦ r.1.Using f t (pos + size) ∧
      r.1.device = fs.device ∧ r.2.1.size = dst.size ∧ r.2.2.1 = sector + dataSectors size ∧
      (∀ x, x < sector ∨ sector + dataSectors size ≤ x → r.2.1.data x = dst.data x) ∧
      ∀ i < size, r.2.1.data (sector + i / 512) (i % 512) =
        Fs.fileByte fs.device (inodeAt fs.device t) (pos + i) := by
  induction fuel generalizing fs pos size sector dst buffer with
  | zero =>
    obtain rfl : size = 0 := by omega
    exact .pure ⟨h, rfl, rfl, rfl, fun _ _ ↦ rfl, nofun⟩
  | succ fuel ih =>
    rw [appendLoop]
    by_cases h0 : size > 0
    case neg =>
      obtain rfl : size = 0 := by omega
      rw [if_neg h0]
      exact .pure ⟨h, rfl, rfl, rfl, fun _ _ ↦ rfl, nofun⟩
    rw [if_pos h0]
    have hsectors := dataSectors_copyChunk h0
    obtain ⟨hle, hle'⟩ := copyChunk_le size
    obtain ⟨hpos, hchunk⟩ := copyChunk_cases h0
    generalize copyChunk size = chunk at *
    refine Returns.bind_some (if_pos (by omega)) ?_
    refine Returns.bind (h.fileRead buffer chunk) ?_
    rintro ⟨n, buffer1, fs1⟩ ⟨hn, hbuf, h1, hdev1, -⟩
    dsimp only at hn hbuf h1 hdev1 ⊢
    obtain rfl : n = chunk := by
      rw [hn, hlen, Int.toNat_natCast]
      omega
    refine Returns.bind_some (if_pos rfl) ?_
    refine Returns.bind_some (Block.write_eq_some.mpr ⟨by omega, rfl⟩) ?_
    refine Returns.mono (ih (by omega) h1 ?_ ?_) ?_
    · rw [hdev1, hlen]
      exact congrArg Nat.cast (by omega)
    · dsimp only
      omega
    rintro ⟨fs2, dst2, sector2, buffer2⟩ ⟨h2, hdev2, hsize, hsector, hother, hbytes⟩
    dsimp only at h2 hdev2 hsize hsector hother hbytes ⊢
    refine ⟨?_, hdev2.trans hdev1, hsize, by omega, fun x hx ↦ ?_, fun i hi ↦ ?_⟩
    · rwa [show pos + size = pos + n + (size - n) by omega]
    · rw [hother x (by omega), update_of_ne (by omega)]
    · by_cases hin : i < n
      · rw [Nat.div_eq_of_lt (by omega), Nat.mod_eq_of_lt (by omega), Nat.add_zero,
          hother sector (by omega), update_self, memset, if_neg (by omega), hbuf i hin]
      · obtain rfl : n = 512 := hchunk.resolve_right (by omega)
        obtain ⟨e, rfl⟩ := Nat.exists_eq_add_of_le (Nat.not_lt.mp hin)
        rw [Nat.add_comm 512, Nat.add_div_right _ (by decide), Nat.add_mod_right,
          Nat.add_comm e 512, ← Nat.add_assoc pos, ← hdev1, ← hbytes e (by omega),
          Nat.add_comm (e / 512), ← Nat.add_assoc]

theorem toInt32_lt (v : Nat) : toInt32 v < 2 ^ 31 := by
  unfold toInt32
  have hlt := Int.bmod_lt (x := (v : Int)) (m := 2 ^ 32) (by decide)
  omega

/-- The length of a file is an `off_t`. -/
theorem length_lt_of_holds {bytes : List UInt8} (h : Fs.Holds device t bytes) :
    bytes.length < 2 ^ 31 := by
  have hlt := toInt32_lt (le32 (device.data t) 4)
  have hlen := h.1
  simp only [inodeAt, InodeDisk.decode] at hlen
  omega

/-- What a call of `fsutil_append` leaves: an entry, and one sector of a marker behind it. -/
structure Appended (a : Archiver) (c : AppendCall) (file : NamedFile) (a' : Archiver) : Prop where
  rest : a'.fs.AtRest
  device : a'.fs.device = a.fs.device
  sector : a'.sector = a.sector + entrySize file
  size : a'.scratch.size = a.scratch.size
  entry : HasEntry a'.scratch a.sector file
  marker : ∀ i < 512, a'.scratch.data a'.sector i = if i + 1 < 512 then 0 else c.behind
  other : ∀ x, x < a.sector ∨ a'.sector < x → a'.scratch.data x = a.scratch.data x

/-- **`fsutil_append`** writes the entry of a file. -/
theorem fsutilAppend_spec {a : Archiver} {c : AppendCall} (h : a.fs.AtRest)
    (hmem : (file.1, t) ∈ a.fs.rootContents) (hh : Fs.Holds a.fs.device t file.2)
    (hname : ProperName file.1) (hc : c.fileName = file.1)
    (hdst : a.sector + entrySize file < a.scratch.size) :
    Returns (fsutilAppend a c) (Appended a c file) := by
  rw [entrySize] at hdst
  have hlen : file.2.length < 2 ^ 31 := length_lt_of_holds hh
  obtain ⟨header, hmake, hparse, -⟩ := exists_header c.buffer hname.nul
    (by rw [hname.strip]; exact Nat.le_trans hname.length (by decide)) (.inl rfl)
    (show file.2.length ≤ 2 ^ 31 - 1 by omega)
  rw [hname.strip] at hparse
  rw [fsutilAppend, Fs.malloc_memory h.memory]
  refine Returns.bind_some (if_pos rfl) ?_
  rw [hc]
  refine Returns.bind (h.filesysOpen hmem) ?_
  rintro ⟨_, fs1⟩ ⟨f, rfl, h1, hdev1, -⟩
  dsimp only at h1 hdev1
  refine Returns.bind_some rfl ?_
  have hlength : (inodeAt fs1.device t).length = (0 + file.2.length : Nat) := by
    rw [hdev1, hh.1, Nat.zero_add]
  refine Returns.bind_some h1.fileLength ?_
  rw [hlength, Nat.zero_add, Int.toNat_natCast]
  refine Returns.bind_some hmake ?_
  refine Returns.bind_some (if_pos rfl) ?_
  refine Returns.bind_some (Block.write_eq_some.mpr ⟨by omega, rfl⟩) ?_
  have hsize : a.sector + 1 + dataSectors file.2.length ≤ a.scratch.size := by omega
  refine Returns.bind (appendLoop_spec (Nat.le_refl _) h1 hlength hsize) ?_
  rintro ⟨fs2, dst, sector, buffer⟩ ⟨h2, hdev2, hsize2, hsector, hother, hbytes⟩
  dsimp only at h2 hdev2 hsize2 hsector hother hbytes ⊢
  refine Returns.bind_some (Block.write_eq_some.mpr ⟨by omega, rfl⟩) ?_
  refine Returns.bind_some (Block.write_eq_some.mpr ⟨by dsimp only; omega, rfl⟩) ?_
  refine Returns.bind h2.fileClose ?_
  rintro fs3 ⟨h3, hdev3, -⟩
  have hkeep : ∀ (x : Nat) (b b' : Buffer), x ≠ sector →
      Function.update (Function.update dst.data sector b) sector b' x = dst.data x :=
    fun x b b' hne ↦ by rw [update_of_ne hne, update_of_ne hne]
  refine .pure ⟨h3, hdev3.trans (hdev2.trans hdev1), ?_, hsize2, ⟨?_, fun i hi ↦ ?_⟩, fun i hi ↦ ?_,
    fun x hx ↦ ?_⟩
  · dsimp only [entrySize]
    omega
  · dsimp only
    rw [hkeep _ _ _ (by omega), hother _ (by omega), update_self]
    exact hparse
  · have hlast : i / 512 < dataSectors file.2.length := by
      rw [dataSectors]
      omega
    dsimp only
    rw [hkeep _ _ _ (by omega), hbytes i hi, hdev1, Nat.zero_add, hh.2 i hi]
  · dsimp only [blockSectorSize]
    rw [update_self]
    split
    · rw [memset, if_pos (by omega)]
    · rfl
  · dsimp only at hx ⊢
    rw [hkeep x _ _ (by omega), hother x (by omega), update_of_ne (by omega)]

/-! ## A whole archive -/

/-- The file system stores the file, perhaps among others. -/
def Fs.HasNamed (fs : Fs) (file : NamedFile) : Prop :=
  ∃ t, (file.1, t) ∈ fs.rootContents ∧ Fs.Holds fs.device t file.2

/-- What the scratch device holds after the files have been appended from the state `a₀` on, if the
byte behind the buffer was zero each time. -/
structure Archived (a₀ : Archiver) (files : List NamedFile) (a : Archiver) : Prop where
  rest : a.fs.AtRest
  device : a.fs.device = a₀.fs.device
  sector : a.sector = archiveSize files
  size : a.scratch.size = a₀.scratch.size
  entries : HasEntries a.scratch 0 files
  marker : files ≠ [] → isAllZeros (a.scratch.data a.sector) 512 = true
  other : ∀ x, a.sector < x ∨ files = [] → a.scratch.data x = a₀.scratch.data x

theorem Archived.nil {a : Archiver} (h : a.fs.AtRest) (hsector : a.sector = 0) : Archived a [] a :=
  ⟨h, rfl, hsector, rfl, trivial, fun hne ↦ absurd rfl hne, fun _ _ ↦ rfl⟩

/-- **A call appends a file to the archive.** -/
theorem Archived.append {a0 a a' : Archiver} {c : AppendCall} (h : Archived a0 files a)
    (happend : Appended a c file a') (hbehind : c.behind = 0) :
    Archived a0 (files ++ [file]) a' := by
  have hsector : a'.sector = archiveSize (files ++ [file]) := by
    rw [happend.sector, h.sector, archiveSize_append]
    rfl
  have hlt : a.sector < a'.sector := by
    rw [happend.sector, entrySize]
    omega
  refine ⟨happend.rest, happend.device.trans h.device, hsector, happend.size.trans h.size, ?_,
    fun _ ↦ ?_, fun x hx ↦ ?_⟩
  · refine HasEntries.concat (h.entries.congr fun x _ hx ↦ happend.other x (.inl ?_)) ?_
    · rw [h.sector]
      omega
    · rw [Nat.zero_add, ← h.sector]
      exact happend.entry
  · refine all_eq_true.mpr fun i hi ↦ beq_iff_eq.mpr ?_
    rw [happend.marker i (mem_range.mp hi), hbehind, ite_self]
  · have hx' : a'.sector < x := hx.resolve_right (by simp)
    rw [happend.other x (.inr hx'), h.other x (.inl (by omega))]

/-- **After any calls** the archive has the entries of the files. -/
theorem Archived.run {a0 : Archiver} {files : List NamedFile} :
    ∀ {a : Archiver} {calls : List AppendCall} {done : List NamedFile}, Archived a0 done a →
      calls.map AppendCall.fileName = files.map Prod.fst → (∀ c ∈ calls, c.behind = 0) →
      (∀ file ∈ files, ProperName file.1 ∧ a0.fs.HasNamed file) →
      archiveSize (done ++ files) < a0.scratch.size →
      Returns (Run.run fsutilAppend a calls) (Archived a0 (done ++ files)) := by
  induction files with
  | nil =>
    rintro a (_ | ⟨c, calls⟩) done h hcalls - - -
    · rw [append_nil]
      exact .pure h
    · cases hcalls
  | cons file files ih =>
    rintro a (_ | ⟨c, calls⟩) done h hcalls hbehind hfiles hsize
    · cases hcalls
    · rw [map_cons, map_cons, cons.injEq] at hcalls
      obtain ⟨hname, t, hmem, hh⟩ := hfiles file mem_cons_self
      have hfits : a.sector + entrySize file < a.scratch.size := by
        rw [archiveSize_append, archiveSize_cons] at hsize
        rw [h.sector, h.size]
        omega
      rw [← h.device] at hh
      have hmem' : (file.1, t) ∈ a.fs.rootContents := by
        rw [Fs.rootContents, h.device]
        exact hmem
      refine Returns.bind (fsutilAppend_spec h.rest hmem' hh hname hcalls.1 hfits) fun a' ha' ↦ ?_
      have hone := h.append ha' (hbehind c mem_cons_self)
      rw [← singleton_append, ← append_assoc] at hsize ⊢
      exact ih hone hcalls.2 (fun c hc ↦ hbehind c (mem_cons_of_mem _ hc))
        (fun file hfile ↦ hfiles file (mem_cons_of_mem _ hfile)) hsize

/-- **`fsutil_extract`** makes the files of an archive. -/
theorem fsutilExtract_spec (h : fs.Stores []) (hent : HasEntries src 0 files)
    (hend : isAllZeros (src.data (archiveSize files)) 512 = true)
    (hsrc : archiveSize files + 2 ≤ src.size)
    (hproper : ∀ file ∈ files, ProperName file.1 ∧ file.2.length < 2 ^ 31)
    (hnames : (files.map Prod.fst).Nodup) (hcnt : files.length ≤ 16)
    (hroom : fs.Room (storeSize files)) :
    Returns (fsutilExtract fs src 0) fun r ↦ r.1.Stores files := by
  have hlength := length_le_archiveSize files
  rw [fsutilExtract, Fs.malloc_memory h.memory]
  dsimp only
  rw [Fs.malloc_memory h.memory]
  refine Returns.bind_some (if_pos ⟨rfl, rfl⟩) ?_
  rw [← Nat.zero_add (archiveSize files)] at hend
  refine Returns.bind (extractLoop_spec h hent hend (by omega) hproper (by rwa [append_nil])
    hcnt hroom (by omega)) ?_
  rintro ⟨fs', sector⟩ hstores
  refine Returns.bind_some (Block.write_eq_some.mpr ⟨by omega, rfl⟩) ?_
  refine Returns.bind_some (Block.write_eq_some.mpr ⟨by dsimp only; omega, rfl⟩) ?_
  rw [append_nil] at hstores
  exact .pure (hstores.perm (reverse_perm files))

/-- **Append, then extract.**  At most 16 files of a file system, with names that are not changed in
an archive, are appended to a scratch device that is large enough.  If the byte behind the buffer is
zero at every call, and each sector that should become the second one of a marker is zero already,
then two sectors of zeros follow the last data sector after each call, and from the archive an empty
file system that has room for them gets exactly these files. -/
theorem append_extract {src dst : Fs} {scratch : Block} {calls : List AppendCall}
    (hcnt : files.length ≤ 16) (hnames : (files.map Prod.fst).Nodup)
    (hsrc : src.AtRest) (hfiles : ∀ file ∈ files, ProperName file.1 ∧ src.HasNamed file)
    (hcalls : calls.map AppendCall.fileName = files.map Prod.fst)
    (hsize : archiveSize files + 2 ≤ scratch.size) (hbehind : ∀ c ∈ calls, c.behind = 0)
    (hzero : ∀ n, 0 < n → n ≤ files.length →
      isAllZeros (scratch.data (archiveSize (files.take n) + 1)) 512 = true)
    (hnil : files = [] → isAllZeros (scratch.data 0) 512 = true)
    (hdst : dst.AtRest) (hempty : dst.rootContents = []) (hroom : dst.Room (storeSize files)) :
    (∀ n, 0 < n → n ≤ files.length →
      Returns (Run.run fsutilAppend ⟨src, scratch, 0⟩ (calls.take n)) fun a ↦
        a.sector = archiveSize (files.take n) ∧
        isAllZeros (a.scratch.data (archiveSize (files.take n))) 512 = true ∧
        isAllZeros (a.scratch.data (archiveSize (files.take n) + 1)) 512 = true) ∧
    Returns (Run.run fsutilAppend ⟨src, scratch, 0⟩ calls) fun a ↦
      Returns (fsutilExtract dst a.scratch 0) fun r ↦ r.1.Stores files := by
  have hstart : Archived ⟨src, scratch, 0⟩ [] ⟨src, scratch, 0⟩ := .nil hsrc rfl
  refine ⟨fun n h0 hn ↦ ?_, ?_⟩
  · have hle : archiveSize (files.take n) ≤ archiveSize files := by
      conv_rhs => rw [← take_append_drop n files, archiveSize_append]
      exact Nat.le_add_right _ _
    have hcalls' : (calls.take n).map AppendCall.fileName = (files.take n).map Prod.fst := by
      rw [map_take, hcalls, map_take]
    refine (hstart.run hcalls'
      (fun c hc ↦ hbehind c (mem_of_mem_take hc))
      (fun file hfile ↦ hfiles file (mem_of_mem_take hfile))
      (show archiveSize (files.take n) < scratch.size by omega)).mono fun a ha ↦ ?_
    rw [nil_append] at ha
    have hne : files.take n ≠ [] := by
      intro heq
      have hlen := congrArg length heq
      rw [length_take, length_nil] at hlen
      omega
    have hsector := ha.sector
    refine ⟨hsector, hsector ▸ ha.marker hne, ?_⟩
    rw [ha.other _ (.inl (by omega))]
    exact hzero n h0 hn
  · refine (hstart.run hcalls hbehind hfiles
      (show archiveSize files < scratch.size by omega)).mono fun a ha ↦ ?_
    rw [nil_append] at ha
    refine fsutilExtract_spec (hdst.stores_nil hempty) ha.entries ?_ (by rwa [ha.size]) ?_ hnames
      hcnt hroom
    · rw [← ha.sector]
      rcases eq_or_ne files [] with hfil | hne
      · have h0 : a.sector = 0 := by
          rw [ha.sector, hfil]
          rfl
        rw [ha.other _ (.inr hfil), h0]
        exact hnil hfil
      · exact ha.marker hne
    · intro file hfile
      obtain ⟨hname, t, -, hh⟩ := hfiles file hfile
      exact ⟨hname, length_lt_of_holds hh⟩

/-- One more file can be made, as if it came from an archive. -/
theorem Fs.Stores.exists_cons {n : Nat} (h : fs.Stores files) (hname : ProperName file.1)
    (hnew : file.1 ∉ files.map Prod.fst) (hcnt : files.length < 16) (hlen : file.2.length < 2 ^ 31)
    (hroom : fs.Room (1 + (bytesToSectors file.2.length + n))) :
    ∃ fs' : Fs, fs'.Stores (file :: files) ∧ fs'.Room n := by
  obtain ⟨header, -, hparse, -⟩ := exists_header (fun _ ↦ 0) hname.nul
    (by rw [hname.strip]; exact Nat.le_trans hname.length (by decide)) (.inl rfl)
    (show file.2.length ≤ 2 ^ 31 - 1 by omega)
  rw [hname.strip] at hparse
  have hentry : HasEntry ⟨entrySize file, fun x ↦ if x = 0 then header else
      fun i ↦ file.2.getD (512 * (x - 1) + i) 0⟩ 0 file :=
    ⟨hparse, fun i _ ↦ by simp [Nat.div_add_mod]⟩
  obtain ⟨r, -, hstores, hroom', -⟩ :=
    extractFile_spec h hentry hname hnew hcnt hlen hroom (by simp)
  exact ⟨r.1, hstores, hroom'⟩

/-- Two files, from one device to another.  The second overwrites the marker behind the first. -/
theorem append_extract_abc : ∃ (src dst : Fs) (a : Archiver) (r : Fs × Block × Nat),
    src.Stores [(ascii "abc", [1, 2, 3]), (ascii "de", [4])] ∧
    Fs.filesysInit ⟨16, fun _ _ ↦ 0⟩ [] (fun _ ↦ 0) = some dst ∧
    Run.run fsutilAppend ⟨src, ⟨8, fun _ _ ↦ 0⟩, 0⟩
      [⟨ascii "abc", fun _ ↦ 0xcc, 0⟩, ⟨ascii "de", fun _ ↦ 0xcc, 0⟩] = some a ∧
    fsutilExtract dst a.scratch 0 = some r ∧
    r.1.Stores [(ascii "abc", [1, 2, 3]), (ascii "de", [4])] := by
  have heval : (Fs.filesysInit ⟨16, fun _ _ ↦ 0⟩ [] (fun _ ↦ 0)).map (fun fs ↦
      (fs.oracle, fs.freeMap.size, (range' 4 12).all fun x ↦ !fs.freeMap.bit x)) =
        some ([], 16, true) := by
    decide +kernel
  obtain ⟨dst, hinit, heq⟩ := Option.map_eq_some_iff.mp heval
  simp only [Prod.mk.injEq] at heq
  obtain ⟨hmem, hsize, hbits⟩ := heq
  obtain ⟨hdst, hempty⟩ := Fs.AtRest.of_init (by decide) hinit hmem
  have hroom : dst.Room 4 := by
    refine ⟨4, by omega, fun x hle hlt ↦ ?_⟩
    simpa using all_eq_true.mp hbits x (mem_range'_1.mpr (by omega))
  have hname : ∀ file ∈ [(ascii "abc", [1, 2, 3]), (ascii "de", [(4 : UInt8)])],
      ProperName file.1 := by
    simp only [mem_cons, not_mem_nil, or_false, forall_eq_or_imp, forall_eq]
    exact ⟨⟨by decide, by decide, by decide⟩, by decide, by decide, by decide⟩
  obtain ⟨fs, hfs, hroom'⟩ : ∃ fs : Fs, fs.Stores [(ascii "de", [4])] ∧ fs.Room 2 :=
    (hdst.stores_nil hempty).exists_cons (hname _ (by decide)) not_mem_nil (by decide) (by decide)
      hroom
  obtain ⟨src, hsrc, -⟩ : ∃ src : Fs, src.Stores [(ascii "abc", [1, 2, 3]), (ascii "de", [4])] ∧
      src.Room 0 :=
    hfs.exists_cons (hname _ (by decide)) (by decide) (by decide) (by decide) hroom'
  have hzeros : isAllZeros (fun _ ↦ 0) 512 = true := by decide +kernel
  obtain ⟨-, a, hrun, r, hextract, hr⟩ := @append_extract _ src dst ⟨8, fun _ _ ↦ 0⟩
    [⟨ascii "abc", fun _ ↦ 0xcc, 0⟩, ⟨ascii "de", fun _ ↦ 0xcc, 0⟩] (by decide) (by decide)
    hsrc.toAtRest (fun file hfile ↦ ⟨hname _ hfile, hsrc.bytes _ hfile⟩) rfl (by decide) (by simp)
    (fun _ _ _ ↦ hzeros) (fun _ ↦ hzeros) hdst hempty hroom
  exact ⟨src, dst, a, r, hsrc, hinit, hrun, hextract, hr⟩

/-- Another byte than zero behind the buffer, and the archive cannot be extracted any more. -/
theorem append_byte_behind : ((Fs.filesysInit ⟨16, fun _ _ ↦ 0⟩ [] (fun _ ↦ 0)).bind fun fs ↦
    (fs.filesysCreate (ascii "abc") 3).bind fun r ↦
    (fsutilAppend ⟨r.2, ⟨8, fun _ _ ↦ 0⟩, 0⟩ ⟨ascii "abc", fun _ ↦ 0xcc, 0xcc⟩).map fun a ↦
      (r.1, a.sector, isAllZeros (a.scratch.data 2) 512,
        (fsutilExtract fs a.scratch 0).isSome)) = some (true, 2, false, false) := by
  decide +kernel

end Pintos
