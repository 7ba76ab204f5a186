import Pintos.Lib.Stdio
import Pintos.Threads.Palloc

/-!
# Archive headers

`lib/ustar.c`.  A header is a sector of 512 bytes, in which every field has its place; numbers are
written in octal digits.

What `ustar_make_header` stores is a chain of `putBytes`, one per field (`headerFields`), and the
checksum at last.  The fields do not overlap, so each of them is read back as it was written
(`parseOctalField_octalField` for the numbers), and the checksum of the header does not depend on
the field it is stored in (`calculateChksum_congr`).  A name is stripped twice, once on each side,
and the second time has no effect (`stripAntisocialPrefixes_idem`).

A header need not be made by it: `ustar_parse_header_safe` is about any 512 bytes.
-/

set_option autoImplicit false

namespace Pintos

open List

/-! ## The functions of `ustar.c` -/

/-- `enum ustar_type`. -/
inductive UstarType where
  | regular
  | directory
  | eof
  deriving DecidableEq, Repr

/-- The byte of a type in a header; `USTAR_EOF` has none. -/
def UstarType.flag : UstarType → UInt8
  | .regular => '0'.toUInt8
  | .directory => '5'.toUInt8
  | .eof => 255

/-- `USTAR_HEADER_SIZE`. -/
abbrev ustarHeaderSize : Nat := 512

namespace UstarHeader

/-! The offsets of the fields of `struct ustar_header`. -/

abbrev name : Nat := 0
abbrev mode : Nat := 100
abbrev uid : Nat := 108
abbrev gid : Nat := 116
abbrev size : Nat := 124
abbrev mtime : Nat := 136
abbrev chksum : Nat := 148
abbrev typeflag : Nat := 156
abbrev magic : Nat := 257
abbrev version : Nat := 263
abbrev uname : Nat := 265
abbrev gname : Nat := 297
abbrev namePrefix : Nat := 345

end UstarHeader

/-- `calculate_chksum`. -/
def calculateChksum (h : Buffer) : Nat :=
  ((List.range ustarHeaderSize).map fun i ↦
    let inChksumField := UstarHeader.chksum ≤ i ∧ i < UstarHeader.chksum + 8
    if inChksumField then ' '.toUInt8.toNat else (h i).toNat).sum

/-- The condition of the loop of `strip_antisocial_prefixes`. -/
def antisocial (fileName : List UInt8) : Bool :=
  (ascii "/").isPrefixOf fileName || (ascii "./").isPrefixOf fileName ||
    (ascii "../").isPrefixOf fileName

/-- The loop of `strip_antisocial_prefixes`, which goes on behind the first slash. -/
def stripLoop : Nat → List UInt8 → List UInt8
  | 0, fileName => fileName
  | fuel + 1, fileName =>
    if antisocial fileName then stripLoop fuel (fileName.dropWhile (· ≠ '/'.toUInt8)).tail
    else fileName

/-- `strip_antisocial_prefixes`. -/
def stripAntisocialPrefixes (fileName : List UInt8) : List UInt8 :=
  let fileName := stripLoop fileName.length fileName
  if fileName = [] ∨ fileName = ascii ".." then ascii "." else fileName

/-- `strlcpy` to an address. -/
def strlcpyAt (mem : Buffer) (dst : Nat) (src : List UInt8) (size : Nat) : Buffer :=
  if 0 < size then putBytes mem dst (src.take (min (size - 1) src.length) ++ [0]) else mem

/-- `ustar_make_header`. -/
def ustarMakeHeader (fileName : List UInt8) (type : UstarType) (size : Int) (header : Buffer) :
    Kernel (Bool × Buffer) := do
  assert (type = .regular ∨ type = .directory)
  let fileName := stripAntisocialPrefixes fileName
  if fileName.length > 99 then return (false, header)
  else
    let h := memset header 0 0 ustarHeaderSize
    let h := strlcpyAt h UstarHeader.name fileName 100
    let (_, h) ← vsnprintf h UstarHeader.mode 8 (ascii "%07o")
      [.word (if type = .regular then 0o644 else 0o755)]
    let h := strlcpyAt h UstarHeader.uid (ascii "0000000") 8
    let h := strlcpyAt h UstarHeader.gid (ascii "0000000") 8
    let (_, h) ← vsnprintf h UstarHeader.size 12 (ascii "%011o") [.word (ofInt32 size).toUInt32]
    let (_, h) ← vsnprintf h UstarHeader.mtime 12 (ascii "%011o") [.word 1136102400]
    let h := putBytes h UstarHeader.typeflag [type.flag]
    let h := strlcpyAt h UstarHeader.magic (ascii "ustar") 6
    let h := putBytes h UstarHeader.version (ascii "00")
    let h := strlcpyAt h UstarHeader.gname (ascii "root") 32
    let h := strlcpyAt h UstarHeader.uname (ascii "root") 32
    let (_, h) ← vsnprintf h UstarHeader.chksum 8 (ascii "%07o")
      [.word (calculateChksum h).toUInt32]
    return (true, h)

/-- The loop of `parse_octal_field` over the field at `s`, with `n` bytes left: `*value` if it
returns true. -/
def parseOctalLoop (h : Buffer) (s : Nat) : Nat → Nat → Nat → Option Nat
  | 0, _, _ => none
  | n + 1, ofs, value =>
    let c := h (s + ofs)
    if '0'.toUInt8 ≤ c ∧ c ≤ '7'.toUInt8 then
      if value > (2 ^ 32 - 1) / 8 then none
      else parseOctalLoop h s n (ofs + 1) (c.toNat - '0'.toUInt8.toNat + value * 8)
    else if c = ' '.toUInt8 ∨ c = 0 then
      if ofs > 0 then some value else none
    else none

/-- `parse_octal_field`. -/
def parseOctalField (h : Buffer) (s size : Nat) : Option Nat := parseOctalLoop h s size 0 0

/-- `is_all_zeros`. -/
def isAllZeros (block : Buffer) (cnt : Nat) : Bool := (List.range cnt).all fun i ↦ block i == 0

/-- The `n` bytes at an offset. -/
def bytesAt (h : Buffer) (s n : Nat) : List UInt8 := (List.range n).map fun i ↦ h (s + i)

/-- What `ustar_parse_header` stores to `*file_name`, `*type` and `*size`. -/
structure UstarEntry where
  fileName : Option (List UInt8)
  type : UstarType
  size : Nat
  deriving DecidableEq, Repr

/-- `ustar_parse_header`: an error message, or what it has found. -/
def ustarParseHeader (header : Buffer) : Except String UstarEntry :=
  if isAllZeros header ustarHeaderSize then .ok ⟨none, .eof, 0⟩
  else if bytesAt header UstarHeader.magic 6 ≠ ascii "ustar" ++ [0] then
    .error "not a ustar archive"
  else if bytesAt header UstarHeader.version 2 ≠ ascii "00" then .error "invalid ustar version"
  else
    match parseOctalField header UstarHeader.chksum 8 with
    | none => .error "corrupt chksum field"
    | some chksum =>
      if chksum ≠ calculateChksum header then .error "checksum mismatch"
      else if header (UstarHeader.name + 99) ≠ 0 ∨ header UstarHeader.namePrefix ≠ 0 then
        .error "file name too long"
      else
        -- The name ends within its field.
        let fileName := stripAntisocialPrefixes
          ((bytesAt header UstarHeader.name 100).takeWhile (· ≠ 0))
        if header UstarHeader.typeflag = UstarType.regular.flag then
          match parseOctalField header UstarHeader.size 12 with
          | none => .error "corrupt file size field"
          | some size =>
            if size > 2 ^ 31 - 1 then .error "file too large"
            else .ok ⟨some fileName, .regular, size⟩
        else if header UstarHeader.typeflag = UstarType.directory.flag then
          .ok ⟨some fileName, .directory, 0⟩
        else .error "unimplemented file type"

/-! ## Numbers -/

theorem octalDigit_spec : ∀ d < 8, '0'.toUInt8 ≤ baseO.digits.getD d 0 ∧
    baseO.digits.getD d 0 ≤ '7'.toUInt8 ∧
    (baseO.digits.getD d 0).toNat - '0'.toUInt8.toNat = d := by
  decide

/-- The number that octal digits add to a value. -/
def octalValue (value : Nat) (digits : List UInt8) : Nat :=
  digits.foldl (fun v c ↦ c.toNat - '0'.toUInt8.toNat + v * 8) value

theorem le_octalValue (digits : List UInt8) : ∀ v, v ≤ octalValue v digits := by
  induction digits with
  | nil => exact fun v ↦ Nat.le_refl v
  | cons c digits ih => exact fun v ↦ Nat.le_trans (by dsimp only; omega) (ih _)

/-- The digits of a number from the first `k` bytes, and the byte that ends it. -/
def OctalRun (h : Buffer) (s k : Nat) : Prop :=
  (∀ c ∈ bytesAt h s k, '0'.toUInt8 ≤ c ∧ c ≤ '7'.toUInt8) ∧
    (h (s + k) = ' '.toUInt8 ∨ h (s + k) = 0)

theorem bytesAt_succ (h : Buffer) (s k : Nat) :
    bytesAt h s (k + 1) = h s :: bytesAt h (s + 1) k := by
  simp only [bytesAt, range_succ_eq_map, map_cons, map_map, Nat.add_zero]
  exact congrArg _ (map_congr_left fun i _ ↦ congrArg h (by omega))

variable {h mem h' : Buffer} {fileName : List UInt8} {type : UstarType} {size : Nat}

theorem octalRun_zero {s : Nat} : OctalRun h s 0 ↔ h s = ' '.toUInt8 ∨ h s = 0 :=
  ⟨fun hrun ↦ hrun.2, fun hend ↦ ⟨nofun, hend⟩⟩

theorem octalRun_succ {s k : Nat} :
    OctalRun h s (k + 1) ↔ ('0'.toUInt8 ≤ h s ∧ h s ≤ '7'.toUInt8) ∧ OctalRun h (s + 1) k := by
  rw [OctalRun, OctalRun, bytesAt_succ, forall_mem_cons, Nat.add_right_comm, and_assoc]
  rfl

/-- The loop of `parse_octal_field` accepts a run of digits with a value of 32 bits. -/
theorem parseOctalLoop_eq_some_iff {s n ofs value v : Nat} (hvalue : value < 2 ^ 32) :
    parseOctalLoop h s n ofs value = some v ↔ ∃ k < n, 0 < ofs + k ∧ OctalRun h (s + ofs) k ∧
      octalValue value (bytesAt h (s + ofs) k) = v ∧ v < 2 ^ 32 := by
  induction n generalizing ofs value with
  | zero => exact ⟨nofun, nofun⟩
  | succ n ih =>
    rw [parseOctalLoop]
    by_cases hdigit : '0'.toUInt8 ≤ h (s + ofs) ∧ h (s + ofs) ≤ '7'.toUInt8
    · -- The run is not over, since a digit does not end it.
      have hzero : ¬ OctalRun h (s + ofs) 0 := by
        rw [octalRun_zero]
        rintro (heq | heq) <;> rw [heq] at hdigit <;> exact absurd hdigit (by decide)
      have hc : (h (s + ofs)).toNat ≤ '7'.toUInt8.toNat := UInt8.le_iff_toNat_le.mp hdigit.2
      have h7 : '7'.toUInt8.toNat = '0'.toUInt8.toNat + 7 := rfl
      have hstep : (∃ k < n + 1, 0 < ofs + k ∧ OctalRun h (s + ofs) k ∧
          octalValue value (bytesAt h (s + ofs) k) = v ∧ v < 2 ^ 32) ↔
          ∃ k < n, 0 < ofs + 1 + k ∧ OctalRun h (s + (ofs + 1)) k ∧
            octalValue ((h (s + ofs)).toNat - '0'.toUInt8.toNat + value * 8)
              (bytesAt h (s + (ofs + 1)) k) = v ∧ v < 2 ^ 32 := by
        constructor
        · rintro ⟨_ | k, hk, -, hrun, hv, hlt⟩
          · exact absurd hrun hzero
          · rw [bytesAt_succ] at hv
            exact ⟨k, by omega, by omega, (octalRun_succ.mp hrun).2, hv, hlt⟩
        · rintro ⟨k, hk, -, hrun, hv, hlt⟩
          refine ⟨k + 1, by omega, by omega, octalRun_succ.mpr ⟨hdigit, hrun⟩, ?_, hlt⟩
          rw [bytesAt_succ]
          exact hv
      rw [if_pos hdigit, hstep]
      split
      · refine ⟨nofun, ?_⟩
        rintro ⟨k, -, -, -, hv, hlt⟩
        have := le_octalValue (bytesAt h (s + (ofs + 1)) k)
          ((h (s + ofs)).toNat - '0'.toUInt8.toNat + value * 8)
        omega
      · exact ih (by omega)
    · have hrun : ∀ {k}, OctalRun h (s + ofs) k → k = 0 := by
        rintro (_ | k) hrun
        · rfl
        · exact absurd (octalRun_succ.mp hrun).1 hdigit
      rw [if_neg hdigit]
      constructor
      · intro hsome
        split at hsome
        · next hend =>
          split at hsome
          · next hofs =>
            cases hsome
            exact ⟨0, by omega, hofs, octalRun_zero.mpr hend, rfl, hvalue⟩
          · cases hsome
        · cases hsome
      · rintro ⟨k, -, hofs, hk, hv, -⟩
        obtain rfl := hrun hk
        rw [if_pos (octalRun_zero.mp hk), if_pos (by omega)]
        exact congrArg some hv

theorem parseOctalField_eq_some_iff {s v : Nat} :
    parseOctalField h s size = some v ↔ ∃ k, 0 < k ∧ k < size ∧ OctalRun h s k ∧
      octalValue 0 (bytesAt h s k) = v ∧ v < 2 ^ 32 := by
  rw [parseOctalField, parseOctalLoop_eq_some_iff (by decide)]
  simp only [Nat.zero_add, Nat.add_zero]
  exact exists_congr fun k ↦ and_left_comm

theorem bytesAt_eq {s n : Nat} {bytes : List UInt8} (hlen : bytes.length = n)
    (heq : ∀ i < n, h (s + i) = bytes.getD i 0) : bytesAt h s n = bytes := by
  subst hlen
  refine ext_getElem (by rw [bytesAt, length_map, length_range]) fun i _ hi ↦ ?_
  simp only [bytesAt, getElem_map, getElem_range]
  rw [heq i hi, getD_eq_getElem _ _ hi]

/-- A number in octal digits, and a null byte. -/
def octalField (width value : Nat) : List UInt8 :=
  ((octalDigits width value).map fun d ↦ baseO.digits.getD d 0) ++ [0]

theorem length_octalField {width value : Nat} (h : value < 8 ^ width) :
    (octalField width value).length = width + 1 := by
  rw [octalField, length_append, length_map, length_octalDigits h]
  rfl

/-- **A number that is written in octal digits is read back.** -/
theorem parseOctalField_octalField {s width value : Nat}
    (hvalue : value < 8 ^ width) (hfits : value < 2 ^ 32) (hwidth : 0 < width)
    (hfield : ∀ i ≤ width, h (s + i) = putBytes mem s (octalField width value) (s + i)) :
    parseOctalField h s (width + 1) = some value := by
  have hlen : ((octalDigits width value).map fun d ↦ baseO.digits.getD d 0).length = width := by
    rw [length_map, length_octalDigits hvalue]
  have hdigits : bytesAt h s width =
      (octalDigits width value).map fun d ↦ baseO.digits.getD d 0 := by
    refine bytesAt_eq hlen fun i hi ↦ ?_
    rw [hfield i (by omega), putBytes_add (by rw [length_octalField hvalue]; omega), octalField,
      getD_append _ _ _ _ (by omega)]
  refine parseOctalField_eq_some_iff.mpr ⟨width, hwidth, by omega, ⟨?_, .inr ?_⟩, ?_, hfits⟩
  · rw [hdigits]
    intro c hc
    obtain ⟨d, hd, rfl⟩ := mem_map.mp hc
    exact ⟨(octalDigit_spec d (octalDigits_lt hd)).1, (octalDigit_spec d (octalDigits_lt hd)).2.1⟩
  · rw [hfield width (Nat.le_refl _), putBytes_add (by rw [length_octalField hvalue]; omega),
      octalField, getD_append_right _ _ _ _ (by omega), hlen, Nat.sub_self]
    rfl
  · rw [hdigits, octalValue, foldl_map]
    refine (foldl_ext _ _ _ fun v d hd ↦ ?_).trans (foldl_octalDigits width value)
    rw [(octalDigit_spec d (octalDigits_lt hd)).2.2]

/-! ## Names -/

theorem length_tail_dropWhile_lt (h : antisocial fileName = true) :
    (fileName.dropWhile (· ≠ '/'.toUInt8)).tail.length < fileName.length := by
  have hne : fileName ≠ [] := by
    rintro rfl
    exact absurd h (by decide)
  have hpos : 0 < fileName.length := length_pos_iff.mpr hne
  have hle := (dropWhile_sublist (fun c ↦ decide (c ≠ '/'.toUInt8)) (l := fileName)).length_le
  rw [length_tail]
  omega

/-- The loop ends with a name that has none of the prefixes. -/
theorem antisocial_stripLoop {fuel : Nat} : ∀ {fileName : List UInt8}, fileName.length ≤ fuel →
      antisocial (stripLoop fuel fileName) = false := by
  induction fuel with
  | zero =>
    intro fileName h
    obtain rfl := length_eq_zero_iff.mp (Nat.le_zero.mp h)
    decide
  | succ fuel ih =>
    intro fileName h
    rw [stripLoop]
    by_cases hanti : antisocial fileName = true
    · rw [if_pos hanti]
      exact ih (by have := length_tail_dropWhile_lt hanti; omega)
    · rw [if_neg hanti]
      exact Bool.eq_false_of_not_eq_true hanti

theorem stripLoop_eq_self {fuel : Nat} (h : antisocial fileName = false) :
    stripLoop fuel fileName = fileName := by
  cases fuel with
  | zero => rfl
  | succ fuel =>
    rw [stripLoop, h]
    rfl

/-- **Stripping a name twice is stripping it once.** -/
theorem stripAntisocialPrefixes_idem (fileName : List UInt8) :
    stripAntisocialPrefixes (stripAntisocialPrefixes fileName) =
      stripAntisocialPrefixes fileName := by
  generalize hname : stripAntisocialPrefixes fileName = name
  rw [stripAntisocialPrefixes] at hname
  by_cases hdot : stripLoop fileName.length fileName = [] ∨
      stripLoop fileName.length fileName = ascii ".."
  · rw [if_pos hdot] at hname
    rw [← hname]
    decide
  · rw [if_neg hdot] at hname
    have hanti : antisocial name = false := by
      rw [← hname]
      exact antisocial_stripLoop (Nat.le_refl _)
    rw [stripAntisocialPrefixes, stripLoop_eq_self hanti, ← hname]
    exact if_neg hdot

/-- The null byte stays outside of a name. -/
theorem not_mem_stripAntisocialPrefixes (h : 0 ∉ fileName) :
    0 ∉ stripAntisocialPrefixes fileName := by
  have hloop : ∀ fuel (name : List UInt8), 0 ∉ name → 0 ∉ stripLoop fuel name := by
    intro fuel
    induction fuel with
    | zero => exact fun _ h ↦ h
    | succ fuel ih =>
      intro name h
      rw [stripLoop]
      split
      · exact ih _ fun hmem ↦ h ((dropWhile_sublist _).mem (mem_of_mem_tail hmem))
      · exact h
  rw [stripAntisocialPrefixes]
  split
  · decide
  · exact hloop _ _ h

/-- What is stripped is the beginning of a name. -/
theorem stripLoop_suffix (fuel : Nat) : ∀ fileName : List UInt8,
    stripLoop fuel fileName <:+ fileName := by
  induction fuel with
  | zero => exact fun fileName ↦ suffix_rfl
  | succ fuel ih =>
    intro fileName
    rw [stripLoop]
    split
    · exact (ih _).trans ((tail_suffix _).trans (dropWhile_suffix _))
    · exact suffix_rfl

/-! ## The header that is made -/

/-- The header before the checksum is filled in. -/
def headerFields (header : Buffer) (name : List UInt8) (type : UstarType) (size : Nat) : Buffer :=
  let h := memset header 0 0 ustarHeaderSize
  let h := putBytes h UstarHeader.name (name ++ [0])
  let h := putBytes h UstarHeader.mode
    (octalField 7 (if type = .regular then 0o644 else 0o755))
  let h := putBytes h UstarHeader.uid (ascii "0000000" ++ [0])
  let h := putBytes h UstarHeader.gid (ascii "0000000" ++ [0])
  let h := putBytes h UstarHeader.size (octalField 11 size)
  let h := putBytes h UstarHeader.mtime (octalField 11 1136102400)
  let h := putBytes h UstarHeader.typeflag [type.flag]
  let h := putBytes h UstarHeader.magic (ascii "ustar" ++ [0])
  let h := putBytes h UstarHeader.version (ascii "00")
  let h := putBytes h UstarHeader.gname (ascii "root" ++ [0])
  putBytes h UstarHeader.uname (ascii "root" ++ [0])

theorem strlcpyAt_eq {dst : Nat} {src : List UInt8} (h : src.length < size) :
    strlcpyAt mem dst src size = putBytes mem dst (src ++ [0]) := by
  rw [strlcpyAt, if_pos (by omega), Nat.min_eq_right (by omega), take_length]

theorem vsnprintf_07o {buffer : Nat} {v : UInt32} (h : v.toNat < 8 ^ 7) :
    vsnprintf mem buffer 8 (ascii "%07o") [.word v] =
      some (7, putBytes mem buffer (octalField 7 v.toNat)) := by
  have hlen := length_octalDigits h
  rw [vsnprintf_eq (vprintf_07o v) (by simp [hlen]) (by decide) (by decide),
    take_of_length_le (by simp [hlen]), length_map, hlen]
  rfl

theorem vsnprintf_011o {buffer : Nat} (v : UInt32) :
    vsnprintf mem buffer 12 (ascii "%011o") [.word v] =
      some (11, putBytes mem buffer (octalField 11 v.toNat)) := by
  have hlen := length_octalDigits (v.toNat_lt.trans (by decide : 2 ^ 32 < 8 ^ 11))
  rw [vsnprintf_eq (vprintf_011o v) (by simp [hlen]) (by decide) (by decide),
    take_of_length_le (by simp [hlen]), length_map, hlen]
  rfl

/-- The checksum fits into its field. -/
theorem calculateChksum_lt (h : Buffer) : calculateChksum h < 8 ^ 7 := by
  have hle : calculateChksum h ≤ ustarHeaderSize • 255 := by
    refine (sum_le_card_nsmul _ 255 fun n hn ↦ ?_).trans (by simp)
    obtain ⟨i, -, rfl⟩ := mem_map.mp hn
    dsimp only
    split
    · decide
    · exact Nat.le_of_lt_succ (h i).toNat_lt
  exact Nat.lt_of_le_of_lt hle (by decide)

/-- The checksum does not depend on the field it is stored in. -/
theorem calculateChksum_congr
    (heq : ∀ i, i < UstarHeader.chksum ∨ UstarHeader.chksum + 8 ≤ i → h i = h' i) :
    calculateChksum h = calculateChksum h' := by
  refine congrArg sum (map_congr_left fun i _ ↦ ?_)
  dsimp only
  split
  · rfl
  · rw [heq i (by omega)]

/-- **`ustar_make_header`** on a name that fits. -/
theorem ustarMakeHeader_eq {header : Buffer}
    (htype : type ≠ .eof) (hname : (stripAntisocialPrefixes fileName).length ≤ 99)
    (hsize : size < 2 ^ 31) : ustarMakeHeader fileName type size header =
      some (true, putBytes (headerFields header (stripAntisocialPrefixes fileName) type size)
        UstarHeader.chksum (octalField 7 (calculateChksum
          (headerFields header (stripAntisocialPrefixes fileName) type size)))) := by
  have hassert : type = .regular ∨ type = .directory := by
    cases type with
    | regular => exact .inl rfl
    | directory => exact .inr rfl
    | eof => exact absurd rfl htype
  have hmode : (if type = .regular then (0o644 : UInt32) else 0o755).toNat =
      if type = .regular then 0o644 else 0o755 := by
    split <;> rfl
  have hword : (ofInt32 (size : Int)).toUInt32.toNat = size := by
    have hmod : (size : Int) % 2 ^ 32 = size := Int.emod_eq_of_lt (by omega) (by omega)
    rw [ofInt32, hmod, Int.toNat_natCast]
    exact Nat.mod_eq_of_lt (by omega)
  have hmtime : (1136102400 : UInt32).toNat = 1136102400 := rfl
  have hchksum : ∀ h, (calculateChksum h).toUInt32.toNat = calculateChksum h := by
    intro h
    exact Nat.mod_eq_of_lt ((calculateChksum_lt h).trans (by decide))
  have hreturns : Returns (ustarMakeHeader fileName type size header) (· = (true, putBytes
      (headerFields header (stripAntisocialPrefixes fileName) type size) UstarHeader.chksum
      (octalField 7 (calculateChksum
        (headerFields header (stripAntisocialPrefixes fileName) type size))))) := by
    refine .bind ⟨(), if_pos hassert, rfl⟩ ?_
    rintro _ rfl
    rw [if_neg (Nat.not_lt.mpr hname)]
    refine .bind ⟨_, vsnprintf_07o ?_, rfl⟩ ?_
    · rw [hmode]
      split <;> decide
    rintro _ rfl
    refine .bind ⟨_, vsnprintf_011o _, rfl⟩ ?_
    rintro _ rfl
    refine .bind ⟨_, vsnprintf_011o _, rfl⟩ ?_
    rintro _ rfl
    refine .bind ⟨_, vsnprintf_07o ?_, rfl⟩ ?_
    · rw [hchksum]
      exact calculateChksum_lt _
    rintro _ rfl
    refine ⟨_, rfl, ?_⟩
    dsimp only
    rw [hchksum, hword, hmode, hmtime, strlcpyAt_eq (Nat.lt_succ_of_le hname),
      strlcpyAt_eq (by decide), strlcpyAt_eq (by decide), strlcpyAt_eq (by decide),
      strlcpyAt_eq (by decide), strlcpyAt_eq (by decide)]
    rfl
  obtain ⟨_, heq, rfl⟩ := hreturns
  exact heq

/-! ## Reading it back -/

section

variable {header : Buffer} {name : List UInt8} {type : UstarType} {size : Nat}

/-- The fields that `ustar_parse_header` looks at, in a header with a name that fits. -/
structure Filled (h : Buffer) (name : List UInt8) (type : UstarType) (size : Nat) : Prop where
  name_le : name.length ≤ 99
  name_eq : ∀ i < name.length, h (UstarHeader.name + i) = name.getD i 0
  name_end : ∀ i, name.length ≤ i → i < 100 → h (UstarHeader.name + i) = 0
  size_eq : ∀ i ≤ 11, h (UstarHeader.size + i) =
    putBytes (fun _ ↦ 0) UstarHeader.size (octalField 11 size) (UstarHeader.size + i)
  typeflag_eq : h UstarHeader.typeflag = type.flag
  magic_eq : bytesAt h UstarHeader.magic 6 = ascii "ustar" ++ [0]
  version_eq : bytesAt h UstarHeader.version 2 = ascii "00"
  namePrefix_eq : h UstarHeader.namePrefix = 0

theorem filled_headerFields (hname : name.length ≤ 99) (hsize : size < 2 ^ 31) :
    Filled (headerFields header name type size) name type size := by
  have hmode : (octalField 7 (if type = .regular then 0o644 else 0o755)).length = 8 :=
    length_octalField (by split <;> decide)
  have hsizeLen : (octalField 11 size).length = 12 := length_octalField (by omega)
  have hmtime : (octalField 11 1136102400).length = 12 := length_octalField (by decide)
  have hzeros : (ascii "0000000" ++ [0]).length = 8 := by decide
  have hmagic : (ascii "ustar" ++ [0]).length = 6 := by decide
  have hversion : (ascii "00").length = 2 := by decide
  have hroot : (ascii "root" ++ [0]).length = 5 := by decide
  have hflag : [type.flag].length = 1 := rfl
  have hnameLen : (name ++ [0]).length = name.length + 1 := length_append
  have hfields : headerFields header name type size = putBytes (putBytes (putBytes (putBytes
      (putBytes (putBytes (putBytes (putBytes (putBytes (putBytes (putBytes
        (memset header 0 0 512) 0 (name ++ [0])) 100
        (octalField 7 (if type = .regular then 0o644 else 0o755))) 108 (ascii "0000000" ++ [0]))
        116 (ascii "0000000" ++ [0])) 124 (octalField 11 size)) 136 (octalField 11 1136102400))
        156 [type.flag]) 257 (ascii "ustar" ++ [0])) 263 (ascii "00")) 297 (ascii "root" ++ [0]))
        265 (ascii "root" ++ [0]) := rfl
  rw [hfields]
  constructor
  · exact hname
  · intro i hi
    simp only [UstarHeader.name]
    simp (disch := omega) only [putBytes_of_lt, putBytes_add]
    exact getD_append _ _ _ _ hi
  · intro i hi hlt
    simp only [UstarHeader.name]
    simp (disch := omega) only [putBytes_of_lt]
    by_cases hend : i = name.length
    · subst hend
      rw [putBytes_add (by omega), getD_append_right _ _ _ _ (Nat.le_refl _), Nat.sub_self]
      rfl
    · rw [putBytes_of_le (by omega)]
      exact if_pos (by omega)
  · intro i hi
    simp only [UstarHeader.size]
    simp (disch := omega) only [putBytes_of_lt, putBytes_add]
  · simp only [UstarHeader.typeflag]
    simp (disch := omega) only [putBytes_of_lt]
    rfl
  · refine bytesAt_eq hmagic fun i hi ↦ ?_
    simp only [UstarHeader.magic]
    simp (disch := omega) only [putBytes_of_lt, putBytes_add]
  · refine bytesAt_eq hversion fun i hi ↦ ?_
    simp only [UstarHeader.version]
    simp (disch := omega) only [putBytes_of_lt, putBytes_add]
  · simp only [UstarHeader.namePrefix]
    simp (disch := omega) only [putBytes_of_le]
    rfl

/-- The checksum field is none of them. -/
theorem Filled.congr (hf : Filled h name type size)
    (heq : ∀ i, i < UstarHeader.chksum ∨ UstarHeader.chksum + 8 ≤ i → h' i = h i) :
    Filled h' name type size where
  name_le := hf.name_le
  name_eq i hi := by
    have := hf.name_le
    rw [heq _ (by simp only [UstarHeader.name, UstarHeader.chksum]; omega), hf.name_eq i hi]
  name_end i hi hlt := by
    rw [heq _ (by simp only [UstarHeader.name, UstarHeader.chksum]; omega), hf.name_end i hi hlt]
  size_eq i hi := by
    rw [heq _ (by simp only [UstarHeader.size, UstarHeader.chksum]; omega), hf.size_eq i hi]
  typeflag_eq := (heq _ (by decide)).trans hf.typeflag_eq
  magic_eq := by
    rw [← hf.magic_eq]
    refine map_congr_left fun i _ ↦ heq _ ?_
    simp only [UstarHeader.magic, UstarHeader.chksum]
    omega
  version_eq := by
    rw [← hf.version_eq]
    refine map_congr_left fun i _ ↦ heq _ ?_
    simp only [UstarHeader.version, UstarHeader.chksum]
    omega
  namePrefix_eq := (heq _ (by decide)).trans hf.namePrefix_eq

/-- The name is read back. -/
theorem Filled.takeWhile_name (hf : Filled h name type size) (hnul : 0 ∉ name) :
    (bytesAt h UstarHeader.name 100).takeWhile (· ≠ 0) = name := by
  have hname := hf.name_le
  have hbytes : bytesAt h UstarHeader.name 100 =
      name ++ replicate (100 - name.length) 0 := by
    refine bytesAt_eq (by rw [length_append, length_replicate]; omega) fun i hi ↦ ?_
    by_cases hlt : i < name.length
    · rw [hf.name_eq i hlt, getD_append _ _ _ _ hlt]
    · rw [hf.name_end i (by omega) hi, getD_append_right _ _ _ _ (by omega),
        getD_eq_getElem _ _ (by rw [length_replicate]; omega), getElem_replicate]
  have hrest : 100 - name.length = (99 - name.length) + 1 := by omega
  rw [hbytes, takeWhile_append_of_pos, hrest, replicate_succ, takeWhile_cons_of_neg,
    append_nil]
  · decide
  · intro c hc
    exact decide_eq_true fun h0 ↦ hnul (h0 ▸ hc)

end

/-- A header that is filled in and has its checksum is accepted. -/
theorem Filled.parse_eq {name : List UInt8} (hf : Filled h name type size) (hnul : 0 ∉ name)
    (htype : type = .regular ∨ type = .directory) (hsize : size ≤ 2 ^ 31 - 1)
    (hchksum : parseOctalField h UstarHeader.chksum 8 = some (calculateChksum h)) :
    ustarParseHeader h = .ok ⟨some (stripAntisocialPrefixes name), type,
      if type = .directory then 0 else size⟩ := by
  have hzeros : ¬ isAllZeros h ustarHeaderSize = true := by
    intro hall
    have hmagic : h UstarHeader.magic = 'u'.toUInt8 := head_eq_of_cons_eq hf.magic_eq
    have h0 := all_eq_true.mp hall UstarHeader.magic (mem_range.mpr (by decide))
    rw [hmagic] at h0
    exact absurd h0 (by decide)
  have hend : ¬ (h (UstarHeader.name + 99) ≠ 0 ∨ h UstarHeader.namePrefix ≠ 0) := by
    rw [hf.name_end 99 hf.name_le (by decide), hf.namePrefix_eq]
    decide
  have hsizeField : parseOctalField h UstarHeader.size 12 = some size :=
    parseOctalField_octalField (by omega) (by omega) (by decide) hf.size_eq
  rw [ustarParseHeader, if_neg hzeros, if_neg (not_not.mpr hf.magic_eq),
    if_neg (not_not.mpr hf.version_eq), hchksum]
  dsimp only
  rw [if_neg (not_not.mpr rfl), if_neg hend, hf.takeWhile_name hnul, hf.typeflag_eq]
  rcases htype with rfl | rfl
  · rw [if_pos rfl, hsizeField]
    exact if_neg (Nat.not_lt.mpr hsize)
  · rfl

/-- A header that is made for a name that fits is accepted, and its checksum is its own. -/
theorem exists_header (header : Buffer)
    (hnul : 0 ∉ fileName) (hname : (stripAntisocialPrefixes fileName).length ≤ 99)
    (htype : type = .regular ∨ type = .directory) (hsize : size ≤ 2 ^ 31 - 1) :
    ∃ h, ustarMakeHeader fileName type size header = some (true, h) ∧
      ustarParseHeader h = .ok ⟨some (stripAntisocialPrefixes fileName), type,
        if type = .directory then 0 else size⟩ ∧
      parseOctalField h UstarHeader.chksum 8 = some (calculateChksum h) := by
  generalize hstrip : stripAntisocialPrefixes fileName = name at hname ⊢
  have hidem : stripAntisocialPrefixes name = name := by
    rw [← hstrip]
    exact stripAntisocialPrefixes_idem fileName
  have hnul' : 0 ∉ name := by
    rw [← hstrip]
    exact not_mem_stripAntisocialPrefixes hnul
  have hmake := @ustarMakeHeader_eq fileName type size header
    (by rcases htype with rfl | rfl <;> decide) (by rwa [hstrip]) (by omega)
  rw [hstrip] at hmake
  refine ⟨_, hmake, ?_⟩
  generalize hfields : headerFields header name type size = fields
  have hfilled : Filled fields name type size := by
    rw [← hfields]
    exact filled_headerFields hname (by omega)
  have hlt := calculateChksum_lt fields
  have hlen : (octalField 7 (calculateChksum fields)).length = 8 := length_octalField hlt
  have hout : ∀ i, i < UstarHeader.chksum ∨ UstarHeader.chksum + 8 ≤ i →
      putBytes fields UstarHeader.chksum (octalField 7 (calculateChksum fields)) i = fields i := by
    rintro i (hi | hi)
    · exact putBytes_of_lt hi
    · exact putBytes_of_le (by rwa [hlen])
  have hchksum : parseOctalField
      (putBytes fields UstarHeader.chksum (octalField 7 (calculateChksum fields)))
      UstarHeader.chksum 8 = some (calculateChksum
        (putBytes fields UstarHeader.chksum (octalField 7 (calculateChksum fields)))) := by
    rw [calculateChksum_congr hout]
    exact parseOctalField_octalField hlt (by omega) (by decide) fun _ _ ↦ rfl
  refine ⟨?_, hchksum⟩
  rw [(hfilled.congr hout).parse_eq hnul' htype hsize hchksum, hidem]

/-! ## Headers from anywhere -/

/-- A name that is not empty, has none of the prefixes, and is a literal or a string in the field
for the name of a header. -/
structure HeaderName (header : Buffer) (name : List UInt8) : Prop where
  ne_nil : name ≠ []
  ne_dotdot : name ≠ ascii ".."
  not_antisocial : antisocial name = false
  place : name = ascii "." ∨ ∃ ofs n, ofs + n < 100 ∧
    name = bytesAt header (UstarHeader.name + ofs) n ∧ 0 ∉ name ∧
    header (UstarHeader.name + (ofs + n)) = 0

/-- A string that ends within a field. -/
theorem exists_takeWhile_bytesAt {m : Nat} : ∀ {s : Nat}, h (s + m) = 0 →
    ∃ n ≤ m, (bytesAt h s (m + 1)).takeWhile (· ≠ 0) = bytesAt h s n ∧ h (s + n) = 0 := by
  induction m with
  | zero =>
    intro s hend
    refine ⟨0, Nat.le_refl 0, ?_, hend⟩
    rw [bytesAt_succ, takeWhile_cons_of_neg (by simpa using hend)]
    rfl
  | succ m ih =>
    intro s hend
    rw [bytesAt_succ]
    by_cases h0 : h s = 0
    · refine ⟨0, Nat.zero_le _, ?_, h0⟩
      rw [takeWhile_cons_of_neg (by simpa using h0)]
      rfl
    · obtain ⟨n, hn, htake, hnul⟩ := @ih (s + 1) (by rwa [Nat.add_right_comm])
      refine ⟨n + 1, by omega, ?_, by rwa [Nat.add_right_comm] at hnul⟩
      rw [takeWhile_cons_of_pos (by simpa using h0), htake, bytesAt_succ]

theorem drop_bytesAt (h : Buffer) (s n k : Nat) :
    (bytesAt h s n).drop k = bytesAt h (s + k) (n - k) := by
  refine ext_getElem (by simp [bytesAt]) fun i _ _ ↦ ?_
  simp [bytesAt, Nat.add_assoc]

theorem headerName_strip {header : Buffer} (hend : header (UstarHeader.name + 99) = 0) :
    HeaderName header (stripAntisocialPrefixes
      ((bytesAt header UstarHeader.name 100).takeWhile (· ≠ 0))) := by
  obtain ⟨n, hn, htake, hnul⟩ := exists_takeWhile_bytesAt hend
  have hmem : 0 ∉ bytesAt header UstarHeader.name n := by
    rw [← htake]
    intro h0
    have hne := all_eq_true.mp all_takeWhile 0 h0
    exact absurd rfl (of_decide_eq_true hne)
  rw [htake]
  generalize hraw : bytesAt header UstarHeader.name n = raw at *
  have hsuffix := stripLoop_suffix raw.length raw
  have hsocial := antisocial_stripLoop (Nat.le_refl raw.length)
  have hstrip := not_mem_stripAntisocialPrefixes hmem
  rw [stripAntisocialPrefixes] at hstrip ⊢
  by_cases hdot : stripLoop raw.length raw = [] ∨ stripLoop raw.length raw = ascii ".."
  · rw [if_pos hdot]
    exact ⟨by decide, by decide, by decide, .inl rfl⟩
  · rw [if_neg hdot] at hstrip ⊢
    refine ⟨fun h ↦ hdot (.inl h), fun h ↦ hdot (.inr h), hsocial, .inr ?_⟩
    -- What is left of the string ends where it does.
    have hlen : raw.length = n := by
      rw [← hraw, bytesAt, length_map, length_range]
    have hdrop := suffix_iff_eq_drop.mp hsuffix
    have hle := hsuffix.length_le
    generalize stripLoop raw.length raw = name at *
    refine ⟨raw.length - name.length, n - (raw.length - name.length), by omega, ?_, hstrip, ?_⟩
    · rw [← drop_bytesAt, hraw]
      exact hdrop
    · rw [← hnul]
      exact congrArg header (by omega)

/-- What `ustar_parse_header` has checked when it succeeds. -/
theorem ustarParseHeader_ok {header : Buffer} {entry : UstarEntry}
    (h : ustarParseHeader header = .ok entry) (htype : entry.type ≠ .eof) :
    entry.size ≤ 2 ^ 31 - 1 ∧
      parseOctalField header UstarHeader.chksum 8 = some (calculateChksum header) ∧
      ∃ name, entry.fileName = some name ∧ HeaderName header name := by
  rw [ustarParseHeader] at h
  split at h
  · cases h
    exact absurd rfl htype
  split at h
  · cases h
  split at h
  · cases h
  cases hfield : parseOctalField header UstarHeader.chksum 8 with
  | none => simp only [hfield, reduceCtorEq] at h
  | some chksum =>
    simp only [hfield] at h
    split at h
    · cases h
    next hsum =>
    split at h
    · cases h
    next hlong =>
    have hname := headerName_strip (not_not.mp (not_or.mp hlong).1)
    rw [not_not.mp hsum]
    split at h
    · split at h
      · cases h
      split at h
      · cases h
      next hsize =>
      cases h
      exact ⟨Nat.not_lt.mp hsize, rfl, _, rfl, hname⟩
    split at h
    · cases h
      exact ⟨Nat.zero_le _, rfl, _, rfl, hname⟩
    · cases h

theorem parseOctalLoop_congr {s n : Nat} : ∀ {ofs value : Nat}, (∀ i < s + (ofs + n), h' i = h i) →
      parseOctalLoop h' s n ofs value = parseOctalLoop h s n ofs value := by
  induction n with
  | zero => exact fun _ ↦ rfl
  | succ n ih =>
    intro ofs value heq
    rw [parseOctalLoop, parseOctalLoop, heq _ (by omega), ih fun i hi ↦ heq i (by omega)]

/-- The bytes behind the header do not matter. -/
theorem ustarParseHeader_congr {header header' : Buffer}
    (heq : ∀ i < ustarHeaderSize, header' i = header i) :
    ustarParseHeader header' = ustarParseHeader header := by
  have hbytes : ∀ s n, s + n ≤ 512 → bytesAt header' s n = bytesAt header s n := by
    intro s n hle
    refine map_congr_left fun i hi ↦ heq _ (Nat.lt_of_lt_of_le ?_ hle)
    exact Nat.add_lt_add_left (mem_range.mp hi) s
  have hzeros : isAllZeros header' ustarHeaderSize = isAllZeros header ustarHeaderSize := by
    rw [Bool.eq_iff_iff]
    simp only [isAllZeros, all_eq_true, mem_range]
    exact forall₂_congr fun i hi ↦ by rw [heq i hi]
  have hsum : calculateChksum header' = calculateChksum header := by
    refine congrArg sum (map_congr_left fun i hi ↦ ?_)
    rw [heq i (mem_range.mp hi)]
  have hfield : ∀ s n, s + n ≤ 512 → parseOctalField header' s n = parseOctalField header s n :=
    fun s n hle ↦ parseOctalLoop_congr fun i hi ↦ heq i (by rw [ustarHeaderSize]; omega)
  simp only [ustarParseHeader, hzeros, hsum, hbytes UstarHeader.magic 6 (by decide),
    hbytes UstarHeader.version 2 (by decide), hbytes UstarHeader.name 100 (by decide),
    hfield UstarHeader.chksum 8 (by decide), hfield UstarHeader.size 12 (by decide),
    heq (UstarHeader.name + 99) (by decide), heq UstarHeader.namePrefix (by decide),
    heq UstarHeader.typeflag (by decide)]

/-- **A header from anywhere cannot mislead.**  Only its 512 bytes are read; what is accepted has
its checksum, a size that is an `int` and a name that stays below the directory; and a number is a
run of octal digits that has 32 bits. -/
theorem ustar_parse_header_safe (header : Buffer) :
    (∀ header', (∀ i < ustarHeaderSize, header' i = header i) →
      ustarParseHeader header' = ustarParseHeader header) ∧
    (∀ entry, ustarParseHeader header = .ok entry → entry.type ≠ .eof → entry.size ≤ 2 ^ 31 - 1 ∧
      parseOctalField header UstarHeader.chksum 8 = some (calculateChksum header) ∧
      ∃ name, entry.fileName = some name ∧ HeaderName header name) ∧
    ∀ s size v, parseOctalField header s size = some v ↔ ∃ k, 0 < k ∧ k < size ∧
      OctalRun header s k ∧ octalValue 0 (bytesAt header s k) = v ∧ v < 2 ^ 32 :=
  ⟨fun _ ↦ ustarParseHeader_congr, fun _ ↦ ustarParseHeader_ok,
    fun _ _ _ ↦ parseOctalField_eq_some_iff⟩

/-! ## The round trip -/

/-- **Headers make a round trip.**  A header that is made for a name that fits is read back with the
same type and size, and with the name as it is stripped; the checksum in it is its own. -/
theorem ustar_roundtrip (fileName : List UInt8) (type : UstarType) (size : Nat) (header : Buffer)
    (hnul : 0 ∉ fileName) (hname : (stripAntisocialPrefixes fileName).length ≤ 99)
    (htype : type = .regular ∨ type = .directory) (hsize : size ≤ 2 ^ 31 - 1) :
    ∃ h, ustarMakeHeader fileName type size header = some (true, h) ∧
      ustarParseHeader h = .ok ⟨some (stripAntisocialPrefixes fileName), type,
        if type = .directory then 0 else size⟩ ∧
      stripAntisocialPrefixes (stripAntisocialPrefixes fileName) =
        stripAntisocialPrefixes fileName ∧
      parseOctalField h UstarHeader.chksum 8 = some (calculateChksum h) := by
  obtain ⟨h, hmake, hparse, hchksum⟩ := exists_header header hnul hname htype hsize
  exact ⟨h, hmake, hparse, stripAntisocialPrefixes_idem fileName, hchksum⟩

/-- A name that is stripped. -/
theorem ustar_roundtrip_passwd :
    ∃ h, ustarMakeHeader (ascii "../etc/passwd") .regular 1000 (fun _ ↦ 0xcc) = some (true, h) ∧
      ustarParseHeader h = .ok ⟨some (ascii "etc/passwd"), .regular, 1000⟩ := by
  obtain ⟨h, hmake, hparse, -⟩ := ustar_roundtrip (ascii "../etc/passwd") .regular 1000
    (fun _ ↦ 0xcc) (by decide) (by decide) (.inl rfl) (by decide)
  exact ⟨h, hmake, hparse⟩

end Pintos
