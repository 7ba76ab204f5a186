import Pintos.Filesys.State

/-!
# Formatted output

`lib/stdio.c`.  `__vprintf` hands one character after the other to its callback, so that it is a
function here that returns what it has written; `vsnprintf` stores this in memory, as far as there
is room.

A format is the list of its characters, without the null byte.  The functions read it by position,
and there is no result once they read behind the null byte.  An argument is a word, a double word or
a string, and taking one for another has no result either.

* `formatInteger` — the digits of a number in a base, with everything that the flags ask for around
  them.  Without the `'` flag they are the digits of the number (`digitsLoop_eq`).
* `vsnprintf_truncates` — what `vsnprintf` writes is the beginning of the output, and a null byte.
-/

set_option autoImplicit false

namespace Pintos

open Function List

/-- The characters of a string literal. -/
def ascii (s : String) : List UInt8 := s.toList.map Char.toUInt8

/-! ## Conversions -/

/-- The `flags` of a `struct printf_conversion`. -/
structure PrintfFlags where
  minus : Bool
  plus : Bool
  space : Bool
  pound : Bool
  zero : Bool
  group : Bool
  deriving DecidableEq, Repr

/-- The `type` of a `struct printf_conversion`. -/
inductive PrintfType where
  | char
  | short
  | int
  | intmax
  | long
  | longlong
  | ptrdifft
  | sizet
  deriving DecidableEq, Repr

/-- `struct printf_conversion`. -/
structure PrintfConversion where
  flags : PrintfFlags
  width : Int
  precision : Int
  type : PrintfType
  deriving DecidableEq, Repr

/-- `struct integer_base`. -/
structure IntegerBase where
  base : Nat
  digits : List UInt8
  /-- The `x` character, `0` if there is none. -/
  x : UInt8
  group : Nat

/-- `base_d`. -/
def baseD : IntegerBase := ⟨10, ascii "0123456789", 0, 3⟩

/-- `base_o`. -/
def baseO : IntegerBase := ⟨8, ascii "01234567", 0, 3⟩

/-- `base_x`. -/
def baseLowerX : IntegerBase := ⟨16, ascii "0123456789abcdef", 'x'.toUInt8, 4⟩

/-- `base_X`. -/
def baseUpperX : IntegerBase := ⟨16, ascii "0123456789ABCDEF", 'X'.toUInt8, 4⟩

/-- The loop of `format_integer` that stores the digits in `buf`, the last one first. -/
def digitsLoop (b : IntegerBase) (group : Bool) : Nat → Nat → Nat → List UInt8
  | 0, _, _ => []
  | fuel + 1, value, digitCnt =>
    if value > 0 then
      let rest := digitsLoop b group fuel (value / b.base) (digitCnt + 1)
      let digit := b.digits.getD (value % b.base) 0
      if group ∧ digitCnt > 0 ∧ digitCnt % b.group = 0 then ','.toUInt8 :: digit :: rest
      else digit :: rest
    else []

/-- `format_integer`.  The loop ends within 64 rounds, since `value` is a `uintmax_t`. -/
def formatInteger (value : Nat) (isSigned negative : Bool) (b : IntegerBase)
    (c : PrintfConversion) : List UInt8 :=
  let sign : UInt8 :=
    if isSigned then
      if c.flags.plus then if negative then '-'.toUInt8 else '+'.toUInt8
      else if c.flags.space then if negative then '-'.toUInt8 else ' '.toUInt8
      else if negative then '-'.toUInt8
      else 0
    else 0
  let x := if c.flags.pound ∧ value ≠ 0 then b.x else 0
  let buf := digitsLoop b c.flags.group 64 value 0
  let precision := if c.precision < 0 then 1 else c.precision.toNat
  -- Zeros are appended while there are too few characters and `buf` has room for two more.
  let buf := buf ++ List.replicate (min precision 63 - buf.length) '0'.toUInt8
  let buf :=
    if c.flags.pound ∧ b.base = 8 ∧ buf.getLast? ≠ some '0'.toUInt8 then buf ++ ['0'.toUInt8]
    else buf
  let padCnt := c.width - buf.length - (if x ≠ 0 then 2 else 0) - (if sign ≠ 0 then 1 else 0)
  (if ¬ c.flags.minus ∧ ¬ c.flags.zero then List.replicate padCnt.toNat ' '.toUInt8 else []) ++
    (if sign ≠ 0 then [sign] else []) ++
    (if x ≠ 0 then ['0'.toUInt8, x] else []) ++
    (if c.flags.zero then List.replicate padCnt.toNat '0'.toUInt8 else []) ++
    buf.reverse ++
    (if c.flags.minus then List.replicate padCnt.toNat ' '.toUInt8 else [])

/-- `format_string`. -/
def formatString (string : List UInt8) (c : PrintfConversion) : List UInt8 :=
  let padCnt := (c.width - string.length).toNat
  (if ¬ c.flags.minus then List.replicate padCnt ' '.toUInt8 else []) ++ string ++
    (if c.flags.minus then List.replicate padCnt ' '.toUInt8 else [])

/-! ## Arguments -/

/-- An argument of `printf`. -/
inductive PrintfArg where
  | word (v : UInt32)
  | dword (v : UInt64)
  | string (s : Option (List UInt8))
  deriving DecidableEq, Repr

/-- `va_arg` of a type of 32 bits. -/
def vaWord : List PrintfArg → Kernel (Nat × List PrintfArg)
  | .word v :: args => some (v.toNat, args)
  | _ => none

/-- `va_arg` of a type of 64 bits. -/
def vaDword : List PrintfArg → Kernel (Nat × List PrintfArg)
  | .dword v :: args => some (v.toNat, args)
  | _ => none

/-- `va_arg` of a string. -/
def vaString : List PrintfArg → Kernel (Option (List UInt8) × List PrintfArg)
  | .string s :: args => some (s, args)
  | _ => none

/-- The number of bits of a type, and whether it is passed as a double word. -/
def PrintfType.bits : PrintfType → Nat × Bool
  | .char => (8, false)
  | .short => (16, false)
  | .int | .long | .ptrdifft | .sizet => (32, false)
  | .intmax | .longlong => (64, true)

/-- The argument of an integer conversion, as an unsigned number. -/
def unsignedArg (type : PrintfType) (args : List PrintfArg) : Kernel (Nat × List PrintfArg) := do
  let (value, args) ← if type.bits.2 then vaDword args else vaWord args
  return (value % 2 ^ type.bits.1, args)

/-- The argument of an integer conversion, as a signed number. -/
def signedArg (type : PrintfType) (args : List PrintfArg) : Kernel (Int × List PrintfArg) := do
  let (value, args) ← if type.bits.2 then vaDword args else vaWord args
  return ((value : Int).bmod (2 ^ type.bits.1), args)

/-! ## Formats -/

/-- The character of a format at a position. -/
def formatAt (format : List UInt8) (pos : Nat) : Kernel UInt8 := (format ++ [0])[pos]?

/-- `isdigit`. -/
def isdigit (c : UInt8) : Bool := '0'.toUInt8 ≤ c && c ≤ '9'.toUInt8

/-- The flag a character stands for. -/
def PrintfFlags.set (flags : PrintfFlags) (c : UInt8) : Option PrintfFlags :=
  if c = '-'.toUInt8 then some { flags with minus := true }
  else if c = '+'.toUInt8 then some { flags with plus := true }
  else if c = ' '.toUInt8 then some { flags with space := true }
  else if c = '#'.toUInt8 then some { flags with pound := true }
  else if c = '0'.toUInt8 then some { flags with zero := true }
  else if c = 39 then some { flags with group := true }
  else none

/-- The loop of `parse_conversion` over the flag characters. -/
def parseFlags (format : List UInt8) : Nat → Nat → PrintfFlags → Kernel (Nat × PrintfFlags)
  | 0, _, _ => none
  | fuel + 1, pos, flags => do
    match flags.set (← formatAt format pos) with
    | some flags => parseFlags format fuel (pos + 1) flags
    | none => return (pos, flags)

/-- A loop of `parse_conversion` over digits; the number is an `int`. -/
def parseDigits (format : List UInt8) : Nat → Nat → Int → Kernel (Nat × Int)
  | 0, _, _ => none
  | fuel + 1, pos, n => do
    let c ← formatAt format pos
    if isdigit c then
      parseDigits format fuel (pos + 1) ((n * 10 + c.toNat - '0'.toUInt8.toNat).bmod (2 ^ 32))
    else return (pos, n)

/-- A `*` or the digits of a number. -/
def parseNumber (format : List UInt8) (pos : Nat) (args : List PrintfArg) :
    Kernel (Nat × Int × List PrintfArg) := do
  if (← formatAt format pos) = '*'.toUInt8 then
    let (n, args) ← vaWord args
    return (pos + 1, toInt32 n, args)
  else
    let (pos, n) ← parseDigits format (format.length + 1) pos 0
    return (pos, n, args)

/-- The precision of a conversion. -/
def parsePrecision (format : List UInt8) (pos : Nat) (args : List PrintfArg) :
    Kernel (Nat × Int × List PrintfArg) := do
  if (← formatAt format pos) = '.'.toUInt8 then
    let (pos, precision, args) ← parseNumber format (pos + 1) args
    return (pos, if precision < 0 then -1 else precision, args)
  else return (pos, -1, args)

/-- The type of a conversion. -/
def parseType (format : List UInt8) (pos : Nat) : Kernel (Nat × PrintfType) := do
  let c ← formatAt format pos
  if c = 'h'.toUInt8 then
    if (← formatAt format (pos + 1)) = 'h'.toUInt8 then return (pos + 2, .char)
    else return (pos + 1, .short)
  else if c = 'j'.toUInt8 then return (pos + 1, .intmax)
  else if c = 'l'.toUInt8 then
    if (← formatAt format (pos + 1)) = 'l'.toUInt8 then return (pos + 2, .longlong)
    else return (pos + 1, .long)
  else if c = 't'.toUInt8 then return (pos + 1, .ptrdifft)
  else if c = 'z'.toUInt8 then return (pos + 1, .sizet)
  else return (pos, .int)

/-- `parse_conversion`: where the character that names the conversion is, and the rest of it. -/
def parseConversion (format : List UInt8) (pos : Nat) (args : List PrintfArg) :
    Kernel (Nat × PrintfConversion × List PrintfArg) := do
  let (pos, flags) ←
    parseFlags format (format.length + 1) pos ⟨false, false, false, false, false, false⟩
  let flags := if flags.minus then { flags with zero := false } else flags
  let flags := if flags.plus then { flags with space := false } else flags
  let (pos, width, args) ← parseNumber format pos args
  -- A negative width sets `MINUS` after `ZERO` has been looked at.
  let flags := if width < 0 then { flags with minus := true } else flags
  let width := if width < 0 then (-width).bmod (2 ^ 32) else width
  let (pos, precision, args) ← parsePrecision format pos args
  let flags := if precision ≥ 0 then { flags with zero := false } else flags
  let (pos, type) ← parseType format pos
  return (pos, ⟨flags, width, precision, type⟩, args)

/-- The `switch` of `__vprintf` over the conversions: what is written, and the arguments left. -/
def convert (ch : UInt8) (c : PrintfConversion) (args : List PrintfArg) :
    Kernel (List UInt8 × List PrintfArg) := do
  if ch = 'd'.toUInt8 ∨ ch = 'i'.toUInt8 then
    let (value, args) ← signedArg c.type args
    return (formatInteger value.natAbs true (value < 0) baseD c, args)
  else if ch = 'o'.toUInt8 then
    let (value, args) ← unsignedArg c.type args
    return (formatInteger value false false baseO c, args)
  else if ch = 'u'.toUInt8 then
    let (value, args) ← unsignedArg c.type args
    return (formatInteger value false false baseD c, args)
  else if ch = 'x'.toUInt8 then
    let (value, args) ← unsignedArg c.type args
    return (formatInteger value false false baseLowerX c, args)
  else if ch = 'X'.toUInt8 then
    let (value, args) ← unsignedArg c.type args
    return (formatInteger value false false baseUpperX c, args)
  else if ch = 'c'.toUInt8 then
    let (value, args) ← vaWord args
    return (formatString [value.toUInt8] c, args)
  else if ch = 's'.toUInt8 then
    let (s, args) ← vaString args
    let s := s.getD (ascii "(null)")
    -- A precision of `-1` is `SIZE_MAX` for `strnlen`.
    return (formatString (if c.precision < 0 then s else s.take c.precision.toNat) c, args)
  else if ch = 'p'.toUInt8 then
    let (value, args) ← vaWord args
    let c := { c with flags := ⟨false, false, false, true, false, false⟩ }
    return (formatInteger value false false baseLowerX c, args)
  else if ch ∈ ascii "feEgGn" then
    return (ascii "<<no %" ++ ch :: ascii " in kernel>>", args)
  else
    return (ascii "<<no %" ++ ch :: ascii " conversion>>", args)

/-- The loop of `__vprintf`. -/
def vprintfLoop (format : List UInt8) : Nat → Nat → List PrintfArg → Kernel (List UInt8)
  | 0, _, _ => none
  | fuel + 1, pos, args => do
    let ch ← formatAt format pos
    if ch = 0 then return []
    else if ch ≠ '%'.toUInt8 then
      return ch :: (← vprintfLoop format fuel (pos + 1) args)
    else if (← formatAt format (pos + 1)) = '%'.toUInt8 then
      return '%'.toUInt8 :: (← vprintfLoop format fuel (pos + 2) args)
    else
      let (pos, c, args) ← parseConversion format (pos + 1) args
      let (out, args) ← convert (← formatAt format pos) c args
      return out ++ (← vprintfLoop format fuel (pos + 1) args)

/-- `__vprintf`: what it writes. -/
def vprintf (format : List UInt8) (args : List PrintfArg) : Kernel (List UInt8) :=
  vprintfLoop format (format.length + 1) 0 args

/-! ## `vsnprintf` -/

/-- `struct vsnprintf_aux` without `max_length`, and the memory. -/
structure VsnprintfAux where
  mem : Buffer
  p : Nat
  length : Nat

/-- `vsnprintf_helper`.  The lengths are `int`s. -/
def vsnprintfHelper (maxLength : Nat) (aux : VsnprintfAux) (ch : UInt8) : VsnprintfAux :=
  if toInt32 aux.length < toInt32 maxLength then
    { mem := Function.update aux.mem aux.p ch, p := aux.p + 1,
      length := (aux.length + 1) % 2 ^ 32 }
  else { aux with length := (aux.length + 1) % 2 ^ 32 }

/-- `vsnprintf`: its value and the memory. -/
def vsnprintf (mem : Buffer) (buffer bufSize : Nat) (format : List UInt8)
    (args : List PrintfArg) : Kernel (Int × Buffer) := do
  let out ← vprintf format args
  let aux := out.foldl (vsnprintfHelper (if bufSize > 0 then bufSize - 1 else 0)) ⟨mem, buffer, 0⟩
  return (toInt32 aux.length, if bufSize > 0 then Function.update aux.mem aux.p 0 else aux.mem)

/-- Store bytes at an address. -/
def putBytes (mem : Buffer) (dst : Nat) (bytes : List UInt8) : Buffer := fun a ↦
  if dst ≤ a ∧ a < dst + bytes.length then bytes.getD (a - dst) 0 else mem a

variable {mem : Buffer} {bytes : List UInt8}

theorem putBytes_of_lt {dst a : Nat} (h : a < dst) :
    putBytes mem dst bytes a = mem a := if_neg (by omega)

theorem putBytes_of_le {dst a : Nat}
    (h : dst + bytes.length ≤ a) : putBytes mem dst bytes a = mem a := if_neg (by omega)

theorem putBytes_add {dst i : Nat} (h : i < bytes.length) :
    putBytes mem dst bytes (dst + i) = bytes.getD i 0 := by
  rw [putBytes, if_pos (by omega), Nat.add_sub_cancel_left]

theorem putBytes_nil (mem : Buffer) (dst : Nat) : putBytes mem dst [] = mem := by
  funext a
  exact if_neg (by simp only [length_nil]; omega)

theorem putBytes_cons (mem : Buffer) (dst : Nat) (b : UInt8) (bytes : List UInt8) :
    putBytes (update mem dst b) (dst + 1) bytes = putBytes mem dst (b :: bytes) := by
  funext a
  simp only [putBytes, length_cons]
  rcases Nat.lt_trichotomy a dst with h | rfl | h
  · rw [if_neg (by omega), if_neg (by omega), update_of_ne (by omega)]
  · rw [if_neg (by omega), if_pos (by omega), update_self, Nat.sub_self]
    rfl
  · rw [update_of_ne (by omega)]
    have hsub : a - dst = a - (dst + 1) + 1 := by omega
    rw [hsub, getD_cons_succ]
    exact if_congr (by omega) rfl rfl

theorem vsnprintfHelper_eq {maxLength : Nat} {aux : VsnprintfAux} (hmax : maxLength < 2 ^ 31)
    (hlen : aux.length + 1 < 2 ^ 31) (ch : UInt8) : vsnprintfHelper maxLength aux ch =
      if aux.length < maxLength then ⟨update aux.mem aux.p ch, aux.p + 1, aux.length + 1⟩
      else { aux with length := aux.length + 1 } := by
  rw [vsnprintfHelper, toInt32_of_lt (by omega), toInt32_of_lt hmax,
    Nat.mod_eq_of_lt (by omega : aux.length + 1 < 2 ^ 32)]
  simp only [Int.ofNat_lt]

/-- The helper stores what fits. -/
theorem foldl_vsnprintfHelper {maxLength : Nat} (hmax : maxLength < 2 ^ 31) (out : List UInt8) :
    ∀ aux : VsnprintfAux, aux.length + out.length < 2 ^ 31 →
      update (out.foldl (vsnprintfHelper maxLength) aux).mem
          (out.foldl (vsnprintfHelper maxLength) aux).p 0 =
        putBytes aux.mem aux.p (out.take (maxLength - aux.length) ++ [0]) ∧
      (out.foldl (vsnprintfHelper maxLength) aux).length = aux.length + out.length := by
  induction out with
  | nil =>
    intro aux _
    refine ⟨?_, rfl⟩
    rw [take_nil, nil_append, ← putBytes_cons, putBytes_nil]
    rfl
  | cons ch out ih =>
    intro aux hlen
    rw [length_cons] at hlen
    rw [foldl_cons, vsnprintfHelper_eq hmax (by omega), length_cons]
    split
    · obtain ⟨hmem, hlength⟩ :=
        ih ⟨update aux.mem aux.p ch, aux.p + 1, aux.length + 1⟩ (by dsimp only; omega)
      have hsub : maxLength - aux.length = maxLength - (aux.length + 1) + 1 := by omega
      rw [hmem, hlength, hsub, take_succ_cons, cons_append, putBytes_cons]
      exact ⟨rfl, by dsimp only; omega⟩
    · obtain ⟨hmem, hlength⟩ := ih { aux with length := aux.length + 1 } (by dsimp only; omega)
      have hsub : maxLength - aux.length = 0 ∧ maxLength - (aux.length + 1) = 0 := by omega
      rw [hmem, hlength, hsub.1, hsub.2, take_zero, take_zero]
      exact ⟨rfl, by dsimp only; omega⟩

/-- Without room nothing is stored. -/
theorem foldl_vsnprintfHelper_zero (out : List UInt8) : ∀ aux : VsnprintfAux,
    aux.length + out.length < 2 ^ 31 → (out.foldl (vsnprintfHelper 0) aux).mem = aux.mem := by
  induction out with
  | nil => exact fun _ _ ↦ rfl
  | cons ch out ih =>
    intro aux hlen
    rw [length_cons] at hlen
    rw [foldl_cons, vsnprintfHelper_eq (by decide) (by omega), if_neg (Nat.not_lt_zero _)]
    exact ih { aux with length := aux.length + 1 } (by dsimp only; omega)

section

variable {buffer bufSize : Nat} {format out : List UInt8} {args : List PrintfArg}
  (hout : vprintf format args = some out) (hlen : out.length < 2 ^ 31)

include hout hlen

/-- `vsnprintf` returns the length of the output, and writes as much of it as there is room for and
a null byte. -/
theorem vsnprintf_eq (hpos : 0 < bufSize) (hsize : bufSize ≤ 2 ^ 31) :
    vsnprintf mem buffer bufSize format args =
      some ((out.length : Int), putBytes mem buffer (out.take (bufSize - 1) ++ [0])) := by
  have hmax : bufSize - 1 < 2 ^ 31 := by omega
  obtain ⟨hmem, hlength⟩ := foldl_vsnprintfHelper hmax out ⟨mem, buffer, 0⟩ (by dsimp only; omega)
  rw [vsnprintf, hout]
  simp only [some_bind, gt_iff_lt, if_pos hpos, hmem, hlength, Nat.sub_zero, Nat.zero_add,
    toInt32_of_lt hlen]
  rfl

/-- **`vsnprintf` truncates the output.**  It returns the length of all of it. -/
theorem vsnprintf_truncates (hsize : bufSize ≤ 2 ^ 31) :
    ∃ mem', vsnprintf mem buffer bufSize format args = some ((out.length : Int), mem') ∧
      mem' = (if bufSize = 0 then mem
        else putBytes mem buffer (out.take (min out.length (bufSize - 1)) ++ [0])) ∧
      ∀ a, a < buffer ∨ buffer + bufSize ≤ a → mem' a = mem a := by
  rcases Nat.eq_zero_or_pos bufSize with rfl | hpos
  · have hnone := foldl_vsnprintfHelper_zero out ⟨mem, buffer, 0⟩ (by dsimp only; omega)
    obtain ⟨-, hlength⟩ :=
      foldl_vsnprintfHelper (by decide : 0 < 2 ^ 31) out ⟨mem, buffer, 0⟩ (by dsimp only; omega)
    simp only [vsnprintf, hout, some_bind, Nat.lt_irrefl, gt_iff_lt, if_false, hlength,
      Nat.zero_add, toInt32_of_lt hlen, hnone]
    exact ⟨mem, rfl, rfl, fun _ _ ↦ rfl⟩
  · have htake : out.take (bufSize - 1) = out.take (min out.length (bufSize - 1)) := by
      rw [take_eq_take_iff]
      omega
    refine ⟨_, vsnprintf_eq hout hlen hpos hsize, ?_, fun a ha ↦ if_neg ?_⟩
    · rw [if_neg hpos.ne', htake]
    · rw [length_append, length_take, length_singleton]
      omega

end

theorem vsnprintf_truncates_three :
    ∃ mem', vsnprintf (fun _ ↦ 1) 16 3 (ascii "hello") [] = some (5, mem') ∧
      mem' = putBytes (fun _ ↦ 1) 16 (ascii "he" ++ [0]) ∧ ∀ a, a < 16 ∨ 19 ≤ a → mem' a = 1 :=
  @vsnprintf_truncates _ 16 3 (ascii "hello") (ascii "hello") [] rfl (by decide) (by decide)

/-! ## Digits -/

/-- The loop stores the digits of the number. -/
theorem digitsLoop_eq {b : IntegerBase} (hb : 1 < b.base) {fuel : Nat} :
    ∀ {value : Nat} (digitCnt : Nat), value < b.base ^ fuel →
      digitsLoop b false fuel value digitCnt =
        (b.base.digits value).map fun d ↦ b.digits.getD d 0 := by
  induction fuel with
  | zero =>
    intro value _ h
    obtain rfl : value = 0 := by simpa using h
    rw [Nat.digits_zero]
    rfl
  | succ fuel ih =>
    intro value digitCnt h
    rw [digitsLoop]
    by_cases hpos : value > 0
    · have hlt : value / b.base < b.base ^ fuel := by
        rw [Nat.div_lt_iff_lt_mul (by omega), ← Nat.pow_succ]
        exact h
      rw [if_pos hpos, Nat.digits_def' hb hpos, map_cons]
      simp only [Bool.false_eq_true, false_and, if_false, ih _ hlt]
    · obtain rfl : value = 0 := by omega
      rw [if_neg hpos, Nat.digits_zero]
      rfl

/-- The conversion of `%0no`. -/
def octalConversion (width : Nat) : PrintfConversion :=
  { flags := ⟨false, false, false, false, true, false⟩, width, precision := -1, type := .int }

/-- The digits of a number in base 8, at least `width` of them, from the left. -/
def octalDigits (width value : Nat) : List Nat :=
  (Nat.digits 8 value ++ List.replicate (width - (Nat.digits 8 value).length) 0).reverse

theorem octalDigits_lt {width value d : Nat} (h : d ∈ octalDigits width value) : d < 8 := by
  rw [octalDigits, mem_reverse, mem_append, mem_replicate] at h
  rcases h with h | ⟨-, rfl⟩
  · exact Nat.digits_lt_base (by decide) h
  · decide

theorem length_octalDigits {width value : Nat} (h : value < 8 ^ width) :
    (octalDigits width value).length = width := by
  have hle : (Nat.digits 8 value).length ≤ width :=
    (Nat.digits_length_le_iff (by decide) value).mpr h
  rw [octalDigits, length_reverse, length_append, length_replicate]
  omega

/-- Read from the left, the digits are the number. -/
theorem foldl_octalDigits (width value : Nat) :
    (octalDigits width value).foldl (fun v d ↦ d + v * 8) 0 = value := by
  rw [octalDigits, foldl_reverse]
  have hfold : ∀ l : List Nat, l.foldr (fun d v ↦ d + v * 8) 0 = Nat.ofDigits 8 l := by
    intro l
    rw [Nat.ofDigits_eq_foldr]
    simp only [Nat.cast_id, Nat.mul_comm]
  rw [hfold, Nat.ofDigits_append_replicate_zero, Nat.ofDigits_digits]

/-- **`%0no`** writes the digits in base 8, at least `n` of them. -/
theorem formatInteger_octal {width value : Nat} (hvalue : value < 2 ^ 64) (hwidth : 0 < width) :
    formatInteger value false false baseO (octalConversion width) =
      (octalDigits width value).map fun d ↦ baseO.digits.getD d 0 := by
  have hbuf : digitsLoop baseO false 64 value 0 =
      (Nat.digits 8 value).map fun d ↦ baseO.digits.getD d 0 :=
    digitsLoop_eq (by decide) 0 (hvalue.trans (by decide))
  have hprec : (octalConversion width).precision < 0 :=
    (by decide : (-1 : Int) < 0)
  have hzero : '0'.toUInt8 = baseO.digits.getD 0 0 := rfl
  simp only [formatInteger, if_pos hprec]
  simp only [octalConversion, hbuf, hzero, Bool.false_eq_true, false_and,
    if_false, if_true, ne_eq, not_true_eq_false, not_false_eq_true, and_false, nil_append,
    append_nil, length_append, length_map, length_replicate,
    reverse_append, reverse_replicate, octalDigits, map_append, map_reverse,
    map_replicate]
  -- The digit that stands for zero itself is one of the leading zeros.
  rw [← append_assoc, replicate_append_replicate]
  congr 2
  omega

/-- The `%o` conversion of an `unsigned`. -/
theorem convert_octal (v : UInt32) (width : Nat) :
    convert 'o'.toUInt8 (octalConversion width) [.word v] =
      some (formatInteger v.toNat false false baseO (octalConversion width), []) := by
  have harg : unsignedArg (octalConversion width).type [.word v] = some (v.toNat, []) := by
    have hmod : v.toNat % 2 ^ 32 = v.toNat := Nat.mod_eq_of_lt v.toNat_lt
    simp only [unsignedArg, octalConversion, PrintfType.bits, vaWord, Bool.false_eq_true, if_false,
      some_bind, hmod, Option.pure_def]
  rw [convert, if_neg (by decide), if_pos rfl, harg]
  rfl

/-- The output of a format that is one conversion. -/
theorem vprintf_conversion {c : UInt8} {format : List UInt8} {args args1 args2 : List PrintfArg}
    {pos : Nat} {conv : PrintfConversion} {ch : UInt8} {out : List UInt8} (hc : c ≠ '%'.toUInt8)
    (hparse : parseConversion ('%'.toUInt8 :: c :: format) 1 args = some (pos, conv, args1))
    (hch : formatAt ('%'.toUInt8 :: c :: format) pos = some ch)
    (hconvert : convert ch conv args1 = some (out, args2))
    (hend : formatAt ('%'.toUInt8 :: c :: format) (pos + 1) = some 0) :
    vprintf ('%'.toUInt8 :: c :: format) args = some out := by
  have h0 : formatAt ('%'.toUInt8 :: c :: format) 0 = some '%'.toUInt8 := rfl
  have h1 : formatAt ('%'.toUInt8 :: c :: format) 1 = some c := rfl
  have hrest : ∀ fuel, vprintfLoop ('%'.toUInt8 :: c :: format) (fuel + 1) (pos + 1) args2 =
      some [] := by
    intro fuel
    rw [vprintfLoop, hend]
    rfl
  rw [vprintf, length_cons, length_cons, vprintfLoop, h0, h1]
  simp only [some_bind, if_neg hc, hparse, hch, hconvert, hrest, Option.pure_def, append_nil]
  rfl

/-- The output of `%07o`. -/
theorem vprintf_07o (v : UInt32) : vprintf (ascii "%07o") [.word v] =
    some ((octalDigits 7 v.toNat).map fun d ↦ baseO.digits.getD d 0) := by
  rw [← formatInteger_octal (v.toNat_lt.trans (by decide)) (by decide)]
  exact vprintf_conversion (by decide) rfl rfl (convert_octal v 7) rfl

/-- The output of `%011o`. -/
theorem vprintf_011o (v : UInt32) : vprintf (ascii "%011o") [.word v] =
    some ((octalDigits 11 v.toNat).map fun d ↦ baseO.digits.getD d 0) := by
  rw [← formatInteger_octal (v.toNat_lt.trans (by decide)) (by decide)]
  exact vprintf_conversion (by decide) rfl rfl (convert_octal v 11) rfl

end Pintos
