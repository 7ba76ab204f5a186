import Pintos.Filesys.State
import Pintos.Lib.Strtok
import Pintos.Vm.Page

/-!
# The arguments of a program

`load` of `userprog/process.c` splits the command line into words (`parse_filename`), and puts them
on the stack of the new process (`construct_ESP`), from where `_start` takes them.

The stack is the one page that `setup_stack` has mapped below `PHYS_BASE`, so a store outside it has
no result.  Neither has a store through a null pointer, which is what follows if `malloc` fails in
`parse_filename`, nor one past the end of `argu_list` or `addr`.

* `parseLoop_eq`, `parseFilename_spec` — the words of the command line, the first of which becomes
  the name of the program, if there is room for them.
* `UserStack.push_returns` — what all of `construct_ESP` is made of: bytes are put below `*esp`, and
  nothing else changes.
* `arguments_reach_main_iff` — both together, which need memory for `parse_filename`.
-/

set_option autoImplicit false

namespace Pintos

open List Option

/-- `MAX_ARGS`. -/
abbrev maxArgs : Nat := 128

/-! ## `parse_filename` -/

/-- The string at an offset, as `strlen` and `strlcpy` find it. -/
def stringAt (buf : List UInt8) (s : Nat) : Kernel (List UInt8) :=
  if (buf.drop s).contains 0 then some ((buf.drop s).takeWhile (· ≠ 0)) else none

/-- `strlcpy`. -/
def strlcpy (dst src : List UInt8) (size : Nat) : Kernel (List UInt8) :=
  if 0 < size then do
    let dstLen := min (size - 1) src.length
    assert (dstLen < dst.length)
    return src.take dstLen ++ 0 :: dst.drop (dstLen + 1)
  else some dst

/-- `malloc`, whose result is not looked at before something is stored there.  The list says
whether the next calls succeed; where it ends, they do. -/
def mallocUnchecked : List Bool → Kernel (List Bool)
  | [] => some []
  | ok :: oracle => if ok then some oracle else none

/-- What `parse_filename` has done so far. -/
structure Parse where
  /-- `argu_list`; `cnt` is its length. -/
  arguList : List (List UInt8)
  /-- The block of `file_name`. -/
  fileName : List UInt8
  oracle : List Bool

/-- The first word becomes the file name. -/
def Parse.setName (st : Parse) (token : List UInt8) : Kernel (List UInt8) :=
  if st.arguList.length = 0 then strlcpy st.fileName token (token.length + 1)
  else some st.fileName

/-- The loop of `parse_filename`, for at most `fuel` calls of `strtok_r`. -/
def parseLoop : Nat → List UInt8 → Option Nat → Nat → Parse → Kernel Parse
  | 0, _, _, _, _ => none
  | fuel + 1, s, start, savePtr, st => do
    let (token, savePtr, s) ← strtokR s start [32] savePtr
    match token with
    | none => return st
    | some token =>
      let word ← stringAt s token
      let fileName ← st.setName word
      let oracle ← mallocUnchecked st.oracle
      assert (st.arguList.length < maxArgs)
      let argu ← strlcpy (List.replicate (word.length + 1) 0) word (word.length + 1)
      let argu ← stringAt argu 0
      parseLoop fuel s none savePtr ⟨st.arguList ++ [argu], fileName, oracle⟩

/-- `parse_filename`. -/
def parseFilename (fileName : List UInt8) (oracle : List Bool) : Kernel Parse := do
  let name ← stringAt fileName 0
  let lenFileName := name.length + 1
  let oracle ← mallocUnchecked oracle
  let s ← strlcpy (List.replicate lenFileName 0) name lenFileName
  parseLoop (lenFileName + 1) s (some 0) 0 ⟨[], fileName, oracle⟩

theorem stringAt_eq_some {buf string : List UInt8} {s : Nat} (h : StringAt buf s string) :
    stringAt buf s = some string := by
  have hword := h.takeWhile
  obtain ⟨-, tail, hdrop⟩ := h
  rw [stringAt, hword, if_pos (by simp [hdrop])]

/-- A string is copied to a block that has room for it. -/
theorem strlcpy_eq {dst src : List UInt8} (h : src.length < dst.length) :
    strlcpy dst src (src.length + 1) = some (src ++ 0 :: dst.drop (src.length + 1)) := by
  have hmin : min (src.length + 1 - 1) src.length = src.length := by omega
  rw [strlcpy, if_pos (Nat.succ_pos _)]
  simp only [hmin, assert, if_pos h, some_bind, take_length]
  rfl

theorem stringAt_copy {src : List UInt8} (hno : 0 ∉ src) (tail : List UInt8) :
    StringAt (src ++ 0 :: tail) 0 src :=
  ⟨hno, tail, drop_zero⟩

/-- The next `n` calls of `malloc` succeed. -/
def Succeeds (oracle : List Bool) (n : Nat) : Prop := (oracle.take n).all id = true

theorem succeeds_nil (n : Nat) : Succeeds [] n := by simp [Succeeds]

theorem mallocUnchecked_eq (oracle : List Bool) :
    mallocUnchecked oracle = if oracle.head? = some false then none else some oracle.tail := by
  cases oracle with
  | nil => rfl
  | cons ok oracle => cases ok <;> rfl

theorem succeeds_succ {oracle : List Bool} {n : Nat} :
    Succeeds oracle (n + 1) ↔ oracle.head? ≠ some false ∧ Succeeds oracle.tail n := by
  cases oracle with
  | nil => simp [Succeeds]
  | cons ok oracle => simp [Succeeds]

/-- The block of `file_name`, after the words that follow have been read. -/
def Parse.nameAfter (st : Parse) : List (List UInt8) → List UInt8
  | [] => st.fileName
  | word :: _ =>
    if st.arguList = [] then word ++ 0 :: st.fileName.drop (word.length + 1) else st.fileName

theorem Parse.nameAfter_of_ne {st : Parse} {words : List (List UInt8)} (h : st.arguList ≠ []) :
    st.nameAfter words = st.fileName := by
  cases words with
  | nil => rfl
  | cons word words => exact if_neg h

theorem setName_eq {st : Parse} {word : List UInt8} (words : List (List UInt8))
    (h : word.length < st.fileName.length) :
    st.setName word = some (st.nameAfter (word :: words)) := by
  rw [Parse.setName, Parse.nameAfter]
  by_cases hnil : st.arguList = []
  · rw [if_pos (length_eq_zero_iff.mpr hnil), if_pos hnil, strlcpy_eq h]
  · rw [if_neg (mt length_eq_zero_iff.mp hnil), if_neg hnil]

theorem length_nameAfter {st : Parse} {word : List UInt8} (words : List (List UInt8))
    (h : word.length < st.fileName.length) :
    (st.nameAfter (word :: words)).length = st.fileName.length := by
  rw [Parse.nameAfter]
  split
  · simp only [length_append, length_cons, length_drop]
    omega
  · rfl

/-- There is room for the words in `argu_list`, and memory for them. -/
def Parse.Room (st : Parse) (words : List (List UInt8)) : Prop :=
  st.arguList.length + words.length ≤ maxArgs ∧ Succeeds st.oracle words.length

instance (st : Parse) (words : List (List UInt8)) : Decidable (st.Room words) :=
  inferInstanceAs (Decidable (_ ∧ (st.oracle.take words.length).all id = true))

theorem Parse.room_cons {st : Parse} {word : List UInt8} {words : List (List UInt8)}
    (fileName : List UInt8) :
    st.Room (word :: words) ↔ st.arguList.length < maxArgs ∧ st.oracle.head? ≠ some false ∧
      Parse.Room ⟨st.arguList ++ [word], fileName, st.oracle.tail⟩ words := by
  simp only [Parse.Room, length_cons, length_append, length_nil, succeeds_succ]
  constructor
  · rintro ⟨hlen, hone, hrest⟩
    exact ⟨by omega, hone, by omega, hrest⟩
  · rintro ⟨-, hone, hlen, hrest⟩
    exact ⟨by omega, hone, hrest⟩

/-- **The words of the command line**, if there is room for them; the first becomes the name of the
program.  If there is not, a store goes past the end of `argu_list` or through a null pointer. -/
theorem parseLoop_eq {fuel : Nat} {s string : List UInt8} {start : Option Nat} {savePtr : Nat}
    {st : Parse} (h : StringAt s (start.getD savePtr) string) (hfuel : string.length < fuel)
    (hname : string.length < st.fileName.length) (hlen : st.arguList.length ≤ maxArgs) :
    parseLoop fuel s start savePtr st = if st.Room (tokens [32] string) then
        some ⟨st.arguList ++ tokens [32] string, st.nameAfter (tokens [32] string),
          st.oracle.drop (tokens [32] string).length⟩ else none := by
  induction fuel generalizing s string start savePtr st with
  | zero => exact absurd hfuel (Nat.not_lt_zero _)
  | succ fuel ih =>
    obtain ⟨d, t, l, rfl, hd, ht, hl, hend⟩ := exists_delimiters [32] string
    rw [tokens_delimiters hd, parseLoop]
    by_cases hne : t = []
    · subst hne
      obtain rfl := hend rfl
      have hnil : tokens [32] ([] ++ []) = [] := rfl
      have hroom : st.Room [] := ⟨hlen, rfl⟩
      rw [strtokR_end (by simpa using h) hd, hnil, if_pos hroom, append_nil]
      rfl
    · obtain ⟨savePtr', s', hcall, -, htoken, hrest⟩ := strtokR_token h hd hne ht hl
      rw [tokens_token hne ht hl, hcall]
      simp only [length_append] at hfuel hname
      have htail : l.tail.length ≤ l.length := by simp
      have hpos : 0 < t.length := length_pos_iff.mpr hne
      have hshort : t.length < st.fileName.length := by omega
      have hcopy :
          strlcpy (List.replicate (t.length + 1) 0) t (t.length + 1) = some (t ++ [0]) := by
        rw [strlcpy_eq (by simp)]
        simp
      simp only [bind_eq_bind, bind_some, stringAt_eq_some htoken,
        setName_eq (tokens [32] l.tail) hshort, hcopy, stringAt_eq_some (stringAt_copy htoken.1 []),
        mallocUnchecked_eq]
      by_cases hmem : st.oracle.head? = some false
      · rw [if_pos hmem, if_neg fun hroom ↦ (Parse.room_cons []).mp hroom |>.2.1 hmem]
        rfl
      rw [if_neg hmem, bind_some]
      by_cases hcnt : st.arguList.length < maxArgs
      · rw [assert, if_pos hcnt, bind_some, ih hrest (by omega)
          (by rw [length_nameAfter _ hshort]; omega)
          (by rw [length_append, length_singleton]; omega)]
        have hiff : st.Room (t :: tokens [32] l.tail) ↔
            Parse.Room ⟨st.arguList ++ [t], st.nameAfter (t :: tokens [32] l.tail), st.oracle.tail⟩
              (tokens [32] l.tail) := by
          rw [Parse.room_cons, and_iff_right hcnt, and_iff_right hmem]
        have hkeep : Parse.nameAfter ⟨st.arguList ++ [t], st.nameAfter (t :: tokens [32] l.tail),
            st.oracle.tail⟩ (tokens [32] l.tail) = st.nameAfter (t :: tokens [32] l.tail) :=
          Parse.nameAfter_of_ne (by simp)
        rw [hkeep]
        simp only [hiff, append_assoc, singleton_append, length_cons, drop_tail]
      · rw [assert, if_neg hcnt, if_neg fun hroom ↦ hcnt ((Parse.room_cons []).mp hroom).1]
        rfl

/-! ## `construct_ESP` -/

/-- The stack of a process: `*esp` and the memory. -/
structure UserStack where
  esp : Nat
  mem : Buffer

/-- The bytes of a 32-bit number. -/
def wordBytes (v : Nat) : List UInt8 := [byteOf v 0, byteOf v 1, byteOf v 2, byteOf v 3]

namespace UserStack

/-- `*esp` is lowered, and bytes are stored there. -/
def push (st : UserStack) (bytes : List UInt8) : Kernel UserStack := do
  let esp := (st.esp + 2 ^ 32 - bytes.length) % 2 ^ 32
  assert (physBase - pgSize ≤ esp ∧ esp + bytes.length ≤ physBase)
  return ⟨esp, fun a ↦ if esp ≤ a then bytes.getD (a - esp) (st.mem a) else st.mem a⟩

/-- The strings, from the last to the first, and their addresses. -/
def copyArgs : List (List UInt8) → UserStack → Kernel (List Nat × UserStack)
  | [], st => some ([], st)
  | argu :: arguList, st => do
    let (addr, st) ← copyArgs arguList st
    let st ← st.push (argu ++ [0])
    return (st.esp :: addr, st)

/-- `n` zero bytes, one at a time. -/
def pushZeros : Nat → UserStack → Kernel UserStack
  | 0, st => some st
  | n + 1, st => do
    let st ← st.push [0]
    pushZeros n st

/-- The padding. -/
def pad (st : UserStack) (totallenAlign : Nat) : Kernel UserStack :=
  if totallenAlign % 4 ≠ 0 then pushZeros (4 - totallenAlign % 4) st else some st

/-- The addresses, from the last to the first. -/
def pushAddrs : List Nat → UserStack → Kernel UserStack
  | [], st => some st
  | a :: addr, st => do
    let st ← pushAddrs addr st
    st.push (wordBytes a)

/-- `construct_ESP`. -/
def constructEsp (st : UserStack) (arguList : List (List UInt8)) : Kernel UserStack := do
  -- `addr` has 128 elements
  assert (arguList.length ≤ 128)
  let (addr, st) ← st.copyArgs arguList
  let st ← st.pad (arguList.map fun argu ↦ argu.length + 1).sum
  let st ← st.push (wordBytes 0)
  let st ← st.pushAddrs addr
  -- `*esp + 4`, after four has been subtracted
  let st ← st.push (wordBytes st.esp)
  let st ← st.push (wordBytes arguList.length)
  st.push (wordBytes 0)

/-! ## What is on the stack -/

/-- Bytes in memory. -/
def Stored (mem : Buffer) (a : Nat) (bytes : List UInt8) : Prop :=
  ∀ i (h : i < bytes.length), mem (a + i) = bytes[i]

variable {st st' : UserStack} {n m : Nat}

/-- The stack has grown by `n` bytes, and nothing outside them has changed. -/
structure Pushed (st st' : UserStack) (n : Nat) : Prop where
  esp : st'.esp + n = st.esp
  above : ∀ a, st.esp ≤ a → st'.mem a = st.mem a
  below : ∀ a, a < st'.esp → st'.mem a = st.mem a

theorem Pushed.refl (st : UserStack) : Pushed st st 0 := ⟨rfl, fun _ _ ↦ rfl, fun _ _ ↦ rfl⟩

theorem Pushed.trans {st1 : UserStack} (h : Pushed st st1 n) (h' : Pushed st1 st' m) :
    Pushed st st' (n + m) := by
  have hesp := h.esp
  have hesp' := h'.esp
  refine ⟨by omega, fun a ha ↦ ?_, fun a ha ↦ ?_⟩
  · rw [h'.above a (by omega), h.above a ha]
  · rw [h'.below a ha, h.below a (by omega)]

theorem Stored.pushed {a : Nat} {bytes : List UInt8} (h : Stored st.mem a bytes) (ha : st.esp ≤ a)
    (hp : Pushed st st' n) : Stored st'.mem a bytes := fun i hi ↦ by
  rw [hp.above _ (Nat.le_add_right_of_le ha), h i hi]

/-- There is room for `n` bytes on the page. -/
def Room (st : UserStack) (n : Nat) : Prop := physBase - pgSize + n ≤ st.esp ∧ st.esp ≤ physBase

theorem Pushed.room (h : Pushed st st' n) (hroom : st.Room (n + m)) : st'.Room m := by
  have hesp := h.esp
  obtain ⟨hlo, hhi⟩ := hroom
  exact ⟨by omega, by omega⟩

/-- **One push.** -/
theorem push_returns (bytes : List UInt8) (hroom : st.Room bytes.length) :
    Returns (st.push bytes) fun st' ↦
      Pushed st st' bytes.length ∧ Stored st'.mem st'.esp bytes := by
  obtain ⟨hlo, hhi⟩ := hroom
  simp only [physBase, pgSize] at hlo hhi
  have hesp : (st.esp + 2 ^ 32 - bytes.length) % 2 ^ 32 = st.esp - bytes.length := by omega
  have hassert : assert (physBase - pgSize ≤ st.esp - bytes.length ∧
      st.esp - bytes.length + bytes.length ≤ physBase) = some () :=
    if_pos (by simp only [physBase, pgSize]; omega)
  simp only [push, hesp, hassert, some_bind]
  have hback : st.esp - bytes.length + bytes.length = st.esp := Nat.sub_add_cancel (by omega)
  refine .pure ⟨⟨hback, fun a ha ↦ ?_, fun a ha ↦ if_neg (Nat.not_le.mpr ha)⟩, fun i hi ↦ ?_⟩
  · dsimp only
    rw [if_pos (by omega), getD_eq_default _ _ (by omega)]
  · dsimp only
    rw [if_pos (Nat.le_add_right _ _), Nat.add_sub_cancel_left, getD_eq_getElem _ _ hi]

theorem copyArgs_returns {arguList : List (List UInt8)}
    (hroom : st.Room (arguList.map fun argu ↦ argu.length + 1).sum) :
    Returns (st.copyArgs arguList) fun (addr, st') ↦
      Pushed st st' (arguList.map fun argu ↦ argu.length + 1).sum ∧
        List.Forall₂ (fun argu a ↦ st'.esp ≤ a ∧ a ≤ st.esp ∧ Stored st'.mem a (argu ++ [0]))
          arguList addr := by
  induction arguList with
  | nil => exact .pure ⟨.refl st, .nil⟩
  | cons argu arguList ih =>
    rw [map_cons, sum_cons, Nat.add_comm] at hroom ⊢
    have hroom' : st.Room (arguList.map fun argu ↦ argu.length + 1).sum :=
      ⟨by have := hroom.1; omega, hroom.2⟩
    refine (ih hroom').bind fun (addr, st1) ⟨hp, haddr⟩ ↦ ?_
    have hlength : (argu ++ [0]).length = argu.length + 1 := by simp
    refine (push_returns _ (hlength ▸ hp.room hroom)).bind fun st2 ⟨hp2, hstored⟩ ↦ ?_
    rw [hlength] at hp2
    have hesp := hp.esp
    have hesp2 := hp2.esp
    refine .pure ⟨hp.trans hp2, .cons ⟨Nat.le_refl _, by omega, hstored⟩ ?_⟩
    refine haddr.imp fun argu' a ⟨hlo, hhi, ha⟩ ↦ ⟨by omega, hhi, ha.pushed hlo hp2⟩

theorem pushZeros_returns (hroom : st.Room n) :
    Returns (pushZeros n st) fun st' ↦ Pushed st st' n := by
  induction n generalizing st with
  | zero => exact .pure (.refl st)
  | succ n ih =>
    have hroom' : st.Room 1 := ⟨by have := hroom.1; omega, hroom.2⟩
    refine (push_returns [0] hroom').bind fun st1 ⟨(hp : Pushed st st1 1), _⟩ ↦ ?_
    refine (ih (hp.room (Nat.add_comm n 1 ▸ hroom))).mono fun st' hp' ↦ ?_
    exact Nat.add_comm n 1 ▸ hp.trans hp'

/-- A word is pushed. -/
theorem pushWord_returns (v : Nat) (hroom : st.Room 4) : Returns (st.push (wordBytes v)) fun st' ↦
      Pushed st st' 4 ∧ Stored st'.mem st'.esp (wordBytes v) :=
  push_returns (wordBytes v) hroom

theorem pushAddrs_returns (addr : List Nat) (hroom : st.Room (4 * addr.length)) :
    Returns (st.pushAddrs addr) fun st' ↦ Pushed st st' (4 * addr.length) ∧
        ∀ i a, addr[i]? = some a → Stored st'.mem (st'.esp + 4 * i) (wordBytes a) := by
  induction addr with
  | nil => exact .pure ⟨.refl st, by simp⟩
  | cons a addr ih =>
    rw [length_cons, Nat.mul_add, Nat.mul_one] at hroom ⊢
    have hroom' : st.Room (4 * addr.length) := ⟨by have := hroom.1; omega, hroom.2⟩
    refine (ih hroom').bind fun st1 ⟨hp, haddr⟩ ↦ ?_
    refine (pushWord_returns a (hp.room hroom)).mono fun st' ⟨hp', hstored⟩ ↦ ?_
    have hesp' := hp'.esp
    refine ⟨hp.trans hp', fun i b hb ↦ ?_⟩
    cases i with
    | zero =>
      obtain rfl : a = b := by simpa using hb
      exact hstored
    | succ i =>
      have hmem := (haddr i b (by simpa using hb)).pushed (by omega) hp'
      rwa [show st'.esp + 4 * (i + 1) = st1.esp + 4 * i by omega]

/-- The padding makes the number of bytes a multiple of 4. -/
theorem pad_returns {total : Nat} (hroom : st.Room ((total + 3) / 4 * 4 - total)) :
    Returns (st.pad total) fun st' ↦ Pushed st st' ((total + 3) / 4 * 4 - total) := by
  unfold pad
  split
  · have hpad : 4 - total % 4 = (total + 3) / 4 * 4 - total := by omega
    rw [hpad]
    exact pushZeros_returns hroom
  · have hpad : (total + 3) / 4 * 4 - total = 0 := by omega
    rw [hpad]
    exact .pure (.refl st)

theorem le32_eq_of_stored {mem : Buffer} {a v : Nat} (h : Stored mem a (wordBytes v))
    (hv : v < 2 ^ 32) : le32 mem a = v := by
  refine le32_byteOf hv fun i hi ↦ ?_
  rw [h i hi]
  interval_cases i <;> rfl

/-- The bytes that `construct_ESP` stores: the words, the padding, their addresses and four more
words. -/
def layoutSize (arguList : List (List UInt8)) : Nat :=
  ((arguList.map fun argu ↦ argu.length + 1).sum + 3) / 4 * 4 + 4 * arguList.length + 16

/-- **`construct_ESP`.**  From the top, there are the strings, the padding, a null pointer, the
addresses of the strings, the address of the first of these, the number of strings, and zero for the
return address. -/
theorem constructEsp_returns {arguList : List (List UInt8)} (hn : arguList.length ≤ 128)
    (hroom : st.Room (layoutSize arguList)) : Returns (st.constructEsp arguList) fun st' ↦
      Pushed st st' (layoutSize arguList) ∧ le32 st'.mem (st'.esp + 4) = arguList.length ∧
      le32 st'.mem (st'.esp + 8) = st'.esp + 12 ∧ (∀ i argu, arguList[i]? = some argu →
        Stored st'.mem (le32 st'.mem (st'.esp + 12 + 4 * i)) (argu ++ [0])) ∧
      le32 st'.mem (st'.esp + 12 + 4 * arguList.length) = 0 := by
  unfold layoutSize at hroom ⊢
  generalize htotal : (arguList.map fun argu ↦ argu.length + 1).sum = total at hroom ⊢
  have hround : total + ((total + 3) / 4 * 4 - total) = (total + 3) / 4 * 4 := by omega
  obtain ⟨hlo, hhi⟩ := hroom
  unfold constructEsp
  rw [assert, if_pos hn]
  have hroom0 : st.Room (arguList.map fun argu ↦ argu.length + 1).sum := ⟨by omega, hhi⟩
  refine (copyArgs_returns hroom0).bind ?_
  rintro ⟨addr, st1⟩ ⟨h1, hstrings⟩
  rw [htotal] at h1 ⊢
  have hlength : arguList.length = addr.length := hstrings.length_eq
  have e1 := h1.esp
  refine (pad_returns ⟨by omega, by omega⟩).bind fun st2 h2 ↦ ?_
  have e2 := h2.esp
  refine (pushWord_returns 0 ⟨by omega, by omega⟩).bind ?_
  rintro st3 ⟨h3, hnull⟩
  have e3 := h3.esp
  refine (pushAddrs_returns addr ⟨by omega, by omega⟩).bind ?_
  rintro st4 ⟨h4, haddr⟩
  have e4 := h4.esp
  refine (pushWord_returns st4.esp ⟨by omega, by omega⟩).bind ?_
  rintro st5 ⟨h5, hargv⟩
  have e5 := h5.esp
  refine (pushWord_returns arguList.length ⟨by omega, by omega⟩).bind ?_
  rintro st6 ⟨h6, hargc⟩
  have e6 := h6.esp
  refine (pushWord_returns 0 ⟨by omega, by omega⟩).mono ?_
  rintro st7 ⟨h7, _⟩
  have e7 := h7.esp
  -- what has been stored is not changed by what comes after it
  have hend : Pushed st4 st7 (4 + 4 + 4) := (h5.trans h6).trans h7
  have hpushed : Pushed st st7 ((total + 3) / 4 * 4 + 4 * arguList.length + 16) := by
    have hall := (((h1.trans h2).trans h3).trans h4).trans hend
    convert hall using 1
    omega
  have hphys : physBase < 2 ^ 32 := by decide
  refine ⟨hpushed, ?_, ?_, fun i argu hargu ↦ ?_, ?_⟩
  · rw [e7]
    exact le32_eq_of_stored (hargc.pushed (Nat.le_refl _) h7) (by omega)
  · have hargv' := hargv.pushed (Nat.le_refl _) (h6.trans h7)
    rw [show st7.esp + 8 = st5.esp by omega, le32_eq_of_stored hargv' (by omega)]
    omega
  · obtain ⟨hi, rfl⟩ := List.getElem?_eq_some_iff.mp hargu
    have hi' : i < addr.length := hlength ▸ hi
    obtain ⟨hge, hle, hstring⟩ := hstrings.get hi hi'
    have hword := (haddr i _ (List.getElem?_eq_getElem hi')).pushed (by omega) hend
    rw [show st7.esp + 12 + 4 * i = st4.esp + 4 * i by omega]
    rw [le32_eq_of_stored hword (Nat.lt_of_le_of_lt hle (by omega))]
    exact hstring.pushed hge (((h2.trans h3).trans h4).trans hend)
  · have hnull' := hnull.pushed (Nat.le_refl _) (h4.trans hend)
    rw [show st7.esp + 12 + 4 * arguList.length = st3.esp by omega,
      le32_eq_of_stored hnull' (by omega)]

end UserStack

/-! ## Both together -/

/-- `parse_filename` and then `construct_ESP`, as `load` calls them. -/
def passArguments (fileName : List UInt8) (oracle : List Bool) (st : UserStack) :
    Kernel (List UInt8 × UserStack) := do
  let parse ← parseFilename fileName oracle
  let st ← st.constructEsp parse.arguList
  return (parse.fileName, st)

/-- `setup_stack` leaves `*esp` here. -/
def stackTop : Nat := physBase - 12

/-- A string in memory. -/
def StringIn (mem : Buffer) (a : Nat) (string : List UInt8) : Prop :=
  0 ∉ string ∧ UserStack.Stored mem a (string ++ [0])

/-- The name of the program: the first word of the command line.  If there is none, `file_name`
stays as it is. -/
def programName (line : List UInt8) : List UInt8 := (tokens [32] line).head?.getD line

/-- There is room for the words of the command line in `argu_list`, and memory for them and for the
copy of the line. -/
def Parsable (line : List UInt8) (oracle : List Bool) : Prop :=
  (tokens [32] line).length ≤ maxArgs ∧ Succeeds oracle ((tokens [32] line).length + 1)

/-- **`parse_filename`** has a result if and only if there is room, and what it is. -/
theorem parseFilename_spec {line : List UInt8} (rest : List UInt8) (oracle : List Bool)
    (hline : 0 ∉ line) :
    (¬ Parsable line oracle → parseFilename (line ++ 0 :: rest) oracle = none) ∧
    (Parsable line oracle → Returns (parseFilename (line ++ 0 :: rest) oracle) fun parse ↦
      parse.arguList = tokens [32] line ∧ StringAt parse.fileName 0 (programName line)) := by
  have hname : StringAt (line ++ 0 :: rest) 0 line := stringAt_copy hline rest
  have hcopy : strlcpy (List.replicate (line.length + 1) 0) line (line.length + 1) =
      some (line ++ [0]) := by
    rw [strlcpy_eq (by simp)]
    simp
  rw [parseFilename, stringAt_eq_some hname, Parsable, succeeds_succ]
  simp only [some_bind, mallocUnchecked_eq, hcopy]
  by_cases hmem : oracle.head? = some false
  · rw [if_pos hmem]
    exact ⟨fun _ ↦ rfl, fun h ↦ absurd hmem h.2.1⟩
  have hloop : parseLoop (line.length + 1 + 1) (line ++ [0]) (some 0) 0
      ⟨[], line ++ 0 :: rest, oracle.tail⟩ = _ :=
    parseLoop_eq (stringAt_copy hline []) (by omega) (by simp) (Nat.zero_le _)
  have hroom : Parse.Room ⟨[], line ++ 0 :: rest, oracle.tail⟩ (tokens [32] line) ↔
      (tokens [32] line).length ≤ maxArgs ∧ Succeeds oracle.tail (tokens [32] line).length := by
    rw [Parse.Room, length_nil, Nat.zero_add]
  rw [if_neg hmem, some_bind, hloop]
  constructor
  · intro h
    exact if_neg fun hr ↦ h ⟨(hroom.mp hr).1, hmem, (hroom.mp hr).2⟩
  · intro h
    rw [if_pos (hroom.mpr ⟨h.1, h.2.2⟩)]
    refine .pure ⟨nil_append _, ?_⟩
    rw [programName]
    cases hwords : tokens [32] line with
    | nil => exact hname
    | cons word words =>
      have hword : word ∈ tokens [32] line := hwords ▸ mem_cons_self
      exact stringAt_copy (not_mem_of_mem_tokens hword hline) _

/-- The command line has reached `main` intact: the words, their addresses and their number are
where `_start` looks for them, and nothing outside the page of the stack has changed.  The first
word is the name of the program. -/
structure Passed (line : List UInt8) (mem : Buffer) (fileName : List UInt8) (st : UserStack) :
    Prop where
  outside : ∀ a, a < physBase - pgSize ∨ physBase ≤ a → st.mem a = mem a
  aligned : st.esp % 4 = 0
  argc : le32 st.mem (st.esp + 4) = (tokens [32] line).length
  argv : le32 st.mem (st.esp + 8) = st.esp + 12
  words : ∀ i word, (tokens [32] line)[i]? = some word →
    StringIn st.mem (le32 st.mem (st.esp + 12 + 4 * i)) word
  null : le32 st.mem (st.esp + 12 + 4 * (tokens [32] line).length) = 0
  name : ∀ word ∈ (tokens [32] line).head?, StringAt fileName 0 word

/-- **The command line reaches `main` intact exactly if no `malloc` of `parse_filename` fails**,
where there is room for it in `argu_list` and on the page of the stack. -/
theorem arguments_reach_main_iff (line rest : List UInt8) (oracle : List Bool) (mem : Buffer)
    (hline : 0 ∉ line) (hmax : (tokens [32] line).length ≤ 128)
    (hfit : UserStack.layoutSize (tokens [32] line) ≤ 4084) :
    (Returns (passArguments (line ++ 0 :: rest) oracle ⟨stackTop, mem⟩) fun r ↦
      Passed line mem r.1 r.2) ↔ Succeeds oracle ((tokens [32] line).length + 1) := by
  obtain ⟨hnone, hsome⟩ := parseFilename_spec rest oracle hline
  constructor
  · rintro ⟨r, hr, -⟩
    by_contra hmem
    rw [passArguments, hnone fun h ↦ hmem h.2] at hr
    cases hr
  · intro hmem
    obtain ⟨parse, hparse, hlist, hname⟩ := hsome ⟨hmax, hmem⟩
    have hfirst : ∀ word ∈ (tokens [32] line).head?, StringAt parse.fileName 0 word := by
      intro word hword
      rwa [programName, mem_def.mp hword] at hname
    have hroom : UserStack.Room ⟨stackTop, mem⟩ (UserStack.layoutSize (tokens [32] line)) := by
      simp only [UserStack.Room, stackTop, physBase, pgSize]
      omega
    obtain ⟨st, hst, hpushed, hargc, hargv, hstrings, hnull⟩ :=
      UserStack.constructEsp_returns hmax hroom
    have hesp := hpushed.esp
    rw [UserStack.layoutSize] at hesp hfit
    simp only [stackTop, physBase] at hesp
    refine ⟨(parse.fileName, st), ?_, fun a ha ↦ ?_, by dsimp only; omega, hargc, hargv,
      fun i word hword ↦ ?_, hnull, hfirst⟩
    · rw [passArguments, hparse]
      simp only [some_bind, hlist, hst]
      rfl
    · rcases ha with ha | ha
      · exact hpushed.below a (by simp only [physBase, pgSize] at ha; omega)
      · exact hpushed.above a (by simp only [stackTop, physBase] at ha ⊢; omega)
    · exact ⟨not_mem_of_mem_tokens (mem_of_getElem? hword) hline, hstrings i word hword⟩

/-- The command line `ls  -l`. -/
theorem arguments_reach_main_iff_ls : ∃ fileName st,
    passArguments ([108, 115, 32, 32, 45, 108] ++ [0]) [true, true, true, false]
      ⟨stackTop, fun _ ↦ 0⟩ = some (fileName, st) ∧ le32 st.mem (st.esp + 4) = 2 ∧
    StringIn st.mem (le32 st.mem (st.esp + 12 + 4 * 1)) [45, 108] ∧
    StringAt fileName 0 [108, 115] := by
  have hwords : tokens [32] [108, 115, 32, 32, 45, 108] = [[108, 115], [45, 108]] := by decide
  obtain ⟨⟨fileName, st⟩, hrun, hpassed⟩ :=
    (arguments_reach_main_iff [108, 115, 32, 32, 45, 108] [] [true, true, true, false] (fun _ ↦ 0)
      (by decide) (by decide) (by decide)).mpr (by rw [hwords]; rfl)
  exact ⟨fileName, st, hrun, hpassed.argc, hpassed.words 1 _ rfl, hpassed.name _ rfl⟩

/-- **A `malloc` that fails is not noticed**: `strlcpy` gets a null pointer. -/
theorem arguments_without_memory :
    passArguments ([108, 115] ++ [0]) [false] ⟨stackTop, fun _ ↦ 0⟩ = none := rfl

end Pintos
