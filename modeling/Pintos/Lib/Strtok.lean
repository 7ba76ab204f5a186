import Pintos.Kernel.Bitmap

/-!
# Splitting a string

`strtok_r` of `lib/string.c`.  A string lives in a block of memory, which is a list of bytes, and a
pointer into it is an offset; an access outside the block has no result.  `StringAt buf s l` says
that the string at offset `s` is `l`: these are the bytes from there on, up to a null byte.

A call returns the next token and cuts the string behind it (`strtokR_token`), or it comes to the
end of the string (`strtokR_end`).  What it goes on with is the rest of the string, so that the
tokens come one after the other (`tokens`), and then nothing (`strtok_enumerates`).
-/

set_option autoImplicit false

namespace Pintos

open List

/-- Whether `strchr` finds a byte in a string, whose null byte belongs to it. -/
def strchr (string : List UInt8) (c : UInt8) : Bool := c == 0 || string.contains c

/-- The first loop of `strtok_r`, for at most `fuel` rounds: where it ends, and whether this is the
end of the string. -/
def skipDelimiters (buf delimiters : List UInt8) : Nat → Nat → Kernel (Bool × Nat)
  | 0, _ => none
  | fuel + 1, s => do
    let c ← buf[s]?
    if strchr delimiters c then
      if c = 0 then return (true, s) else skipDelimiters buf delimiters fuel (s + 1)
    else return (false, s)

/-- The second loop of `strtok_r`, for at most `fuel` rounds. -/
def skipToken (buf delimiters : List UInt8) : Nat → Nat → Kernel Nat
  | 0, _ => none
  | fuel + 1, s => do
    let c ← buf[s]?
    if strchr delimiters c then return s else skipToken buf delimiters fuel (s + 1)

/-- `strtok_r`: the token, `*save_ptr` and the block of the string. -/
def strtokR (buf : List UInt8) (s : Option Nat) (delimiters : List UInt8) (savePtr : Nat) :
    Kernel (Option Nat × Nat × List UInt8) := do
  let s := s.getD savePtr
  let (atEnd, token) ← skipDelimiters buf delimiters (buf.length + 1) s
  if atEnd then return (none, token, buf)
  else
    let s ← skipToken buf delimiters (buf.length + 1) token
    let c ← buf[s]?
    if c ≠ 0 then return (some token, s + 1, buf.set s 0)
    else return (some token, s, buf)

/-- The maximal parts of a string that are not empty and contain no delimiter. -/
def tokens (delimiters string : List UInt8) : List (List UInt8) :=
  (string.splitOnP delimiters.contains).filter (· ≠ [])

/-! ## Strings in memory -/

/-- The string at an offset. -/
def StringAt (buf : List UInt8) (s : Nat) (string : List UInt8) : Prop :=
  0 ∉ string ∧ ∃ tail, buf.drop s = string ++ 0 :: tail

variable {buf delimiters string d : List UInt8} {s savePtr fuel : Nat} {start : Option Nat}
  {c : UInt8}

theorem StringAt.cons (h : StringAt buf s (c :: string)) :
    buf[s]? = some c ∧ c ≠ 0 ∧ StringAt buf (s + 1) string := by
  obtain ⟨hno, tail, hdrop⟩ := h
  obtain ⟨hc, hno⟩ := not_or.mp (mt mem_cons.mpr hno)
  refine ⟨?_, Ne.symm hc, hno, tail, ?_⟩
  · rw [← head?_drop, hdrop]
    rfl
  · rw [← tail_drop, hdrop]
    rfl

theorem StringAt.nil (h : StringAt buf s []) : buf[s]? = some 0 := by
  obtain ⟨-, tail, hdrop⟩ := h
  rw [← head?_drop, hdrop]
  rfl

theorem StringAt.append {l l' : List UInt8} (h : StringAt buf s (l ++ l')) :
    StringAt buf (s + l.length) l' := by
  induction l generalizing s with
  | nil => exact h
  | cons c l ih =>
    have := ih h.cons.2.2
    rwa [length_cons, Nat.add_comm l.length, ← Nat.add_assoc]

/-- The string and its null byte are in the block. -/
theorem StringAt.lt_length (h : StringAt buf s string) : s + string.length < buf.length := by
  obtain ⟨-, tail, hdrop⟩ := h
  have hlength := congrArg length hdrop
  simp only [length_drop, length_append, length_cons] at hlength
  omega

theorem StringAt.takeWhile (h : StringAt buf s string) :
    (buf.drop s).takeWhile (· ≠ 0) = string := by
  obtain ⟨hno, tail, hdrop⟩ := h
  have hall : ∀ c ∈ string, decide (c ≠ 0) = true :=
    fun c hc ↦ decide_eq_true fun hzero ↦ hno (hzero ▸ hc)
  rw [hdrop, takeWhile_append_of_pos hall]
  simp

/-- Cutting a string. -/
theorem StringAt.set {l l' : List UInt8} (h : StringAt buf s (l ++ c :: l')) :
    StringAt (buf.set (s + l.length) 0) s l ∧
      StringAt (buf.set (s + l.length) 0) (s + l.length + 1) l' := by
  obtain ⟨-, -, hno', tail', hdrop'⟩ := h.append.cons
  obtain ⟨hno, tail, hdrop⟩ := h
  refine ⟨⟨fun hmem ↦ hno (mem_append_left _ hmem), l' ++ 0 :: tail, ?_⟩, hno', tail', ?_⟩
  · rw [drop_set, if_neg (by omega), hdrop, append_assoc, Nat.add_sub_cancel_left,
      set_append_right _ _ (Nat.le_refl _), Nat.sub_self]
    rfl
  · rw [drop_set, if_pos (by omega)]
    exact hdrop'

/-! ## One call -/

theorem strchr_of_ne_zero (h : c ≠ 0) : strchr delimiters c = delimiters.contains c := by
  rw [strchr, beq_false_of_ne h, Bool.false_or]

theorem skipDelimiters_eq_some {l : List UInt8} (h : StringAt buf s (d ++ l))
    (hd : ∀ c ∈ d, delimiters.contains c = true)
    (hl : ∀ c ∈ l.head?, delimiters.contains c = false) (hfuel : d.length < fuel) :
    skipDelimiters buf delimiters fuel s = some (l.isEmpty, s + d.length) := by
  induction d generalizing s fuel with
  | nil =>
    obtain ⟨fuel, rfl⟩ := Nat.exists_eq_succ_of_ne_zero (Nat.ne_of_gt hfuel)
    cases l with
    | nil =>
      rw [skipDelimiters, StringAt.nil h]
      rfl
    | cons c l =>
      obtain ⟨hget, hc, -⟩ := StringAt.cons h
      rw [skipDelimiters, hget]
      simp only [some_bind, strchr_of_ne_zero hc, hl c rfl]
      rfl
  | cons c d ih =>
    obtain ⟨fuel, rfl⟩ := Nat.exists_eq_succ_of_ne_zero (Nat.ne_of_gt (Nat.zero_lt_of_lt hfuel))
    obtain ⟨hget, hc, hrest⟩ := StringAt.cons h
    rw [skipDelimiters, hget]
    simp only [some_bind, strchr_of_ne_zero hc, hd c mem_cons_self, if_true, if_neg hc]
    rw [ih hrest (fun c hc ↦ hd c (mem_cons_of_mem _ hc)) (Nat.lt_of_succ_lt_succ hfuel),
      length_cons, Nat.add_assoc, Nat.add_comm 1]

theorem skipToken_eq_some {t l : List UInt8} (h : StringAt buf s (t ++ l))
    (ht : ∀ c ∈ t, delimiters.contains c = false)
    (hl : ∀ c ∈ l.head?, delimiters.contains c = true) (hfuel : t.length < fuel) :
    skipToken buf delimiters fuel s = some (s + t.length) := by
  induction t generalizing s fuel with
  | nil =>
    obtain ⟨fuel, rfl⟩ := Nat.exists_eq_succ_of_ne_zero (Nat.ne_of_gt hfuel)
    cases l with
    | nil =>
      rw [skipToken, StringAt.nil h]
      rfl
    | cons c l =>
      obtain ⟨hget, hc, -⟩ := StringAt.cons h
      rw [skipToken, hget]
      simp only [some_bind, strchr_of_ne_zero hc, hl c rfl]
      rfl
  | cons c t ih =>
    obtain ⟨fuel, rfl⟩ := Nat.exists_eq_succ_of_ne_zero (Nat.ne_of_gt (Nat.zero_lt_of_lt hfuel))
    obtain ⟨hget, hc, hrest⟩ := StringAt.cons h
    rw [skipToken, hget]
    simp only [some_bind, strchr_of_ne_zero hc, ht c mem_cons_self, Bool.false_eq_true, if_false]
    rw [ih hrest (fun c hc ↦ ht c (mem_cons_of_mem _ hc)) (Nat.lt_of_succ_lt_succ hfuel),
      length_cons, Nat.add_assoc, Nat.add_comm 1]

/-- There are only delimiters left. -/
theorem strtokR_end
    (h : StringAt buf (start.getD savePtr) d) (hd : ∀ c ∈ d, delimiters.contains c = true) :
    strtokR buf start delimiters savePtr = some (none, start.getD savePtr + d.length, buf) := by
  have hlt := h.lt_length
  rw [strtokR, skipDelimiters_eq_some (l := []) (by rwa [append_nil]) hd nofun (by omega)]
  rfl

/-- There is another token. -/
theorem strtokR_token {t l : List UInt8} (h : StringAt buf (start.getD savePtr) (d ++ (t ++ l)))
    (hd : ∀ c ∈ d, delimiters.contains c = true) (hne : t ≠ [])
    (ht : ∀ c ∈ t, delimiters.contains c = false)
    (hl : ∀ c ∈ l.head?, delimiters.contains c = true) :
    ∃ savePtr' buf', strtokR buf start delimiters savePtr =
        some (some (start.getD savePtr + d.length), savePtr', buf') ∧
      buf'.length = buf.length ∧ StringAt buf' (start.getD savePtr + d.length) t ∧
      StringAt buf' savePtr' l.tail := by
  have hlt := h.lt_length
  simp only [length_append] at hlt
  have hhead : ∀ c ∈ (t ++ l).head?, delimiters.contains c = false := by
    intro c hc
    rw [head?_append_of_ne_nil _ hne] at hc
    exact ht c (mem_of_mem_head? hc)
  have hskip : skipDelimiters buf delimiters (buf.length + 1) (start.getD savePtr) =
      some (false, start.getD savePtr + d.length) := by
    rw [skipDelimiters_eq_some h hd hhead (by omega)]
    simp [hne]
  have htoken : skipToken buf delimiters (buf.length + 1) (start.getD savePtr + d.length) =
      some (start.getD savePtr + d.length + t.length) :=
    skipToken_eq_some h.append ht hl (by omega)
  rw [strtokR]
  simp only [hskip, some_bind, Bool.false_eq_true, if_false, htoken]
  cases l with
  | nil =>
    have hend := h.append.append
    rw [hend.nil]
    exact ⟨_, buf, rfl, rfl, by simpa using h.append, hend⟩
  | cons c l =>
    obtain ⟨hget, hc, -⟩ := h.append.append.cons
    obtain ⟨hcut, hrest⟩ := h.append.set
    simp only [hget, some_bind, ne_eq, hc, not_false_eq_true, if_true]
    exact ⟨_, _, rfl, length_set .., hcut, hrest⟩

/-! ## The tokens -/

/-- A string is some delimiters, and then it ends, or a token follows. -/
theorem exists_delimiters (delimiters string : List UInt8) :
    ∃ d t l, string = d ++ (t ++ l) ∧ (∀ c ∈ d, delimiters.contains c = true) ∧
      (∀ c ∈ t, delimiters.contains c = false) ∧ (∀ c ∈ l.head?, delimiters.contains c = true) ∧
      (t = [] → l = []) := by
  refine ⟨string.takeWhile delimiters.contains,
    (string.dropWhile delimiters.contains).takeWhile fun c ↦ !delimiters.contains c,
    (string.dropWhile delimiters.contains).dropWhile fun c ↦ !delimiters.contains c,
    ?_, fun c hc ↦ ?_, fun c hc ↦ ?_, fun c hc ↦ ?_, fun hnil ↦ ?_⟩
  · rw [takeWhile_append_dropWhile, takeWhile_append_dropWhile]
  · exact mem_takeWhile_imp hc
  · simpa using mem_takeWhile_imp hc
  · have hhead := head?_dropWhile_not (fun c ↦ !delimiters.contains c)
      (string.dropWhile delimiters.contains)
    rw [Option.mem_def.mp hc] at hhead
    simpa using hhead
  · cases hdrop : string.dropWhile delimiters.contains with
    | nil => rfl
    | cons c l =>
      have hhead := head?_dropWhile_not delimiters.contains string
      rw [hdrop] at hhead hnil
      have hc : delimiters.contains c = false := by simpa using hhead
      rw [takeWhile_cons_of_pos (by simpa using hc)] at hnil
      cases hnil

/-- The bytes of a token are bytes of the string. -/
theorem not_mem_of_mem_tokens {word : List UInt8} (h : word ∈ tokens delimiters string)
    (hc : c ∉ string) : c ∉ word := by
  have hsplit : ∀ l : List UInt8, ∀ word ∈ l.splitOnP delimiters.contains, ∀ c ∈ word, c ∈ l := by
    intro l
    induction l with
    | nil => simp [splitOnP_nil]
    | cons x l ih =>
      intro word hword c hc
      rw [splitOnP_cons_eq_if_modifyHead] at hword
      split at hword
      · rcases mem_cons.mp hword with rfl | hword
        · cases hc
        · exact mem_cons_of_mem _ (ih word hword c hc)
      · cases hsplit : l.splitOnP delimiters.contains with
        | nil =>
          rw [hsplit] at hword
          cases hword
        | cons first words =>
          rw [hsplit] at ih hword
          rcases mem_cons.mp hword with rfl | hword
          · rcases mem_cons.mp hc with rfl | hc
            · exact mem_cons_self
            · exact mem_cons_of_mem _ (ih first mem_cons_self c hc)
          · exact mem_cons_of_mem _ (ih word (mem_cons_of_mem _ hword) c hc)
  exact fun hmem ↦ hc (hsplit string word (mem_of_mem_filter h) c hmem)

theorem tokens_delimiters (hd : ∀ c ∈ d, delimiters.contains c = true)
    (l : List UInt8) : tokens delimiters (d ++ l) = tokens delimiters l := by
  induction d with
  | nil => rfl
  | cons c d ih =>
    have hcons := splitOnP_append_cons [] (d ++ l) (hd c mem_cons_self)
    rw [tokens, cons_append, ← nil_append (c :: (d ++ l)), hcons]
    simpa [tokens] using ih fun c hc ↦ hd c (mem_cons_of_mem _ hc)

theorem tokens_token {t l : List UInt8} (hne : t ≠ []) (ht : ∀ c ∈ t, delimiters.contains c = false)
    (hl : ∀ c ∈ l.head?, delimiters.contains c = true) :
    tokens delimiters (t ++ l) = t :: tokens delimiters l.tail := by
  cases l with
  | nil => simp [tokens, splitOnP_eq_singleton ht, hne]
  | cons c l =>
    have hcons := splitOnP_append_cons t l (hl c rfl)
    simp [tokens, hcons, splitOnP_eq_singleton ht, hne]

/-! ## All calls -/

/-- `strtok_r` is called until it returns a null pointer, `fuel` times at most: the tokens, and
`*save_ptr` and the block in the end. -/
def strtokAll (delimiters : List UInt8) :
    Nat → List UInt8 → Option Nat → Nat → Kernel (List (List UInt8) × Nat × List UInt8)
  | 0, _, _, _ => none
  | fuel + 1, buf, s, savePtr => do
    let (token, savePtr, buf) ← strtokR buf s delimiters savePtr
    match token with
    | none => return ([], savePtr, buf)
    | some token =>
      let word := (buf.drop token).takeWhile (· ≠ 0)
      let (words, r) ← strtokAll delimiters fuel buf none savePtr
      return (word :: words, r)

/-- The tokens of what is left. -/
theorem exists_strtokAll
    (h : StringAt buf (start.getD savePtr) string) (hfuel : string.length < fuel) :
    ∃ savePtr' buf', strtokAll delimiters fuel buf start savePtr =
        some (tokens delimiters string, savePtr', buf') ∧
      buf'.length = buf.length ∧ StringAt buf' savePtr' [] := by
  induction fuel generalizing buf string start savePtr with
  | zero => exact absurd hfuel (Nat.not_lt_zero _)
  | succ fuel ih =>
    obtain ⟨d, t, l, rfl, hd, ht, hl, hend⟩ := exists_delimiters delimiters string
    rw [tokens_delimiters hd, strtokAll]
    by_cases hne : t = []
    · subst hne
      obtain rfl := hend rfl
      rw [strtokR_end (by simpa using h) hd]
      exact ⟨_, buf, rfl, rfl, h.append⟩
    · obtain ⟨savePtr₁, buf₁, hcall, hlength, htoken, hrest⟩ := strtokR_token h hd hne ht hl
      have hless : l.tail.length < fuel := by
        have hpos : 0 < t.length := length_pos_iff.mpr hne
        simp only [length_append] at hfuel
        rw [length_tail]
        omega
      have hnone : StringAt buf₁ ((none : Option Nat).getD savePtr₁) l.tail := hrest
      obtain ⟨savePtr', buf', hall, hlength', hnil⟩ := ih hnone hless
      refine ⟨savePtr', buf', ?_, hlength'.trans hlength, hnil⟩
      simp only [hcall, some_bind, hall, htoken.takeWhile, tokens_token hne ht hl]
      rfl

/-- **`strtok_r` enumerates the tokens**, and then returns a null pointer at every call.  Since the
block is the string and its null byte, no call reads or writes anything else. -/
theorem strtok_enumerates (delimiters : List UInt8) (hstring : 0 ∉ string) (savePtr : Nat) :
    ∃ savePtr' buf', strtokAll delimiters (string.length + 1) (string ++ [0]) (some 0) savePtr =
        some (tokens delimiters string, savePtr', buf') ∧ buf'.length = string.length + 1 ∧
      strtokR buf' none delimiters savePtr' = some (none, savePtr', buf') := by
  have h : StringAt (string ++ [0]) ((some 0).getD savePtr) string := ⟨hstring, [], rfl⟩
  obtain ⟨savePtr', buf', hall, hlength, hnil⟩ := exists_strtokAll h (Nat.lt_succ_self _)
  refine ⟨savePtr', buf', hall, by simpa using hlength, ?_⟩
  have hnone : StringAt buf' ((none : Option Nat).getD savePtr') [] := hnil
  exact strtokR_end hnone nofun

theorem strtok_enumerates_words : ∃ savePtr' buf',
    strtokAll [32] 6 ([32, 108, 115, 32, 120] ++ [0]) (some 0) 0 =
        some ([[108, 115], [120]], savePtr', buf') ∧
      buf'.length = 6 ∧ strtokR buf' none [32] savePtr' = some (none, savePtr', buf') :=
  @strtok_enumerates [32, 108, 115, 32, 120] [32] (by decide) 0

end Pintos
