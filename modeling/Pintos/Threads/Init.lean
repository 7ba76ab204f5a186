import Pintos.Lib.Stdio
import Pintos.Lib.Strtok

/-!
# Options of the kernel

`read_command_line` and `parse_options` of `threads/init.c`, and the generator of `lib/random.c`,
which the latter seeds.

The loop over the options seeds the generator for each `-rs`, and the time of day is to have "no
effect" after that.  But `random_init` is called with it at last, whatever the options were, and
starts the generator anew: `seed_decides_iff`.

The array for the arguments is long enough if each of them takes two bytes, and an empty one takes
only one: `boot_arguments_fit_iff`.
-/

set_option autoImplicit false

namespace Pintos

open List

/-! ## The generator -/

/-- The state of the generator: `s`, `s_i`, `s_j` and `inited`. -/
structure Random where
  s : Buffer
  i : UInt8
  j : UInt8
  inited : Bool

/-- `swap_byte` of two elements. -/
def swapByte (s : Buffer) (a b : Nat) : Buffer := fun k ↦
  if k = a then s b else if k = b then s a else s k

/-- A round of the loop of `random_init` that shuffles `s`. -/
def randomRound (seed : Nat) : Buffer × UInt8 → Nat → Buffer × UInt8
  | (s, j), i =>
    let j := j + (s i + (seed / 256 ^ (i % 4)).toUInt8)
    (swapByte s i j.toNat, j)

/-- `random_init`. -/
def randomInit (seed : Nat) : Random :=
  ⟨((List.range 256).foldl (randomRound seed) (Nat.toUInt8, 0)).1, 0, 0, true⟩

/-- The loop of `random_bytes`. -/
def randomLoop : Nat → Random → List UInt8 × Random
  | 0, r => ([], r)
  | size + 1, r =>
    let i := r.i + 1
    let j := r.j + r.s i.toNat
    let s := swapByte r.s i.toNat j.toNat
    let k := s i.toNat + s j.toNat
    let (bytes, r) := randomLoop size ⟨s, i, j, r.inited⟩
    (s k.toNat :: bytes, r)

/-- `random_bytes`. -/
def randomBytes (r : Random) (size : Nat) : List UInt8 × Random :=
  randomLoop size (if r.inited then r else randomInit 0)

/-! The table of the generator stays a permutation of the bytes. -/

/-- `s` holds each byte once. -/
def Permutes (s : Buffer) : Prop := Function.Bijective fun k : UInt8 ↦ s k.toNat

theorem Permutes.swapByte {s : Buffer} (h : Permutes s) (a b : UInt8) :
    Permutes (swapByte s a.toNat b.toNat) := by
  have hcomp : (fun k : UInt8 ↦ Pintos.swapByte s a.toNat b.toNat k.toNat) =
      (fun k ↦ s k.toNat) ∘ Equiv.swap a b := by
    funext k
    simp only [Pintos.swapByte, Function.comp, Equiv.swap_apply_def, UInt8.toNat_inj]
    split_ifs <;> rfl
  rw [Permutes, hcomp]
  exact h.comp (Equiv.swap a b).bijective

/-- The rounds of `random_init`, from a permutation. -/
theorem Permutes.foldl_randomRound (seed : Nat) {l : List Nat} : ∀ {p : Buffer × UInt8},
    (∀ i ∈ l, i < 256) → Permutes p.1 → Permutes (l.foldl (randomRound seed) p).1 := by
  induction l with
  | nil => exact fun _ hp ↦ hp
  | cons i l ih =>
    intro p hl hp
    rw [forall_mem_cons] at hl
    have hi : i.toUInt8.toNat = i := UInt8.toNat_ofNat_of_lt' hl.1
    have hswap := hp.swapByte i.toUInt8 (randomRound seed p i).2
    rw [hi] at hswap
    exact ih hl.2 hswap

theorem randomInit_permutes (seed : Nat) : Permutes (randomInit seed).s := by
  have hfirst : Permutes Nat.toUInt8 := by
    rw [Permutes, funext fun k : UInt8 ↦ UInt8.ofNat_toNat]
    exact Function.bijective_id
  have hrange : ∀ i ∈ List.range 256, i < 256 := fun _ ↦ mem_range.mp
  rw [randomInit]
  generalize List.range 256 = l at *
  exact hfirst.foldl_randomRound seed hrange

theorem Permutes.randomLoop (size : Nat) : ∀ {r : Random}, r.inited → Permutes r.s →
    (randomLoop size r).2.inited ∧ Permutes (randomLoop size r).2.s := by
  induction size with
  | zero => exact fun hinit h ↦ ⟨hinit, h⟩
  | succ size ih => exact fun hinit h ↦ ih hinit (h.swapByte _ _)

/-- A call of `random_init` or `random_bytes`. -/
inductive RandomCall where
  | init (seed : Nat)
  | bytes (size : Nat)

/-- The state after a call. -/
def Random.call (r : Random) : RandomCall → Random
  | .init seed => randomInit seed
  | .bytes size => (randomBytes r size).2

/-- The state before the first call. -/
def Random.boot : Random := ⟨fun _ ↦ 0, 0, 0, false⟩

/-- **The generator keeps a permutation of the bytes**, from the first call on. -/
theorem random_permutes (c : RandomCall) (calls : List RandomCall) :
    Permutes ((c :: calls).foldl Random.call Random.boot).s := by
  have hcall : ∀ (c : RandomCall) (r : Random), (r.inited → Permutes r.s) →
      (r.call c).inited ∧ Permutes (r.call c).s := by
    intro c r hr
    cases c with
    | init seed => exact ⟨rfl, randomInit_permutes seed⟩
    | bytes size =>
      rw [Random.call, randomBytes]
      split_ifs with hinit
      · exact (hr hinit).randomLoop size hinit
      · exact (randomInit_permutes 0).randomLoop size rfl
  exact (foldlRecOn (motive := fun r ↦ r.inited ∧ Permutes r.s) calls Random.call
    (hcall c Random.boot (by rintro ⟨⟩)) fun r hr c _ ↦ hcall c r fun _ ↦ hr.2).2

/-! ## Options -/

/-- `isspace`. -/
def isspace (c : UInt8) : Bool := c == ' '.toUInt8 || 9 ≤ c && c ≤ 13

/-- `atoi`. -/
def atoi (s : List UInt8) : Int :=
  let s := s.dropWhile isspace
  let negative := s.head? = some '-'.toUInt8
  let s := if negative ∨ s.head? = some '+'.toUInt8 then s.tail else s
  let value := (s.takeWhile isdigit).foldl
    (fun value c ↦ (value * 10 - (c.toNat - '0'.toUInt8.toNat : Int)).bmod (2 ^ 32)) 0
  if negative then value else (-value).bmod (2 ^ 32)

/-- What `parse_options` sets. -/
structure Options where
  /-- Whether `shutdown_configure` has been called, and with `SHUTDOWN_REBOOT`. -/
  reboot : Option Bool
  formatFilesys : Bool
  filesysBdevName : Option (List UInt8)
  scratchBdevName : Option (List UInt8)
  swapBdevName : Option (List UInt8)
  random : Random
  mlfqs : Bool
  userPageLimit : Nat

/-- The `name` and the `value` of an option. -/
def splitOption (word : List UInt8) : Kernel (List UInt8 × Option (List UInt8)) := do
  let (name, savePtr, buf) ← strtokR (word ++ [0]) (some 0) (ascii "=") 0
  let (value, _, buf) ← strtokR buf none [] savePtr
  let string := fun s ↦ (buf.drop s).takeWhile (· ≠ 0)
  return (string (← name), value.map string)

/-- One round of `parse_options`. -/
def parseOption (o : Options) (word : List UInt8) : Kernel Options := do
  let (name, value) ← splitOption word
  -- `usage` does not return.
  if name = ascii "-h" then none
  else if name = ascii "-q" then return { o with reboot := some false }
  else if name = ascii "-r" then return { o with reboot := some true }
  else if name = ascii "-f" then return { o with formatFilesys := true }
  else if name = ascii "-filesys" then return { o with filesysBdevName := value }
  else if name = ascii "-scratch" then return { o with scratchBdevName := value }
  else if name = ascii "-swap" then return { o with swapBdevName := value }
  else if name = ascii "-rs" then return { o with random := randomInit (ofInt32 (atoi (← value))) }
  else if name = ascii "-mlfqs" then return { o with mlfqs := true }
  else if name = ascii "-ul" then return { o with userPageLimit := ofInt32 (atoi (← value)) }
  else none

/-- Whether `parse_options` goes on with a word. -/
def isOption (word : List UInt8) : Bool := word.head? == some '-'.toUInt8

/-- `parse_options` from what was set before, with what `rtc_get_time` returns: what is set, and the
first argument that is not an option and those behind it. -/
def parseOptions (o : Options) (argv : List (List UInt8)) (time : Nat) :
    Kernel (Options × List (List UInt8)) := do
  let o ← (argv.takeWhile isOption).foldlM parseOption o
  return ({ o with random := randomInit time }, argv.dropWhile isOption)

/-! ## The seed -/

/-- The seed of a word, if this is an `-rs` option. -/
def seedOf (word : List UInt8) : Option Nat := do
  let (name, value) ← splitOption word
  if name = ascii "-rs" then value.map fun value ↦ ofInt32 (atoi value) else none

/-- The seed of the last `-rs` option. -/
def lastSeed (argv : List (List UInt8)) : Option Nat :=
  ((argv.takeWhile isOption).filterMap seedOf).getLast?

theorem parseOptions_eq_some {o : Options} {argv : List (List UInt8)} {time : Nat}
    {r : Options × List (List UInt8)} : parseOptions o argv time = some r ↔
      ∃ o₁, (argv.takeWhile isOption).foldlM parseOption o = some o₁ ∧
        r = ({ o₁ with random := randomInit time }, argv.dropWhile isOption) := by
  rw [parseOptions, bind_eq_some]
  exact exists_congr fun o₁ ↦ and_congr_right fun _ ↦ pure_eq_some.trans eq_comm

/-- The state of the generator and every later output are those of the last seed, at either time.
What `random_ulong` returns are four bytes. -/
def SeedDecides (o : Options) (argv : List (List UInt8)) (time time' : Nat) : Prop :=
  ∀ seed, lastSeed argv = some seed → ∀ r r', parseOptions o argv time = some r →
    parseOptions o argv time' = some r' → r.1.random = randomInit seed ∧
      r'.1.random = randomInit seed ∧ ∀ size, randomBytes r.1.random size =
        randomBytes (randomInit seed) size ∧ randomBytes r'.1.random size =
        randomBytes (randomInit seed) size

/-- **A seed on the command line decides exactly if the time of day seeds the generator alike.** -/
theorem seed_decides_iff (o : Options) (argv : List (List UInt8)) (time time' : Nat) :
    SeedDecides o argv time time' ↔ ∀ seed, lastSeed argv = some seed →
      ((argv.takeWhile isOption).foldlM parseOption o).isSome →
        randomInit time = randomInit seed ∧ randomInit time' = randomInit seed := by
  refine forall₂_congr fun seed _ ↦ ⟨fun h hloop ↦ ?_, fun h r r' hr hr' ↦ ?_⟩
  · obtain ⟨o₁, hloop⟩ := Option.isSome_iff_exists.mp hloop
    obtain ⟨hstate, hstate', -⟩ := h _ _ (parseOptions_eq_some.mpr ⟨o₁, hloop, rfl⟩)
      (parseOptions_eq_some.mpr ⟨o₁, hloop, rfl⟩)
    exact ⟨hstate, hstate'⟩
  · obtain ⟨o₁, hloop, rfl⟩ := parseOptions_eq_some.mp hr
    obtain ⟨o₂, -, rfl⟩ := parseOptions_eq_some.mp hr'
    obtain ⟨hstate, hstate'⟩ := h (Option.isSome_iff_exists.mpr ⟨o₁, hloop⟩)
    rw [hstate, hstate']
    exact ⟨rfl, rfl, fun _ ↦ ⟨rfl, rfl⟩⟩

/-- **The seed is lost.**  On 1 February 1970, `-rs=1` leaves a generator whose first byte is
another one. -/
theorem seed_overwritten : lastSeed [ascii "-rs=1"] = some 1 ∧ ∀ o, ∃ r,
    parseOptions o [ascii "-rs=1"] 2678400 = some r ∧
      (randomBytes r.1.random 1).1 ≠ (randomBytes (randomInit 1) 1).1 := by
  refine ⟨by decide +kernel, fun o ↦ ⟨_, parseOptions_eq_some.mpr ⟨_, rfl, rfl⟩, ?_⟩⟩
  dsimp only
  decide +kernel

/-! ## The command line -/

/-- `LOADER_ARGS_LEN`. -/
abbrev loaderArgsLen : Nat := 128

/-- `strnlen`.  The byte behind the last one is read, too, and does not count. -/
def strnlen (mem : Nat → UInt8) (string : Nat) : Nat → Nat
  | 0 => 0
  | maxlen + 1 => if mem string ≠ 0 then strnlen mem (string + 1) maxlen + 1 else 0

/-- The first loop of `read_command_line`, with `n` arguments to go: the elements of `argv` that are
stored.  The argument area is at offset 0. -/
def readArgs (mem : Nat → UInt8) : Nat → Nat → Nat → Kernel (List (Int × Option Nat))
  | 0, _, _ => some []
  | n + 1, i, p =>
    if p ≥ loaderArgsLen then none
    else do
      let argv ← readArgs mem n (i + 1) (p + strnlen mem p (loaderArgsLen - p) + 1)
      return ((i : Int), some p) :: argv

/-- `read_command_line`: the elements of `argv` that are stored. -/
def readCommandLine (mem : Nat → UInt8) (argCnt : UInt32) : Kernel (List (Int × Option Nat)) := do
  let argc := argCnt.toInt32.toInt
  let argv ← readArgs mem argc.toNat 0 0
  return argv ++ [(argc, none)]

/-- The string at an offset ends in the argument area. -/
def EndsInArea (mem : Nat → UInt8) (p : Nat) : Prop := ∃ j, p ≤ j ∧ j < loaderArgsLen ∧ mem j = 0

/-- What is stored in `argv` fits there, and what it points to is in the argument area.  `argv` has
`LOADER_ARGS_LEN / 2 + 1` elements. -/
def ArgvFits (mem : Nat → UInt8) (argv : List (Int × Option Nat)) : Prop :=
  ∀ e ∈ argv, 0 ≤ e.1 ∧ e.1 < 65 ∧ ∀ p ∈ e.2, p < loaderArgsLen ∧ EndsInArea mem p

/-- The number of null bytes in a range. -/
def zeros (mem : Nat → UInt8) (p n : Nat) : Nat := (List.range' p n).countP (mem · == 0)

variable (mem : Nat → UInt8)

/-- A string ends at the first null byte, or there is none. -/
theorem strnlen_spec (p n : Nat) : (∃ k, strnlen mem p n = k ∧ k < n ∧ mem (p + k) = 0 ∧
      zeros mem p n = zeros mem (p + k + 1) (n - k - 1) + 1) ∨
    strnlen mem p n = n ∧ zeros mem p n = 0 := by
  induction n generalizing p with
  | zero => exact .inr ⟨rfl, rfl⟩
  | succ n ih =>
    rw [strnlen, zeros, range'_succ, countP_cons]
    by_cases hp : mem p = 0
    · refine .inl ⟨0, by simp [hp], Nat.succ_pos n, hp, ?_⟩
      simp [hp, zeros]
    · simp only [hp, ne_eq, not_false_eq_true, if_true, beq_iff_eq, if_false, Nat.add_zero]
      rcases ih (p + 1) with ⟨k, hlen, hk, hzero, hcount⟩ | ⟨hlen, hcount⟩
      · have hnext : p + (k + 1) = p + 1 + k := by omega
        refine .inl ⟨k + 1, by rw [hlen], by omega, by rwa [hnext], ?_⟩
        rw [zeros] at hcount
        rw [hcount, hnext, Nat.add_sub_add_right]
      · exact .inr ⟨by rw [hlen], hcount⟩

/-- The number of null bytes decides how far the loop comes: it stores only strings that end in the
area, or the last one does not, or it panics. -/
theorem readArgs_spec (n i p : Nat) (hp : p < loaderArgsLen ∨ p = loaderArgsLen ∧ mem 127 = 0) :
    (n ≤ zeros mem p (loaderArgsLen - p) → ∃ argv, readArgs mem n i p = some argv ∧
      ∀ e ∈ argv, (i : Int) ≤ e.1 ∧ e.1 < i + n ∧ ∀ q ∈ e.2, EndsInArea mem q) ∧
    (n = zeros mem p (loaderArgsLen - p) + 1 → mem 127 ≠ 0 →
      ∃ argv, readArgs mem n i p = some argv ∧ ∃ e ∈ argv, ∃ q ∈ e.2, ¬ EndsInArea mem q) ∧
    (zeros mem p (loaderArgsLen - p) + (if mem 127 = 0 then 0 else 1) < n →
      readArgs mem n i p = none) := by
  induction n generalizing i p with
  | zero => exact ⟨fun _ ↦ ⟨[], rfl, nofun⟩, nofun, nofun⟩
  | succ n ih =>
    rcases hp with hp | ⟨rfl, hlast⟩
    · rw [readArgs, if_neg (Nat.not_le.mpr hp)]
      rcases strnlen_spec mem p (loaderArgsLen - p) with
        ⟨k, hlen, hk, hzero, hcount⟩ | ⟨hlen, hcount⟩
      · have hnext : p + k + 1 < loaderArgsLen ∨
            p + k + 1 = loaderArgsLen ∧ mem 127 = 0 := by
          rcases Nat.lt_or_eq_of_le (show p + k + 1 ≤ loaderArgsLen by omega) with hlt | heq
          · exact .inl hlt
          · exact .inr ⟨heq, Nat.succ.inj heq ▸ hzero⟩
        have hrest : loaderArgsLen - p - k - 1 = loaderArgsLen - (p + k + 1) := by omega
        obtain ⟨hends, hopen, hnone⟩ := ih (i + 1) (p + k + 1) hnext
        rw [hlen, hcount, hrest]
        refine ⟨fun hn ↦ ?_, fun hn hlast ↦ ?_, fun hn ↦ ?_⟩
        · obtain ⟨argv, hargv, hall⟩ := hends (by omega)
          rw [hargv]
          refine ⟨_, rfl, forall_mem_cons.mpr ⟨⟨by simp, by simp, ?_⟩, fun e he ↦ ?_⟩⟩
          · rintro q ⟨⟩
            exact ⟨p + k, Nat.le_add_right .., by omega, hzero⟩
          · obtain ⟨hlow, hhigh, hstr⟩ := hall e he
            exact ⟨by omega, by omega, hstr⟩
        · obtain ⟨argv, hargv, e, he, hbad⟩ := hopen (by omega) hlast
          rw [hargv]
          exact ⟨_, rfl, e, mem_cons_of_mem _ he, hbad⟩
        · rw [hnone (by omega)]
          rfl
      · have hno : ¬ EndsInArea mem p := by
          rintro ⟨j, hj, hlt, hzero⟩
          rw [zeros, countP_eq_zero] at hcount
          exact hcount j (mem_range'_1.mpr (by omega)) (by simpa using hzero)
        have hlast : mem 127 ≠ 0 :=
          fun hzero ↦ hno ⟨_, Nat.le_sub_one_of_lt hp, by omega, hzero⟩
        rw [hlen, hcount, if_neg hlast]
        refine ⟨nofun, fun hn _ ↦ ?_, fun hn ↦ ?_⟩
        · obtain rfl : n = 0 := by omega
          exact ⟨_, rfl, _, mem_cons_self, p, rfl, hno⟩
        · obtain ⟨n, rfl⟩ := Nat.exists_eq_succ_of_ne_zero (show n ≠ 0 by omega)
          rw [readArgs, if_pos (by omega)]
          rfl
    · rw [readArgs, if_pos (Nat.le_refl _)]
      exact ⟨nofun, fun _ hno ↦ absurd hlast hno, fun _ ↦ rfl⟩

/-- **The arguments of the kernel fit** exactly if their number is at most 64 and at most the number
of null bytes in the area, or else is so large that the loop panics. -/
theorem boot_arguments_fit_iff (argCnt : UInt32) :
    (∀ argv, readCommandLine mem argCnt = some argv → ArgvFits mem argv) ↔
      (0 ≤ argCnt.toInt32.toInt ∧ argCnt.toInt32.toInt ≤ 64 ∧
        argCnt.toInt32.toInt ≤ zeros mem 0 loaderArgsLen) ∨
      (zeros mem 0 loaderArgsLen + (if mem 127 = 0 then 0 else 1) : Nat) <
        argCnt.toInt32.toInt := by
  rw [readCommandLine]
  generalize argCnt.toInt32.toInt = argc
  obtain ⟨hends, hopen, hnone⟩ := readArgs_spec mem argc.toNat 0 0 (.inl (by decide))
  rw [Nat.sub_zero] at hends hopen hnone
  constructor
  · intro h
    by_contra hno
    rcases Nat.lt_or_ge (zeros mem 0 loaderArgsLen) argc.toNat with hgt | hle
    · have hlast : mem 127 ≠ 0 := fun hzero ↦ by
        rw [if_pos hzero] at hno
        omega
      rw [if_neg hlast] at hno
      obtain ⟨argv, hargv, e, he, q, hq, hbad⟩ := hopen (by omega) hlast
      obtain ⟨-, -, hstr⟩ := h _ (by rw [hargv]; rfl) e (mem_append_left _ he)
      exact hbad (hstr q hq).2
    · -- the null pointer at the end does not fit
      obtain ⟨argv, hargv, -⟩ := hends hle
      obtain ⟨hlow, hhigh, -⟩ := h _ (by rw [hargv]; rfl) (argc, none) (by simp)
      omega
  · rintro (⟨hpos, hmax, hle⟩ | hpanic) argv hrun
    · obtain ⟨argv', hargv, hall⟩ := hends (by omega)
      rw [hargv] at hrun
      obtain rfl := Option.some.inj hrun
      intro e he
      rcases mem_append.mp he with he | he
      · obtain ⟨hlow, hhigh, hstr⟩ := hall e he
        refine ⟨by omega, by omega, fun q hq ↦ ?_⟩
        obtain ⟨j, hqj, hj, hzero⟩ := hstr q hq
        exact ⟨by omega, j, hqj, hj, hzero⟩
      · obtain rfl := mem_singleton.mp he
        exact ⟨hpos, by simp only; omega, nofun⟩
    · rw [hnone (by omega)] at hrun
      cases hrun

/-- **65 empty arguments overflow `argv`.** -/
theorem boot_arguments_overflow : ∃ argv, readCommandLine (fun _ ↦ 0) 65 = some argv ∧
    (65, none) ∈ argv ∧ ¬ ArgvFits (fun _ ↦ 0) argv := by
  refine ⟨_, rfl, by decide +kernel, fun h ↦ ?_⟩
  obtain ⟨-, hhigh, -⟩ := h (65, none) (by decide +kernel)
  exact absurd hhigh (by decide)

end Pintos
