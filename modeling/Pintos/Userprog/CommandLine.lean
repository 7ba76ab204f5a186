import Pintos.Userprog.Arguments

/-!
# Command lines that are too long

`process_execute` passes on up to 4095 bytes, and neither `parse_filename` nor `construct_ESP` nor
`load` asks whether they fit: 128 words into `argu_list`, the words and their addresses into the
page of the stack, the name of the program into the 16 bytes of `name`.  What happens if they do is
shown in `Pintos.Userprog.Arguments`.  This is the converse.

* `UserStack.constructEsp_lowered` — what `construct_ESP` has stored is where the room was;
* `arguments_in_bounds_iff` — which command lines stay within `argu_list`, `addr` and the stack;
* `ThreadField` — where the members of `struct thread` are;
* `load_keeps_thread_iff` — which command lines leave the other members of `struct thread` alone.
-/

set_option autoImplicit false

namespace Pintos

open List

/-- A word is no longer than the line. -/
theorem length_le_of_mem_tokens {word string : List UInt8} (h : word ∈ tokens [32] string) :
    word.length ≤ string.length := by
  induction hn : string.length using Nat.strongRecOn generalizing string with
  | ind n ih =>
    obtain ⟨d, t, l, rfl, hd, ht, hl, hend⟩ := exists_delimiters [32] string
    rw [tokens_delimiters hd] at h
    rw [length_append, length_append] at hn
    by_cases hne : t = []
    · subst hne
      obtain rfl := hend rfl
      cases h
    · rw [tokens_token hne ht hl, mem_cons] at h
      have hpos : 0 < t.length := length_pos_iff.mpr hne
      have htail : l.tail.length ≤ l.length := by simp
      rcases h with rfl | h
      · omega
      · have := ih l.tail.length (by omega) h rfl
        omega

/-! ## The stack -/

variable {bytes : List UInt8}

namespace UserStack

variable {st st' : UserStack} {n m : Nat}

/-- `*esp` has been lowered by `n`, and is still on the page. -/
structure Lowered (st st' : UserStack) (n : Nat) : Prop where
  esp : st'.esp + n = st.esp
  room : st'.Room 0

theorem Lowered.trans {st1 : UserStack} (h : Lowered st st1 n) (h' : Lowered st1 st' m) :
    Lowered st st' (n + m) := by
  have hesp := h.esp
  have hesp' := h'.esp
  exact ⟨by omega, h'.room⟩

theorem Lowered.start (h : Lowered st st' n) (hroom : st.Room 0) : st.Room n := by
  have hesp := h.esp
  obtain ⟨hlo, -⟩ := h.room
  exact ⟨by omega, hroom.2⟩

/-- Bytes have been stored where there was room for them. -/
theorem push_lowered (h : st.push bytes = some st') (hroom : st.Room 0)
    (hlen : bytes.length ≤ pgSize) : Lowered st st' bytes.length := by
  simp only [push, bind_eq_some, assert_eq_some, pure_eq_some] at h
  obtain ⟨-, ⟨hlo, hhi⟩, rfl⟩ := h
  obtain ⟨hlo', hhi'⟩ := hroom
  simp only [physBase, pgSize] at *
  refine ⟨?_, ?_, ?_⟩
  · dsimp only
    omega
  · simp only [physBase, pgSize]
    omega
  · simp only [physBase]
    omega

theorem pushWord_lowered {v : Nat} (h : st.push (wordBytes v) = some st') (hroom : st.Room 0) :
    Lowered st st' 4 :=
  push_lowered h hroom (show 4 ≤ 4096 by omega)

theorem copyArgs_lowered {arguList : List (List UInt8)} {addr : List Nat}
    (h : st.copyArgs arguList = some (addr, st')) (hroom : st.Room 0)
    (hlen : ∀ argu ∈ arguList, argu.length + 1 ≤ pgSize) :
    Lowered st st' (arguList.map fun argu ↦ argu.length + 1).sum ∧
      addr.length = arguList.length := by
  induction arguList generalizing addr st' with
  | nil =>
    cases h
    exact ⟨⟨rfl, hroom⟩, rfl⟩
  | cons argu arguList ih =>
    simp only [copyArgs, bind_eq_some, Prod.exists, pure_eq_some, Prod.mk.injEq] at h
    obtain ⟨addr, st1, hcopy, st2, hpush, rfl, rfl⟩ := h
    obtain ⟨h1, hlength⟩ := ih hcopy fun a ha ↦ hlen a (mem_cons_of_mem _ ha)
    have hargu : (argu ++ [0]).length = argu.length + 1 := by simp
    have h2 := push_lowered hpush h1.room (hargu ▸ hlen argu mem_cons_self)
    rw [map_cons, sum_cons, Nat.add_comm, length_cons, length_cons, hlength]
    exact ⟨hargu ▸ h1.trans h2, rfl⟩

theorem pushZeros_lowered (h : pushZeros n st = some st') (hroom : st.Room 0) :
    Lowered st st' n := by
  induction n generalizing st with
  | zero =>
    cases h
    exact ⟨rfl, hroom⟩
  | succ n ih =>
    rw [pushZeros, bind_eq_some] at h
    obtain ⟨st1, hpush, h⟩ := h
    have h1 := push_lowered hpush hroom (by simp)
    exact Nat.add_comm n 1 ▸ h1.trans (ih h h1.room)

theorem pad_lowered {total : Nat} (h : st.pad total = some st') (hroom : st.Room 0) :
    Lowered st st' ((total + 3) / 4 * 4 - total) := by
  rw [pad] at h
  split at h
  · have hpad : 4 - total % 4 = (total + 3) / 4 * 4 - total := by omega
    exact hpad ▸ pushZeros_lowered h hroom
  · have hpad : (total + 3) / 4 * 4 - total = 0 := by omega
    cases h
    exact hpad ▸ ⟨rfl, hroom⟩

theorem pushAddrs_lowered {addr : List Nat} (h : st.pushAddrs addr = some st')
    (hroom : st.Room 0) : Lowered st st' (4 * addr.length) := by
  induction addr generalizing st' with
  | nil =>
    cases h
    exact ⟨rfl, hroom⟩
  | cons a addr ih =>
    obtain ⟨st1, haddr, hpush⟩ := Option.bind_eq_some_iff.mp h
    have h1 := ih haddr
    exact h1.trans (pushWord_lowered hpush h1.room)

/-- **`construct_ESP` has stored everything where there was room.** -/
theorem constructEsp_lowered {arguList : List (List UInt8)}
    (h : st.constructEsp arguList = some st') (hroom : st.Room 0)
    (hlen : ∀ argu ∈ arguList, argu.length + 1 ≤ pgSize) :
    arguList.length ≤ 128 ∧ Lowered st st' (layoutSize arguList) := by
  simp only [constructEsp, bind_eq_some, Prod.exists, assert_eq_some] at h
  obtain ⟨-, hn, addr, st1, hcopy, st2, hpad, st3, hnull, st4, haddr, st5, hargv, st6, hargc,
    hret⟩ := h
  obtain ⟨h1, hlength⟩ := copyArgs_lowered hcopy hroom hlen
  have h2 := pad_lowered hpad h1.room
  have h3 := pushWord_lowered hnull h2.room
  have h4 := pushAddrs_lowered haddr h3.room
  have h5 := pushWord_lowered hargv h4.room
  have h6 := pushWord_lowered hargc h5.room
  have h7 := pushWord_lowered hret h6.room
  have hall := (((((h1.trans h2).trans h3).trans h4).trans h5).trans h6).trans h7
  refine ⟨hn, ?_⟩
  rw [layoutSize]
  convert hall using 1
  omega

end UserStack

/-! ## The bounds -/

/-- What comes before `construct_ESP` in `load`: the page directory, the file, its headers and the
stack. -/
inductive Prepared where
  | failed
  | stack
  /-- `setup_stack` has returned true without a page, since `alloc_page` had no memory. -/
  | noStack
  deriving DecidableEq, Repr

/-- What `load` does with the arguments. -/
def loadArguments (fileName : List UInt8) (oracle : List Bool) (prepared : Prepared)
    (st : UserStack) : Kernel (Bool × UserStack) := do
  let parse ← parseFilename fileName oracle
  match prepared with
  | .failed => return (false, st)
  | .stack => return (true, ← st.constructEsp parse.arguList)
  | .noStack => none

/-- **The arguments stay within their buffers**, if and only if the line has at most 128 words,
there is memory for them, and, unless `load` fails before it gets there, there is a page for the
stack and they fit on it. -/
theorem arguments_in_bounds_iff {line : List UInt8} (rest : List UInt8) (oracle : List Bool)
    (prepared : Prepared) (mem : Buffer) (hline : 0 ∉ line) (hlen : line.length ≤ 4095) :
    Returns (loadArguments (line ++ 0 :: rest) oracle prepared ⟨stackTop, mem⟩) (fun r ↦
      r.1 = decide (prepared = .stack) ∧
        ∀ a, a < physBase - pgSize ∨ physBase ≤ a → r.2.mem a = mem a) ↔
    Parsable line oracle ∧ prepared ≠ .noStack ∧
      (prepared = .stack → UserStack.layoutSize (tokens [32] line) ≤ 4084) := by
  have hroom : UserStack.Room ⟨stackTop, mem⟩ 0 := by
    simp only [UserStack.Room, stackTop, physBase, pgSize]
    omega
  have hfits : UserStack.Room ⟨stackTop, mem⟩ (UserStack.layoutSize (tokens [32] line)) ↔
      UserStack.layoutSize (tokens [32] line) ≤ 4084 := by
    simp only [UserStack.Room, stackTop, physBase, pgSize]
    omega
  have hwords : ∀ word ∈ tokens [32] line, word.length + 1 ≤ pgSize := by
    intro word hword
    have := length_le_of_mem_tokens hword
    simp only [pgSize]
    omega
  obtain ⟨hnone, hsome⟩ := parseFilename_spec rest oracle hline
  by_cases hparse : Parsable line oracle
  swap
  · refine iff_of_false ?_ fun h ↦ hparse h.1
    rintro ⟨r, hr, -⟩
    rw [loadArguments, hnone hparse] at hr
    cases hr
  rw [and_iff_right hparse]
  obtain ⟨parse, heq, hlist, -⟩ := hsome hparse
  rw [loadArguments, heq]
  cases prepared with
  | failed => exact iff_of_true (.pure ⟨rfl, fun _ _ ↦ rfl⟩) ⟨by decide, by rintro ⟨⟩⟩
  | noStack =>
    refine iff_of_false ?_ fun h ↦ h.1 rfl
    rintro ⟨r, hr, -⟩
    cases hr
  | stack =>
    rw [and_iff_right (by decide), forall_prop_of_true rfl, ← hfits]
    constructor
    · rintro ⟨r, hr, -⟩
      dsimp only [some_bind] at hr
      rw [hlist] at hr
      obtain ⟨st, hst, -⟩ := Option.bind_eq_some_iff.mp hr
      exact (UserStack.constructEsp_lowered hst hroom hwords).2.start hroom
    · intro hfit
      obtain ⟨st, hst, hpushed, -⟩ := UserStack.constructEsp_returns hparse.1 hfit
      refine ⟨(true, st), ?_, rfl, fun a ha ↦ ?_⟩
      · dsimp only [some_bind]
        rw [hlist, hst]
        rfl
      · have hesp : st.esp + UserStack.layoutSize (tokens [32] line) = stackTop := hpushed.esp
        obtain ⟨hlo, -⟩ := hfit
        simp only [stackTop, physBase, pgSize] at *
        rcases ha with ha | ha
        · exact hpushed.below a (by omega)
        · exact hpushed.above a (by dsimp only; omega)

/-- The line `a a … a`, of `n` words. -/
def manyWords (n : Nat) : List UInt8 := (List.replicate n [97, 32]).flatten

theorem tokens_manyWords (n : Nat) : tokens [32] (manyWords n) = List.replicate n [97] := by
  induction n with
  | zero => rfl
  | succ n ih =>
    have hcons : manyWords (n + 1) = [97] ++ (32 :: manyWords n) := rfl
    rw [hcons, tokens_token (by simp) (by simp) (by simp), tail_cons, ih]
    rfl

theorem length_manyWords (n : Nat) : (manyWords n).length = 2 * n := by
  induction n with
  | zero => rfl
  | succ n ih =>
    have hcons : manyWords (n + 1) = 97 :: 32 :: manyWords n := rfl
    rw [hcons, length_cons, length_cons, ih]
    omega

/-- 128 words are passed. -/
theorem arguments_in_bounds_iff_words :
    Returns (loadArguments (manyWords 128 ++ 0 :: []) [] .stack ⟨stackTop, fun _ ↦ 0⟩) fun r ↦
      r.1 = true ∧ ∀ a, a < physBase - pgSize ∨ physBase ≤ a → r.2.mem a = 0 := by
  have hlength : (tokens [32] (manyWords 128)).length = 128 := by
    rw [tokens_manyWords, length_replicate]
  refine (arguments_in_bounds_iff [] [] .stack (fun _ ↦ 0) (by decide)
    (by rw [length_manyWords]; omega)).mpr
    ⟨⟨Nat.le_of_eq hlength, succeeds_nil _⟩, by decide, fun _ ↦ ?_⟩
  rw [tokens_manyWords]
  simp [UserStack.layoutSize]

/-- The 129th word is stored behind the end of `argu_list`. -/
theorem arguments_overflow : (tokens [32] (manyWords 129)).length = 129 ∧
    loadArguments (manyWords 129 ++ 0 :: []) [] .stack ⟨stackTop, fun _ ↦ 0⟩ = none := by
  have hlength : (tokens [32] (manyWords 129)).length = 129 := by
    rw [tokens_manyWords, length_replicate]
  refine ⟨hlength, ?_⟩
  rw [loadArguments, (parseFilename_spec [] [] (by decide)).1 fun h ↦ ?_]
  · rfl
  · exact absurd h.1 (by rw [hlength]; decide)

/-! ## The thread -/

/-- The members of `struct thread`, in their order. -/
inductive ThreadField where
  | tid
  | status
  | name
  | stack
  | priority
  | allelem
  | elem
  | pagedir
  | childTlist
  | childElem
  | isLoaded
  | exitStatus
  | semaWait
  | semaLoad
  | semaElim
  | fdNum
  | fdTab
  | execFile
  | magic
  | wakeUpTick
  | nice
  | recentCpu
  | supPageTab
  deriving DecidableEq, Repr

namespace ThreadField

/-- The number of bytes of a member: a `struct list_elem` has 8, a `struct list` 16, a
`struct semaphore` 20 and a `struct hash` 24. -/
def size : ThreadField → Nat
  | .name => 16
  | .allelem | .elem | .childElem | .wakeUpTick => 8
  | .childTlist => 16
  | .semaWait | .semaLoad | .semaElim => 20
  | .fdTab => 4 * 128
  | .supPageTab => 24
  | _ => 4

/-- The members in their order. -/
def all : List ThreadField :=
  [.tid, .status, .name, .stack, .priority, .allelem, .elem, .pagedir, .childTlist, .childElem,
    .isLoaded, .exitStatus, .semaWait, .semaLoad, .semaElim, .fdNum, .fdTab, .execFile, .magic,
    .wakeUpTick, .nice, .recentCpu, .supPageTab]

/-- Where a member begins: there is nothing between them. -/
def offset (f : ThreadField) : Nat := ((all.takeWhile (· ≠ f)).map size).sum

/-- `load` may change it. -/
def loaded : ThreadField → Bool
  | .name | .pagedir | .execFile | .supPageTab => true
  | _ => false

theorem mem_all (f : ThreadField) : f ∈ all := by
  cases f <;> decide

/-- The members do not overlap. -/
theorem apart {f g : ThreadField} (h : f ≠ g) :
    f.offset + f.size ≤ g.offset ∨ g.offset + g.size ≤ f.offset := by
  have hall : ∀ f ∈ all, ∀ g ∈ all, f ≠ g →
      f.offset + f.size ≤ g.offset ∨ g.offset + g.size ≤ f.offset := by decide +kernel
  exact hall f (mem_all f) g (mem_all g) h

end ThreadField

/-- Bytes are stored. -/
def storeBytes (mem : Buffer) (a : Nat) (bytes : List UInt8) : Buffer := fun o ↦
  if a ≤ o then bytes.getD (o - a) (mem o) else mem o

section

variable {mem : Buffer} {bytes : List UInt8} {a i : Nat} {f g : ThreadField}

theorem storeBytes_of_outside {o : Nat} (h : o < a ∨ a + bytes.length ≤ o) :
    storeBytes mem a bytes o = mem o := by
  rw [storeBytes]
  split
  · exact getD_eq_default _ _ (by omega)
  · rfl

theorem storeBytes_of_lt (h : i < bytes.length) : storeBytes mem a bytes (a + i) = bytes[i] := by
  rw [storeBytes, if_pos (Nat.le_add_right a i), Nat.add_sub_cancel_left,
    getD_eq_getElem _ _ h]

/-- A member that has room for the bytes is written, and another one is not changed. -/
theorem storeBytes_field (hne : g ≠ f) (hbytes : bytes.length ≤ f.size) (hi : i < g.size) :
    storeBytes mem f.offset bytes (g.offset + i) = mem (g.offset + i) := by
  have := ThreadField.apart hne
  exact storeBytes_of_outside (by omega)

theorem le32_storeBytes (hne : g ≠ f) (hbytes : bytes.length ≤ f.size) (hg : g.size = 4) :
    le32 (storeBytes mem f.offset bytes) g.offset = le32 mem g.offset := by
  have hbyte (i : Nat) (hi : i < 4) :
      storeBytes mem f.offset bytes (g.offset + i) = mem (g.offset + i) :=
    storeBytes_field hne hbytes (hg ▸ hi)
  have h0 := hbyte 0 (by omega)
  rw [Nat.add_zero] at h0
  rw [le32, le32, h0, hbyte 1 (by omega), hbyte 2 (by omega), hbyte 3 (by omega)]

end

/-- `THREAD_MAGIC`. -/
abbrev threadMagic : Nat := 0xcd6abf4b

/-- The assertions of `thread_current`; `THREAD_RUNNING` is zero. -/
def isCurrent (mem : Buffer) : Prop :=
  le32 mem ThreadField.magic.offset = threadMagic ∧ le32 mem ThreadField.status.offset = 0

instance (mem : Buffer) : Decidable (isCurrent mem) := inferInstanceAs (Decidable (_ ∧ _))

/-- What `load` does not decide itself. -/
structure LoadChoices where
  /-- What `pagedir_create` returns. -/
  pagedir : Nat
  /-- The calls of `malloc` in `parse_filename`. -/
  oracle : List Bool
  /-- What `filesys_open` returns. -/
  file : Nat
  /-- The 24 bytes of `sup_page_tab`, after `insert_pge` has been called for the segments and the
  stack. -/
  supPageTab : Fin 24 → UInt8
  /-- Everything after `filesys_open` succeeds. -/
  success : Bool

/-- What `load` stores to the `struct thread` at `mem`, once the name of the program is known. -/
def loadNamed (mem : Buffer) (name : List UInt8) (c : LoadChoices) : Kernel (Bool × Buffer) := do
  -- `strlcpy (t->name, file_name, strlen (file_name) + 1)`
  let mem := storeBytes mem ThreadField.name.offset (name ++ [0])
  -- `lock_acquire (&_lock_for_file)`
  assert (isCurrent mem)
  if c.file = 0 then return (false, mem)
  let mem := storeBytes mem ThreadField.execFile.offset (wordBytes c.file)
  let mem := storeBytes mem ThreadField.supPageTab.offset (List.ofFn c.supPageTab)
  return (c.success, mem)

/-- What `load` stores to the `struct thread` at `mem`. -/
def loadThread (mem : Buffer) (fileName : List UInt8) (c : LoadChoices) :
    Kernel (Bool × Buffer) := do
  assert (isCurrent mem)
  let mem := storeBytes mem ThreadField.pagedir.offset (wordBytes c.pagedir)
  if c.pagedir = 0 then return (false, mem)
  let parse ← parseFilename fileName c.oracle
  let name ← stringAt parse.fileName 0
  loadNamed mem name c

/-- What `load` leaves of the thread: the other members, and the name. -/
structure KeepsThread (mem mem' : Buffer) (line : List UInt8) (named : Bool) : Prop where
  other : ∀ f : ThreadField, f.loaded = false → ∀ i < f.size,
    mem' (f.offset + i) = mem (f.offset + i)
  /-- `name` is as before if `load` has not got there, and then it is the name of the program, cut
  off after 15 characters. -/
  name : if named then StringIn mem' ThreadField.name.offset ((programName line).take 15)
    else ∀ i < ThreadField.name.size,
      mem' (ThreadField.name.offset + i) = mem (ThreadField.name.offset + i)

variable {line : List UInt8} {mem' : Buffer}

section

variable {mem : Buffer}

theorem ThreadField.ne_of_loaded {f g : ThreadField} (hf : f.loaded = true)
    (hg : g.loaded = false) : g ≠ f := by
  rintro rfl
  rw [hf] at hg
  cases hg

theorem isCurrent_storeBytes {f : ThreadField} (hf : f.loaded = true)
    (hbytes : bytes.length ≤ f.size) (h : isCurrent mem) :
    isCurrent (storeBytes mem f.offset bytes) := by
  have hmagic : ThreadField.magic ≠ f := ThreadField.ne_of_loaded hf rfl
  have hstatus : ThreadField.status ≠ f := ThreadField.ne_of_loaded hf rfl
  rw [isCurrent, le32_storeBytes hmagic hbytes rfl, le32_storeBytes hstatus hbytes rfl]
  exact h

theorem KeepsThread.refl (mem : Buffer) (line : List UInt8) : KeepsThread mem mem line false :=
  ⟨fun _ _ _ _ ↦ rfl, fun _ _ ↦ rfl⟩

/-- A member that `load` may change, other than `name`, and that has room for what is stored. -/
theorem KeepsThread.store {named : Bool}
    {f : ThreadField} (h : KeepsThread mem mem' line named) (hf : f.loaded = true)
    (hname : .name ≠ f) (hbytes : bytes.length ≤ f.size) :
    KeepsThread mem (storeBytes mem' f.offset bytes) line named := by
  refine ⟨fun g hg i hi ↦ ?_, ?_⟩
  · rw [storeBytes_field (ThreadField.ne_of_loaded hf hg) hbytes hi, h.other g hg i hi]
  · have hold := h.name
    cases named with
    | false =>
      intro i hi
      rw [storeBytes_field hname hbytes hi]
      exact hold i hi
    | true =>
      obtain ⟨hno, hstored⟩ := hold
      refine ⟨hno, fun i hi ↦ ?_⟩
      have hlt : i < ThreadField.name.size := by
        rw [length_append, length_take, length_singleton] at hi
        simp only [ThreadField.size]
        omega
      rw [storeBytes_field hname hbytes hlt]
      exact hstored i hi

/-- The name is stored, where there is room for it. -/
theorem KeepsThread.store_name {named : Bool}
    (h : KeepsThread mem mem' line named) (hline : 0 ∉ programName line)
    (hlen : (programName line).length ≤ 15) :
    KeepsThread mem (storeBytes mem' ThreadField.name.offset (programName line ++ [0])) line
      true := by
  have hsize : (programName line ++ [0]).length ≤ ThreadField.name.size := by
    rw [length_append, length_singleton]
    simp only [ThreadField.size]
    omega
  refine ⟨fun g hg i hi ↦ ?_, ?_⟩
  · rw [storeBytes_field (ThreadField.ne_of_loaded rfl hg) hsize hi, h.other g hg i hi]
  · rw [if_pos rfl, take_of_length_le hlen]
    exact ⟨hline, fun i hi ↦ storeBytes_of_lt hi⟩

/-- A name that is too long does not end within the 16 bytes. -/
theorem KeepsThread.length_le (h : KeepsThread mem mem' line true) (hline : 0 ∉ programName line)
    (hname : ∀ i (hi : i < (programName line).length), i < ThreadField.name.size →
      mem' (ThreadField.name.offset + i) = (programName line)[i]) :
    (programName line).length ≤ 15 := by
  by_contra hlong
  obtain ⟨-, hstored⟩ := h.name
  have hlen : ((programName line).take 15).length = 15 := by
    rw [length_take]
    omega
  have hend := hstored 15 (by rw [length_append, hlen]; decide)
  rw [hname 15 (by omega) (by decide), getElem_append_right (Nat.le_of_eq hlen)] at hend
  exact hline (mem_of_getElem (i := 15) (by simpa [hlen] using hend))

end

theorem loadNamed_iff {mem mem1 : Buffer} (c : LoadChoices)
    (h : KeepsThread mem mem1 line false) (hcurrent : isCurrent mem1)
    (hline : 0 ∉ programName line) :
    Returns (loadNamed mem1 (programName line) c) (fun r ↦ KeepsThread mem r.2 line true) ↔
      (programName line).length ≤ 15 := by
  set mem2 := storeBytes mem1 ThreadField.name.offset (programName line ++ [0]) with hmem2
  have hstored : ∀ i (hi : i < (programName line).length), i < ThreadField.name.size →
      mem2 (ThreadField.name.offset + i) = (programName line)[i] := by
    intro i hi _
    have hi' : i < (programName line ++ [0]).length := by
      rw [length_append]
      omega
    rw [hmem2, storeBytes_of_lt hi', getElem_append_left hi]
  have hfile : (wordBytes c.file).length ≤ ThreadField.execFile.size := Nat.le_refl 4
  have htab : (List.ofFn c.supPageTab).length ≤ ThreadField.supPageTab.size :=
    Nat.le_of_eq length_ofFn
  constructor
  · rintro ⟨r, hr, hkeeps⟩
    rw [loadNamed, ← hmem2, bind_eq_some] at hr
    obtain ⟨-, -, hr⟩ := hr
    split at hr
    · cases hr
      exact hkeeps.length_le hline hstored
    · cases hr
      refine hkeeps.length_le hline fun i hi hsize ↦ ?_
      dsimp only
      rw [storeBytes_field (f := .supPageTab) (g := .name) nofun htab hsize,
        storeBytes_field (f := .execFile) (g := .name) nofun hfile hsize, hstored i hi hsize]
  · intro hlen
    have hsize : (programName line ++ [0]).length ≤ ThreadField.name.size := by
      rw [length_append, length_singleton]
      simp only [ThreadField.size]
      omega
    have hkeeps := h.store_name hline hlen
    rw [loadNamed, ← hmem2, assert, if_pos (isCurrent_storeBytes rfl hsize hcurrent)]
    split
    · exact .pure hkeeps
    · refine .pure ?_
      exact (hkeeps.store (f := .execFile) rfl nofun hfile).store (f := .supPageTab) rfl nofun htab

/-- **`load` keeps the thread intact** if and only if it does not get to the command line, or there
is room for the words, and the name of the program has at most 15 characters. -/
theorem load_keeps_thread_iff {line : List UInt8} (rest : List UInt8) (c : LoadChoices)
    {mem : Buffer} (hmem : isCurrent mem) (hline : 0 ∉ line) :
    Returns (loadThread mem (line ++ 0 :: rest) c)
      (fun r ↦ KeepsThread mem r.2 line (c.pagedir ≠ 0)) ↔
    c.pagedir = 0 ∨ Parsable line c.oracle ∧ (programName line).length ≤ 15 := by
  have hpagedir : KeepsThread mem (storeBytes mem ThreadField.pagedir.offset (wordBytes c.pagedir))
      line false := (KeepsThread.refl mem line).store rfl (by rintro ⟨⟩) (Nat.le_refl 4)
  have hcurrent : isCurrent (storeBytes mem ThreadField.pagedir.offset (wordBytes c.pagedir)) :=
    isCurrent_storeBytes rfl (Nat.le_refl 4) hmem
  obtain ⟨hnone, hsome⟩ := parseFilename_spec rest c.oracle hline
  rw [loadThread, assert, if_pos hmem]
  dsimp only [some_bind]
  by_cases hzero : c.pagedir = 0
  · rw [if_pos hzero]
    refine iff_of_true (.pure ?_) (.inl hzero)
    rwa [decide_eq_false (not_not.mpr hzero)]
  rw [if_neg hzero, or_iff_right hzero, decide_eq_true hzero]
  by_cases hparse : Parsable line c.oracle
  · obtain ⟨parse, heq, -, hname⟩ := hsome hparse
    rw [heq, some_bind, stringAt_eq_some hname, some_bind, and_iff_right hparse]
    exact loadNamed_iff c hpagedir hcurrent hname.1
  · rw [hnone hparse]
    exact iff_of_false (fun h ↦ by cases h.isSome) fun h ↦ hparse h.1

/-- A thread as `init_thread` leaves it, as far as `thread_current` looks at it. -/
def newThread : Buffer := storeBytes (fun _ ↦ 0) ThreadField.magic.offset (wordBytes threadMagic)

/-- There is memory, and the file cannot be opened. -/
def noFile : LoadChoices :=
  { pagedir := 0xc0100000, oracle := [], file := 0, supPageTab := fun _ ↦ 0,
    success := false }

theorem load_keeps_thread_iff_ls : (isCurrent newThread ∧ (0 : UInt8) ∉ ([108, 115] : List UInt8)) ∧
      Returns (loadThread newThread [108, 115, 0] noFile)
        (fun r ↦ KeepsThread newThread r.2 [108, 115] true) := by
  have hmem : isCurrent newThread := by decide +kernel
  have hline : (0 : UInt8) ∉ ([108, 115] : List UInt8) := by decide
  refine ⟨⟨hmem, hline⟩, ?_⟩
  exact (load_keeps_thread_iff [] noFile hmem hline).mpr
    (.inr ⟨⟨by decide +kernel, succeeds_nil _⟩, by decide +kernel⟩)

/-- The name is twenty times `a`: its last four letters are the saved stack pointer now, and `name`
is not terminated. -/
theorem load_overwrites_stack : isCurrent newThread ∧
      ∃ mem, loadThread newThread (List.replicate 20 97 ++ [0]) noFile = some (false, mem) ∧
        le32 newThread ThreadField.stack.offset = 0 ∧
        le32 mem ThreadField.stack.offset = 0x61616161 ∧
        ∀ i < ThreadField.name.size, mem (ThreadField.name.offset + i) = 97 := by
  refine ⟨by decide +kernel, _, rfl, by decide +kernel, by decide +kernel, by decide +kernel⟩

end Pintos
