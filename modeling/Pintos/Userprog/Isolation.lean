import Pintos.Userprog.Boundary

/-!
# Which system calls respect the boundary

Here it is settled for which callers the kernel is isolated from them.  The code of a
call is a list of accesses and checks, so what is asked of the whole call (`Good`) is asked of one
piece of the code after the other: `Env.good_touchCode` for bytes touched in a row,
`Env.good_check` for a check, and on top of them one lemma for each system call that follows an
address.
-/

set_option autoImplicit false

namespace Pintos

open List

variable {name n size buffer fd length pos : Nat} {memory : Bool}

namespace Syscall

/-! ## Code and the bytes it touches -/

/-- What is asked of a call, or of the rest of one: it touches nothing at `PHYS_BASE` or above, and
ends the process if `R` holds. -/
def Good (r : Served) (R : Prop) : Prop := (∀ a ∈ r.touched, a < physBase) ∧ (R → r.killed = true)

@[simp] theorem good_killed {R : Prop} : Good ⟨[], true⟩ R := ⟨nofun, fun _ ↦ rfl⟩

@[simp] theorem good_done {R : Prop} : Good ⟨[], false⟩ R ↔ ¬ R := by
  simp [Good]

theorem touchCode_succ (a n : Nat) (write : Bool) :
    touchCode a (n + 1) write = .touch a write :: touchCode (a + 1) n write := by
  simp only [touchCode, range_succ_eq_map, map_cons, map_map, Nat.add_zero]
  congr 1
  refine map_congr_left fun i _ ↦ ?_
  simp only [Function.comp, Nat.succ_eq_add_one]
  congr 1
  omega

namespace Env

variable {env : Env} {esp : Nat} {code : List Instr} {R : Prop} {write : Bool}

theorem good_check {addr : Nat} : Good (env.runCode esp (.check addr :: code)) R ↔
    (env.isValidUserptr addr esp = true → Good (env.runCode esp code) R) := by
  rw [runCode]
  split
  · next h => simp [h]
  · next h => simp [h]

theorem good_touch {a : Nat} : Good (env.runCode esp (.touch a write :: code)) R ↔
    env.fatal a write = true ∨ (a < physBase ∧ Good (env.runCode esp code) R) := by
  rw [runCode]
  split
  · next h => simp [h]
  · next h => simp [h, Good, and_assoc]

theorem present_succ {a : Nat} (hf : env.fatal a write = false) :
    env.Present a (n + 1) write ↔ env.Present (a + 1) n write := by
  constructor
  · intro h x hx hlt
    exact h x (by omega) (by omega)
  · intro h x hx hlt
    by_cases hxa : x = a
    · exact hxa ▸ hf
    · exact h x (by omega) (by omega)

theorem stopsBefore_succ {a : Nat} (hf : env.fatal a write = false) (ha : a < physBase) :
    env.StopsBefore a (n + 1) write ↔ env.StopsBefore (a + 1) n write := by
  constructor
  · rintro ⟨x, hx, hlt, hle, hfx⟩
    have hxa : x ≠ a := by
      rintro rfl
      simp [hf] at hfx
    exact ⟨x, by omega, by omega, by omega, hfx⟩
  · rintro ⟨x, hx, hlt, hle, hfx⟩
    exact ⟨x, by omega, by omega, by omega, hfx⟩

/-- **Bytes touched one after the other.**  Either they end below `PHYS_BASE`, or a page fault ends
the process before they get there; and if none does, it depends on the code that follows. -/
theorem good_touchCode {a : Nat} : Good (env.runCode esp (touchCode a n write ++ code)) R ↔
      (Crosses a n → env.StopsBefore a n write) ∧
        (env.Present a n write → Good (env.runCode esp code) R) := by
  induction n generalizing a with
  | zero =>
    have hp : env.Present a 0 write := fun x hx hlt ↦ absurd hlt (by omega)
    simp [touchCode, Crosses, hp]
  | succ n ih =>
    rw [touchCode_succ, cons_append, good_touch, ih]
    by_cases hf : env.fatal a write = true
    · have hstop : env.StopsBefore a (n + 1) write := ⟨a, by omega, by omega, by omega, hf⟩
      have hp : ¬ env.Present a (n + 1) write := by
        intro h
        simp [h a (by omega) (by omega)] at hf
      simp [hf, hstop, hp]
    · have hf : env.fatal a write = false := by simpa using hf
      rw [present_succ hf]
      by_cases ha : a < physBase
      · have hc : Crosses a (n + 1) ↔ Crosses (a + 1) n := by
          simp only [Crosses]
          omega
        rw [stopsBefore_succ hf ha, hc]
        simp [hf, ha]
      · -- The first byte is at `PHYS_BASE` or above, and does not fault.
        have hc : Crosses a (n + 1) := ⟨by omega, by omega⟩
        have hstop : ¬ env.StopsBefore a (n + 1) write := by
          rintro ⟨x, hx, hlt, hle, hfx⟩
          obtain rfl : x = a := by omega
          simp [hf] at hfx
        simp [hf, ha, hc, hstop]

/-- Code without accesses and checks. -/
@[simp] theorem runCode_ioCode (n : Nat) :
    env.runCode esp (ioCode n ++ code) = env.runCode esp code := by
  induction n with
  | zero => rfl
  | succ n ih =>
    simpa [ioCode, replicate_succ, runCode] using ih

@[simp] theorem runCode_acquire (l : KLock) :
    env.runCode esp (.acquire l :: code) = env.runCode esp code := rfl

/-- The words of a system call. -/
theorem good_checks {f : Nat → Nat} :
    Good (env.runCode esp ((range n).map (fun i ↦ .check (f i)) ++ code)) R ↔
      ((∀ i < n, env.isValidUserptr (f i) esp = true) → Good (env.runCode esp code) R) := by
  induction n generalizing code with
  | zero => simp
  | succ n ih =>
    rw [range_succ, map_append, append_assoc, ih]
    simp only [map_cons, map_nil, cons_append, nil_append, good_check]
    constructor
    · intro h hv
      exact h (fun i hi ↦ hv i (by omega)) (hv n (by omega))
    · intro h hv hn
      refine h fun i hi ↦ ?_
      by_cases hin : i = n
      · exact hin ▸ hn
      · exact hv i (by omega)

theorem good_handlerCode {call : Call} :
    Good (env.runCode esp (handlerCode esp n call)) R ↔ (env.isValidUserptr esp esp = true →
        (Crosses esp 4 → env.StopsBefore esp 4 false) ∧ (env.Present esp 4 false →
          (∀ i < n, env.isValidUserptr (esp + 4 * (i + 1)) esp = true) →
          (Crosses (esp + 4) (4 * n) → env.StopsBefore (esp + 4) (4 * n) false) ∧
          (env.Present (esp + 4) (4 * n) false → Good (env.runCode esp call.body) R))) := by
  rw [handlerCode, good_check, good_touchCode, good_checks, good_touchCode]

/-! ## Buffers -/

theorem StopsBefore.not_present {a : Nat} (h : env.StopsBefore a n write) :
    ¬ env.Present a n write := by
  obtain ⟨x, hx, hlt, -, hf⟩ := h
  intro hp
  simp [hp x hx hlt] at hf

/-- A page fault below `PHYS_BASE` comes in time. -/
theorem stopsBefore_of_not_present {a : Nat} (hc : ¬ Crosses a n)
    (hp : ¬ env.Present a n write) : env.StopsBefore a n write := by
  simp only [Present, not_forall] at hp
  obtain ⟨x, hx, hlt, hf⟩ := hp
  have hle : x ≤ max a physBase := by
    simp only [Crosses] at hc
    omega
  exact ⟨x, hx, hlt, hle, by simpa using hf⟩

/-- A call that ends with accesses to `n` bytes. -/
theorem good_touch_last {a : Nat} (hcode : env.runCode esp code = ⟨[], false⟩)
    (hR : Crosses a n → R) :
    Good (env.runCode esp (touchCode a n write ++ code)) R ↔ (R → env.StopsBefore a n write) := by
  rw [good_touchCode, hcode, good_done]
  constructor
  · rintro ⟨hstop, hdone⟩ hr
    by_cases hc : Crosses a n
    · exact hstop hc
    · exact stopsBefore_of_not_present hc fun hp ↦ hdone hp hr
  · intro h
    exact ⟨fun hc ↦ h (hR hc), fun hp hr ↦ (h hr).not_present hp⟩

/-- Accesses to bytes that are known to be there, and to be below `PHYS_BASE`. -/
theorem good_touch_inside {a m : Nat} (hc : ¬ Crosses a n) (hp : env.Present a n write)
    (hmn : m ≤ n) :
    Good (env.runCode esp (touchCode a m write ++ code)) R ↔ Good (env.runCode esp code) R := by
  have hc' : ¬ Crosses a m := by
    simp only [Crosses] at hc ⊢
    omega
  have hp' : env.Present a m write := fun x hx hlt ↦ hp x hx (by omega)
  rw [good_touchCode]
  simp [hc', hp']

theorem runCode_append_congr {pre code' : List Instr}
    (h : env.runCode esp code = env.runCode esp code') :
    env.runCode esp (pre ++ code) = env.runCode esp (pre ++ code') := by
  induction pre with
  | nil => exact h
  | cons i pre ih => cases i <;> simp only [cons_append, runCode, ih]

theorem touchCode_add (a m n : Nat) (write : Bool) :
    touchCode a (m + n) write = touchCode a m write ++ touchCode (a + m) n write := by
  induction m generalizing a with
  | zero => simp [touchCode]
  | succ m ih =>
    rw [Nat.succ_add, touchCode_succ, touchCode_succ, ih, cons_append,
      show a + 1 + m = a + (m + 1) by omega]

/-- One round of the loop: `chunk` bytes of the `n` that the file has. -/
theorem whole_step {chunk : Nat}
    (hchunk : chunk = min n (blockSectorSize - pos % blockSectorSize)) : whole memory n pos =
      if chunk = 0 then 0
      else if pos % blockSectorSize = 0 ∧ chunk = blockSectorSize ∨ memory = true then
        chunk + whole memory (n - chunk) (pos + chunk) else 0 := by
  simp only [blockSectorSize] at hchunk
  simp only [whole, blockSectorSize]
  cases memory
  · simp only [Bool.false_eq_true, if_false, or_false]
    split_ifs <;> omega
  · simp only [if_true, or_true]
    split_ifs <;> omega

/-- `inode_read_at` and `inode_write_at` touch the buffer of the caller from its start. -/
theorem runCode_transferCode {before : Nat → Nat → Nat} {behind fuel : Nat} (hfuel : size ≤ fuel) :
    env.runCode esp (transferCode memory write before behind fuel buffer size pos length ++ code) =
      env.runCode esp (touchCode buffer (whole memory (min size (length - pos)) pos) write ++
        code) := by
  induction fuel generalizing buffer size pos with
  | zero =>
    obtain rfl : size = 0 := by omega
    cases memory <;> simp [transferCode, whole, touchCode]
  | succ fuel ih =>
    rw [transferCode, whole_step (Nat.min_assoc ..).symm]
    generalize hchunk :
      min size (min (length - pos) (blockSectorSize - pos % blockSectorSize)) = chunk
    by_cases h0 : chunk = 0
    · simp [h0, touchCode]
    have hrest : min (size - chunk) (length - (pos + chunk)) = min size (length - pos) - chunk := by
      omega
    rw [if_neg h0, if_neg h0, ← hrest]
    by_cases hsector : pos % blockSectorSize = 0 ∧ chunk = blockSectorSize
    · rw [if_pos hsector, if_pos (.inl hsector), touchCode_add]
      simp only [cons_append, append_assoc, runCode]
      exact runCode_append_congr (ih (by omega))
    · cases memory
      · simp [hsector, touchCode]
      · simp only [hsector, if_false, if_true, or_true, append_assoc, runCode_ioCode, touchCode_add]
        exact runCode_append_congr ((runCode_ioCode behind).trans (ih (by omega)))

theorem whole_le : whole memory n pos ≤ n := by
  unfold whole
  split_ifs
  · exact Nat.le_refl n
  · exact Nat.div_mul_le_self n blockSectorSize
  · exact Nat.zero_le n

theorem transferSize_le (size : Nat) : transferSize size ≤ size := by
  unfold transferSize
  split <;> omega

theorem transferred_le : env.transferred size pos length ≤ size :=
  calc env.transferred size pos length
    _ ≤ min (transferSize size) (length - pos) := whole_le
    _ ≤ transferSize size := Nat.min_le_left ..
    _ ≤ size := transferSize_le size

theorem readBytes_le : env.readBytes fd size ≤ size := by
  unfold readBytes
  split_ifs
  · exact Nat.le_refl size
  · exact Nat.zero_le size
  · split
    · exact transferred_le
    · exact Nat.zero_le size

theorem writeBytes_le : env.writeBytes fd size ≤ size := by
  unfold writeBytes
  split_ifs
  · exact Nat.zero_le size
  · exact Nat.le_refl size
  · split
    · split_ifs
      · exact Nat.zero_le size
      · exact transferred_le
    · exact Nat.zero_le size

theorem crosses_mono {a m : Nat} (h : Crosses a m) (hmn : m ≤ n) : Crosses a n := by
  simp only [Crosses] at h ⊢
  omega

theorem runCode_readBody {file : OpenFile} (hfile : file = (env.file fd).getD ⟨0, 0, false⟩) :
    env.runCode esp (readBody (env.kind fd) buffer size file.pos file.length env.memory ++ code) =
      env.runCode esp (touchCode buffer (env.readBytes fd size) true ++ code) := by
  unfold kind readBytes
  split_ifs with h0 h1 hopen
  · rfl
  · rfl
  · obtain ⟨f, hf⟩ := Option.isSome_iff_exists.mp hopen
    obtain rfl : file = f := by simpa [hf] using hfile
    simp only [hf]
    exact runCode_transferCode (transferSize_le size)
  · have hf : env.file fd = none := by simpa using hopen
    simp only [hf]
    rfl

theorem runCode_writeBody {file : OpenFile} (hfile : file = (env.file fd).getD ⟨0, 0, false⟩) :
    env.runCode esp (writeBody (env.kind fd) buffer size file.pos file.length env.memory
        file.denyWrite ++ code) =
      env.runCode esp (touchCode buffer (env.writeBytes fd size) false ++ code) := by
  unfold kind writeBytes
  split_ifs with h0 h1 hopen
  · rfl
  · rfl
  · obtain ⟨f, hf⟩ := Option.isSome_iff_exists.mp hopen
    obtain rfl : file = f := by simpa [hf] using hfile
    simp only [hf, writeBody]
    split
    · rfl
    · exact runCode_transferCode (transferSize_le size)
  · have hf : env.file fd = none := by simpa using hopen
    simp only [hf]
    rfl

/-- `syscall_read`. -/
theorem good_readCode {file : OpenFile} (hfile : file = (env.file fd).getD ⟨0, 0, false⟩) :
    Good (env.runCode esp (readCode (env.kind fd) buffer size file.pos file.length env.memory))
        (Crosses buffer size) ↔ (buffer ≤ physBase → Crosses buffer size →
        env.StopsBefore buffer (env.readBytes fd size) true) := by
  rw [readCode]
  by_cases hbuf : buffer > physBase
  · have hnot : ¬ buffer ≤ physBase := by omega
    simp [hbuf, hnot, runCode]
  · rw [if_neg hbuf, runCode_acquire, runCode_readBody hfile,
      good_touch_last rfl fun hc ↦ crosses_mono hc readBytes_le]
    simp [Nat.not_lt.mp hbuf]

/-- `syscall_write`. -/
theorem good_writeCode {file : OpenFile} (hfile : file = (env.file fd).getD ⟨0, 0, false⟩) :
    Good (env.runCode esp (writeCode (env.kind fd) buffer size file.pos file.length env.memory
        file.denyWrite)) (Crosses buffer size) ↔
      (Crosses buffer size → env.StopsBefore buffer (env.writeBytes fd size) false) := by
  rw [writeCode, runCode_acquire, runCode_writeBody hfile,
    good_touch_last rfl fun hc ↦ crosses_mono hc writeBytes_le]

/-! ## Strings -/

variable {mem : Nat → UInt8}

/-- `strlen` reads up to the byte that ends the string. -/
theorem lt_strlenBytes {fuel a x : Nat} (hax : a ≤ x) :
    x < a + strlenBytes mem fuel a ↔ x - a < fuel ∧ ∀ y, a ≤ y → y < x → mem y ≠ 0 := by
  induction fuel generalizing a with
  | zero => simp [strlenBytes, hax]
  | succ fuel ih =>
    by_cases hxa : x = a
    · subst hxa
      have hpos : 0 < strlenBytes mem (fuel + 1) x := by
        rw [strlenBytes]
        split <;> omega
      constructor
      · intro _
        exact ⟨by omega, fun y hy hlt ↦ absurd hlt (by omega)⟩
      · intro _
        omega
    rw [strlenBytes]
    split
    · next h0 =>
      constructor
      · intro h
        omega
      · rintro ⟨-, h⟩
        exact absurd h0 (h a (Nat.le_refl a) (by omega))
    · next h0 =>
      have ih := ih (a := a + 1) (by omega)
      rw [show a + (strlenBytes mem fuel (a + 1) + 1) =
        a + 1 + strlenBytes mem fuel (a + 1) by omega, ih]
      constructor
      · rintro ⟨hf, h⟩
        refine ⟨by omega, fun y hy hlt ↦ ?_⟩
        by_cases hya : y = a
        · exact hya ▸ h0
        · exact h y (by omega) hlt
      · rintro ⟨hf, h⟩
        exact ⟨by omega, fun y hy hlt ↦ h y (by omega) hlt⟩

/-- `strcmp` reads up to the first byte that differs, or ends the string. -/
theorem lt_strcmpBytes {a x : Nat} {cs : List UInt8} (hax : a ≤ x) : x < a + strcmpBytes mem a cs ↔
      x - a < cs.length ∧ ∀ y, a ≤ y → y < x → mem y ≠ 0 ∧ cs[y - a]? = some (mem y) := by
  induction cs generalizing a with
  | nil => simp [strcmpBytes, hax]
  | cons c cs ih =>
    by_cases hxa : x = a
    · subst hxa
      have hpos : 0 < strcmpBytes mem x (c :: cs) := by
        rw [strcmpBytes]
        split <;> omega
      constructor
      · intro _
        exact ⟨by simp, fun y hy hlt ↦ absurd hlt (by omega)⟩
      · intro _
        omega
    rw [strcmpBytes]
    split
    · next hc =>
      have ih := ih (a := a + 1) (by omega)
      rw [show a + (strcmpBytes mem (a + 1) cs + 1) = a + 1 + strcmpBytes mem (a + 1) cs by omega,
        ih, length_cons]
      have hstep : ∀ y, a + 1 ≤ y → (c :: cs)[y - a]? = cs[y - (a + 1)]? := by
        intro y hy
        rw [show y - a = y - (a + 1) + 1 by omega, getElem?_cons_succ]
      constructor
      · rintro ⟨hf, h⟩
        refine ⟨by omega, fun y hy hlt ↦ ?_⟩
        by_cases hya : y = a
        · subst hya
          simp [hc.1, hc.2]
        · rw [hstep y (by omega)]
          exact h y (by omega) hlt
      · rintro ⟨hf, h⟩
        refine ⟨by omega, fun y hy hlt ↦ ?_⟩
        rw [← hstep y hy]
        exact h y (by omega) hlt
    · next hc =>
      constructor
      · intro h
        omega
      · rintro ⟨-, h⟩
        obtain ⟨h0, hget⟩ := h a (Nat.le_refl a) (by omega)
        simp only [Nat.sub_self, getElem?_cons_zero, Option.some.injEq] at hget
        exact absurd ⟨hget.symm, hget ▸ h0⟩ hc

/-- For a name of the directory, the byte that ends it need not be mentioned. -/
theorem lt_strcmpBytes_name {a x : Nat} {e : List UInt8} (hax : a ≤ x) :
    x < a + strcmpBytes env.mem a (e ++ [0]) ↔ env.Agrees a x e := by
  rw [lt_strcmpBytes hax, length_append, length_singleton]
  constructor
  · rintro ⟨hlen, h⟩ y hy hlt
    obtain ⟨h0, hget⟩ := h y hy hlt
    have hlt' : y - a < e.length := by omega
    rw [List.getElem?_append_left hlt'] at hget
    exact ⟨h0, hget⟩
  · intro h
    have hlen : x - a < e.length + 1 := by
      by_cases hxa : x = a
      · omega
      obtain ⟨hlt, -⟩ := List.getElem?_eq_some_iff.mp (h (x - 1) (by omega) (by omega)).2
      omega
    refine ⟨hlen, fun y hy hlt ↦ ⟨(h y hy hlt).1, ?_⟩⟩
    rw [List.getElem?_append_left (by omega)]
    exact (h y hy hlt).2

/-- A name that is equal to the string is read to its end. -/
theorem lt_strcmpBytes_of_eq {a x : Nat} {e : List UInt8} (hax : a ≤ x)
    (heq : strcmpEq mem a (e ++ [0]) = true) (h : ∀ y, a ≤ y → y < x → mem y ≠ 0) :
    x < a + strcmpBytes mem a (e ++ [0]) := by
  induction e generalizing a with
  | nil =>
    have h0 : mem a = 0 := by simpa [strcmpEq] using heq
    have hxa : x = a := by
      by_contra hne
      exact h a (Nat.le_refl a) (by omega) h0
    simp [strcmpBytes, hxa]
  | cons c e ih =>
    simp only [cons_append, strcmpEq, Bool.and_eq_true, decide_eq_true_eq,
      Bool.or_eq_true] at heq
    rw [cons_append, strcmpBytes]
    by_cases hxa : x = a
    · split <;> omega
    have h0 : mem a ≠ 0 := h a (Nat.le_refl a) (by omega)
    have hc : c ≠ 0 := fun hc ↦ h0 (heq.1.trans hc)
    rw [if_pos ⟨heq.1, hc⟩]
    have ih := ih (a := a + 1) (by omega) (heq.2.resolve_left hc)
      fun y hy hlt ↦ h y (by omega) hlt
    omega

/-- `lookup` reads a byte of the name if a name of the directory goes like it up to there. -/
theorem exists_compares {a x : Nat} {es : List (List UInt8)} (hax : a ≤ x) :
    (∃ n ∈ compares env.mem a es, x < a + n) ↔ ∃ e ∈ es, env.Agrees a x e := by
  induction es with
  | nil => simp [compares]
  | cons e es ih =>
    rw [compares, exists_mem_cons_iff, exists_mem_cons_iff, lt_strcmpBytes_name hax]
    split
    · next heq =>
      constructor
      · rintro (h | ⟨n, hn, -⟩)
        · exact .inl h
        · exact absurd hn not_mem_nil
      · rintro (h | ⟨e', he', h⟩)
        · exact .inl h
        · -- The names after the one that is equal are not looked at, but it goes on as long as
          -- they.
          refine .inl ((lt_strcmpBytes_name hax).mp (lt_strcmpBytes_of_eq hax heq ?_))
          exact fun y hy hlt ↦ (h y hy hlt).1
    · rw [ih]

/-- A call that ends with `lookup`. -/
theorem good_lookupCode {ns : List Nat}
    (hcode : env.runCode esp code = ⟨[], false⟩) (hR : ∀ n ∈ ns, Crosses name n → R) :
    Good (env.runCode esp (lookupCode name ns ++ code)) R ↔
      (R → ∃ n ∈ ns, env.StopsBefore name n false) := by
  induction ns with
  | nil => simp [lookupCode, hcode]
  | cons n ns ih =>
    have ih := ih fun m hm ↦ hR m (mem_cons_of_mem _ hm)
    rw [lookupCode, flatMap_cons, ← lookupCode, append_assoc, append_assoc,
      runCode_ioCode, good_touchCode, ih, exists_mem_cons_iff]
    constructor
    · rintro ⟨hstop, hrest⟩ hr
      by_cases hp : env.Present name n false
      · exact .inr (hrest hp hr)
      · by_cases hc : Crosses name n
        · exact .inl (hstop hc)
        · exact .inl (stopsBefore_of_not_present hc hp)
    · intro h
      refine ⟨fun hc ↦ ?_, fun hp hr ↦ (h hr).resolve_left fun hs ↦ hs.not_present hp⟩
      -- A page fault while another name is compared comes at a byte that is read here as well.
      have hany : ∃ m, env.StopsBefore name m false := by
        rcases h (hR n mem_cons_self hc) with hs | ⟨m, -, hs⟩
        · exact ⟨n, hs⟩
        · exact ⟨m, hs⟩
      obtain ⟨m, x, hx, -, hle, hf⟩ := hany
      have hlt : x < name + n := by
        simp only [Crosses] at hc
        omega
      exact ⟨x, hx, hlt, hle, hf⟩

/-- The string gets to `PHYS_BASE` if the bytes that `strlen` reads do. -/
theorem crosses_strBytes (hname : name ≠ 0) :
    Crosses name (env.strBytes name) ↔ env.StringCrosses name := by
  have hlt := @lt_strlenBytes env.mem (2 ^ 32) name _ (Nat.le_max_left name physBase)
  constructor
  · rintro ⟨hpos, hc⟩
    refine ⟨hname, fun y hy hyb ↦ (hlt.mp ?_).2 y hy (by omega)⟩
    simp only [strBytes] at hpos hc
    omega
  · rintro ⟨-, h⟩
    have := hlt.mpr ⟨by simp only [physBase]; omega, fun y hy hyx ↦ h y hy (by omega)⟩
    simp only [Crosses, strBytes]
    omega

/-- A call that reads the whole string first, and afterwards only what it has read. -/
theorem good_string (hname : name ≠ 0)
    (hrest : env.Present name (env.strBytes name) false → ¬ Crosses name (env.strBytes name) →
      Good (env.runCode esp code) (env.StringCrosses name)) :
    Good (env.runCode esp (touchCode name (env.strBytes name) false ++ code))
        (env.StringCrosses name) ↔ (env.StringCrosses name →
        ∃ x, name ≤ x ∧ x ≤ max name physBase ∧ env.fatal x false = true) := by
  rw [good_touchCode, crosses_strBytes hname]
  constructor
  · rintro ⟨h, -⟩ hc
    obtain ⟨x, hx, -, hle, hf⟩ := h hc
    exact ⟨x, hx, hle, hf⟩
  · intro h
    have hstop : env.StringCrosses name → env.StopsBefore name (env.strBytes name) false := by
      intro hc
      obtain ⟨x, hx, hle, hf⟩ := h hc
      have hc := (crosses_strBytes hname).mpr hc
      exact ⟨x, hx, by simp only [Crosses] at hc; omega, hle, hf⟩
    refine ⟨hstop, fun hp ↦ hrest hp fun hc ↦ ?_⟩
    exact (hstop ((crosses_strBytes hname).mp hc)).not_present hp

theorem good_execCode (hname : name ≠ 0) :
    Good (env.runCode esp (execCode name (env.strBytes name))) (env.StringCrosses name) ↔
      (env.StringCrosses name →
        ∃ x, name ≤ x ∧ x ≤ max name physBase ∧ env.fatal x false = true) := by
  refine good_string hname fun hp hc ↦ ?_
  rw [good_touch_inside hc hp (Nat.le_refl _)]
  exact good_done.mpr fun hs ↦ hc ((crosses_strBytes hname).mpr hs)

/-- `strcmp` reads no more of a string than `strlen`. -/
theorem compares_le {es : List (List UInt8)} (hlen : env.strBytes name < 2 ^ 32)
    (hn : n ∈ compares env.mem name es) : n ≤ env.strBytes name := by
  by_contra hlt
  obtain ⟨e, -, h⟩ := (@exists_compares env _ _ es (Nat.le_add_right name _)).mp
    ⟨n, hn, Nat.add_lt_add_left (Nat.not_le.mp hlt) name⟩
  have hself := (@lt_strlenBytes env.mem (2 ^ 32) _ _
    (Nat.le_add_right name (env.strBytes name))).mpr
    ⟨by omega, fun y hy hyx ↦ (h y hy hyx).1⟩
  exact Nat.lt_irrefl _ hself

theorem good_lookup_inside {len : Nat} {ns : List Nat} (hc : ¬ Crosses name len)
    (hp : env.Present name len false) (hns : ∀ n ∈ ns, n ≤ len) :
    Good (env.runCode esp (lookupCode name ns ++ code)) R ↔ Good (env.runCode esp code) R := by
  induction ns with
  | nil => rfl
  | cons n ns ih =>
    rw [lookupCode, flatMap_cons, ← lookupCode, append_assoc, append_assoc,
      runCode_ioCode, good_touch_inside hc hp (hns n mem_cons_self),
      ih fun m hm ↦ hns m (mem_cons_of_mem _ hm)]

theorem good_createCode {copied : Nat} (hname : name ≠ 0) (hcopied : copied ≤ env.strBytes name) :
    Good (env.runCode esp (createCode name (env.strBytes name)
        (if 1 < env.strBytes name ∧ env.strBytes name ≤ 15 then env.lookups name else []) copied
        0 0)) (env.StringCrosses name) ↔ (env.StringCrosses name →
        ∃ x, name ≤ x ∧ x ≤ max name physBase ∧ env.fatal x false = true) := by
  rw [createCode, if_neg hname, runCode_ioCode]
  refine good_string hname fun hp hc ↦ ?_
  rw [good_lookup_inside hc hp, good_touch_inside hc hp hcopied]
  · exact good_done.mpr fun hs ↦ hc ((crosses_strBytes hname).mpr hs)
  · intro n hn
    split at hn
    · next hlen => exact compares_le (by omega) hn
    · exact absurd hn not_mem_nil

/-- A call that reads of its string what `lookup` needs. -/
theorem good_lookups (hname : name ≠ 0) (hcode : env.runCode esp code = ⟨[], false⟩) :
    Good (env.runCode esp (lookupCode name (env.lookups name) ++ code)) (env.StringCrosses name) ↔
      (env.StringCrosses name → ∃ x, name ≤ x ∧ x ≤ max name physBase ∧ env.fatal x false = true ∧
        ∃ e ∈ env.names.getD [], env.Agrees name x e) := by
  rw [good_lookupCode hcode]
  · constructor
    · intro h hs
      obtain ⟨n, hn, x, hx, hlt, hle, hf⟩ := h hs
      exact ⟨x, hx, hle, hf, (exists_compares hx).mp ⟨n, hn, hlt⟩⟩
    · intro h hs
      obtain ⟨x, hx, hle, hf, he⟩ := h hs
      obtain ⟨n, hn, hlt⟩ := (exists_compares hx).mpr he
      exact ⟨n, hn, x, hx, hlt, hle, hf⟩
  · intro n hn hc
    have hlt : max name physBase < name + n := by
      simp only [Crosses] at hc
      omega
    obtain ⟨e, -, h⟩ := (exists_compares (Nat.le_max_left ..)).mp ⟨n, hn, hlt⟩
    exact ⟨hname, fun y hy hyb ↦ (h y hy (by omega)).1⟩

/-! ## The handler -/

/-- **The body of a call.** -/
theorem good_call : Good (env.runCode esp (env.call esp).body) (env.ArgReaches esp) ↔
    env.ArgSafe esp := by
  unfold call ArgReaches ArgSafe
  dsimp only
  split
  · -- `SYS_EXEC`
    by_cases hrun : env.page = true ∧ env.word (esp + 4) ≠ 0
    · rw [if_pos hrun]
      exact (good_execCode hrun.2).trans (by simp [hrun.1])
    · rw [if_neg hrun]
      exact good_done.trans ⟨fun h hs ↦ absurd hs h, fun h hs ↦ hrun ⟨(h hs).1, hs.1⟩⟩
  · -- `SYS_CREATE`
    by_cases hname : env.word (esp + 4) = 0
    · rw [if_neg fun h ↦ h.1 hname]
      simp only [Call.body, createCode, if_pos hname]
      exact iff_of_true good_killed fun hs ↦ absurd hname hs.1
    by_cases hrun : env.allocated = true
    · rw [if_neg (by simp [hrun])]
      refine (good_createCode hname ?_).trans (by simp [hrun])
      split
      · exact Nat.le_refl _
      · exact Nat.zero_le _
    · rw [if_pos ⟨hname, hrun⟩]
      exact good_done.trans ⟨fun h hs ↦ absurd hs h, fun h hs ↦ hrun (h hs).1⟩
  · -- `SYS_REMOVE`
    by_cases hname : env.word (esp + 4) = 0
    · simp only [Call.body, removeCode, if_pos hname]
      exact iff_of_true good_killed fun hs ↦ absurd hname hs.1
    · simp only [Call.body, removeCode, if_neg hname, runCode_ioCode]
      exact good_lookups hname rfl
  · -- `SYS_OPEN`
    by_cases hname : env.word (esp + 4) = 0
    · simp only [Call.body, openCode, if_pos hname]
      exact iff_of_true (good_done.mpr fun hs ↦ hs.1 hname) fun hs ↦ absurd hname hs.1
    · simp only [Call.body, openCode, if_neg hname, runCode_acquire, runCode_ioCode]
      exact good_lookups hname rfl
  · exact good_readCode rfl
  · exact good_writeCode rfl
  · exact good_done.trans (by simp)

theorem argCount_le (number : Nat) : argCount number ≤ 4 := by
  unfold argCount
  split <;> decide

theorem isValidUserptr_iff {i : Nat} (hi : i ≤ 4) :
    env.isValidUserptr (esp + 4 * i) esp = true ↔ env.Accepts (esp + 4 * i) := by
  -- The stack pointer is not above the address, so the second comparison of `is_valid_stack` holds.
  have hdiff : ((esp : Int) - (esp + 4 * i : Nat)).bmod (2 ^ 32) ≤ 32 := by
    rw [Int.bmod_eq_of_le] <;> omega
  generalize esp + 4 * i = ptr at hdiff ⊢
  unfold isValidUserptr Accepts
  by_cases huser : 0x08048000 ≤ ptr ∧ ptr < physBase
  · have hpos : ptr ≠ 0 := by omega
    have hsub : (physBase + 2 ^ 32 - ptr) % 2 ^ 32 = physBase - ptr := by
      simp only [physBase] at huser ⊢
      omega
    have hstack : isValidStack ptr esp = decide (physBase - ptr ≤ 8 * 1024 * 1024) := by
      rw [isValidStack, decide_eq_true huser.2, decide_eq_true hdiff, hsub]
      rfl
    cases env.hasEntry ptr <;> simp [huser.1, huser.2, hpos, hstack]
  · have hnot : (decide (ptr < physBase) && decide (0x08048000 ≤ ptr)) = false := by
      rw [← Bool.not_eq_true, Bool.and_eq_true, decide_eq_true_eq, decide_eq_true_eq]
      exact fun h ↦ huser h.symm
    simp only [hnot]
    constructor
    · intro h
      split at h <;> simp at h
    · exact fun h ↦ absurd ⟨h.1, h.2.1⟩ huser

/-- Once the words have been read, only the argument that is an address matters. -/
theorem good_body (hn : n = argCount (env.word esp)) (hword : ¬ Crosses esp 4)
    (hargs : ¬ Crosses (esp + 4) (4 * n)) :
    Good (env.runCode esp (env.call esp).body) (env.Reaches esp) ↔ env.ArgSafe esp := by
  have hwords : ¬ Crosses esp (4 * (n + 1)) := by
    simp only [Crosses] at hword hargs ⊢
    omega
  have hreach : env.Reaches esp ↔ env.ArgReaches esp := by
    rw [Reaches, ← hn]
    simp [hwords]
  rw [← good_call, Good, Good, hreach]

/-- **Isolation.**  The kernel touches nothing at `PHYS_BASE` or above through an address of the
caller, and ends the caller if it would have to, exactly for the callers that are `Safe`. -/
theorem isolated_iff_safe (env : Env) (esp : Nat) : env.Isolated esp ↔ env.Safe esp := by
  have hgood : env.Isolated esp ↔ Good (env.serve esp) (env.Reaches esp) := Iff.rfl
  have haccept : ∀ i < argCount (env.word esp),
      (env.isValidUserptr (esp + 4 * (i + 1)) esp = true ↔ env.Accepts (esp + 4 * (i + 1))) :=
    fun i hi ↦ isValidUserptr_iff (Nat.le_trans hi (argCount_le _))
  rw [hgood, serve, good_handlerCode, Safe]
  refine imp_congr (isValidUserptr_iff (Nat.zero_le 4)) (and_congr_right fun hword ↦
    forall_congr' fun hp ↦ imp_congr (forall₂_congr haccept) (and_congr_right fun hargs ↦
    forall_congr' fun hp' ↦ ?_))
  exact good_body rfl (fun hc ↦ (hword hc).not_present hp) fun hc ↦ (hargs hc).not_present hp'

/-- A caller that has pushed these words, with its stack pointer at `0xbfffff00`, and all of whose
pages are there. -/
def caller (words : List Nat) : Env where
  mem a := (words.getD ((a - 0xbfffff00) / 4) 0 / 256 ^ (a % 4)).toUInt8
  fatal _ _ := false
  hasEntry _ := true
  undef _ := true
  file _ := none
  memory := true
  names := some []
  allocated := true
  page := true

/-- `write (1, PHYS_BASE, 1)` prints the first byte of the kernel. -/
theorem write_kernel_byte : ¬ (caller [9, 1, 0xc0000000, 1]).Isolated 0xbfffff00 := by
  intro h
  have hmem : 0xc0000000 ∈ ((caller [9, 1, 0xc0000000, 1]).serve 0xbfffff00).touched := by
    decide +kernel
  exact absurd (h.1 _ hmem) (by decide)

end Env

end Syscall

end Pintos
