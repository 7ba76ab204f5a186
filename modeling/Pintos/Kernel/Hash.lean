import Pintos.Logic.Run
import Pintos.Kernel.LinkedList

/-!
# Hash tables

`lib/kernel/hash.c`.  A table has an array of buckets, each of which is a list, and an element is in
the bucket that its hash value says.  After a change the number of buckets is adapted to that of the
elements: all of them are moved to a new array, unless there is no memory for it.

The functions run on the memory of the lists (`ListMem`), as the code does.  `HashTable.Holds` says
what the buckets are lists of; the table then stands for a map from classes of elements that are
equivalent to elements, and after any calls each function does to it what it is called after
(`HashTable.hash_refines`), whether arrays can be allocated or not.
-/

set_option autoImplicit false

namespace Pintos

open Function

/-- `struct hash`, with the memory that the lists are in.  An element of the table and a bucket take
at least 8 of 2³² bytes, so neither the counters nor the size of an array wrap. -/
structure HashTable (α : Type) where
  mem : ListMem α
  elemCnt : Nat
  bucketCnt : Nat
  /-- The array of buckets. -/
  buckets : Nat → ListHeader α

namespace HashTable

open ListMem

variable {α : Type} (hash : α → Nat) (less : α → α → Bool)

/-! ## The functions of `hash.c` -/

section

variable [DecidableEq α]

/-- `find_bucket`, which returns a pointer to the array: the index of the bucket. -/
def bucketIdx (bucketCnt : Nat) (e : α) : Nat := hash e &&& (bucketCnt - 1)

/-- `find_bucket`. -/
def findBucket (t : HashTable α) (e : α) : ListHeader α := t.buckets (bucketIdx hash t.bucketCnt e)

/-- The loop of `find_elem`, for at most `fuel` elements. -/
def findElemLoop (m : ListMem α) (bucket : ListHeader α) (e : α) :
    Nat → Option α → Kernel (Option α)
  | 0, i => if i = listEnd bucket then some none else none
  | fuel + 1, i =>
    if i = listEnd bucket then some none
    else do
      let hi ← i
      if !less hi e && !less e hi then return some hi
      findElemLoop m bucket e fuel (← m.listNext i)

/-- `find_elem`. -/
def findElem (t : HashTable α) (bucket : ListHeader α) (e : α) : Kernel (Option α) :=
  findElemLoop less t.mem bucket e t.elemCnt (t.mem.listBegin bucket)

/-- `turn_off_least_1bit`. -/
def turnOffLeast1bit (x : Nat) : Nat := x &&& (x - 1)

/-- `is_power_of_2`. -/
def isPowerOf2 (x : Nat) : Bool := x != 0 && turnOffLeast1bit x == 0

/-- The loop of `rehash` that looks for a power of two. -/
def powerLoop : Nat → Nat → Nat
  | 0, n => n
  | fuel + 1, n => if isPowerOf2 n then n else powerLoop fuel (turnOffLeast1bit n)

/-- The number of buckets that `rehash` wants. -/
def newBucketCnt (elemCnt : Nat) : Nat :=
  let n := elemCnt / 2
  let n := if n < 4 then 4 else n
  powerLoop n n

/-- `list_init` of the first `cnt` buckets. -/
def initBuckets (m : ListMem α) (buckets : Nat → ListHeader α) : Nat → ListMem α
  | 0 => m
  | cnt + 1 => (initBuckets m buckets cnt).listInit (buckets cnt)

/-- The inner loop of `rehash`: the elements of a bucket, from `elem` on, are moved to the new
ones. -/
def moveLoop (buckets : Nat → ListHeader α) (bucketCnt : Nat) (oldBucket : ListHeader α) :
    Nat → ListMem α → Option α → Kernel (ListMem α)
  | 0, m, elem => if elem = listEnd oldBucket then some m else none
  | fuel + 1, m, elem =>
    if elem = listEnd oldBucket then some m
    else do
      let newBucket := buckets (bucketIdx hash bucketCnt (← elem))
      let next ← m.listNext elem
      let (_, m) ← m.listRemove elem
      let m ← m.listPushFront newBucket elem
      moveLoop buckets bucketCnt oldBucket fuel m next

/-- The outer loop of `rehash`: the first `cnt` old buckets. -/
def moveBuckets (t : HashTable α) (oldBuckets : Nat → ListHeader α) : Nat → Kernel (ListMem α)
  | 0 => some t.mem
  | cnt + 1 => do
    let m ← moveBuckets t oldBuckets cnt
    moveLoop hash t.buckets t.bucketCnt (oldBuckets cnt) t.elemCnt m
      (m.listBegin (oldBuckets cnt))

/-- `rehash`; `alloc` says what `malloc` returns for an array of a number of buckets. -/
def rehash (t : HashTable α) (alloc : Nat → Option (Nat → ListHeader α)) :
    Kernel (HashTable α) :=
  let cnt := newBucketCnt t.elemCnt
  if cnt = t.bucketCnt then some t
  else match alloc cnt with
    | none => some t
    | some buckets => do
      let t' := { t with mem := initBuckets t.mem buckets cnt, bucketCnt := cnt, buckets }
      return { t' with mem := ← moveBuckets hash t' t.buckets t.bucketCnt }

/-- `insert_elem`. -/
def insertElem (t : HashTable α) (bucket : ListHeader α) (e : α) : Kernel (HashTable α) := do
  return { t with elemCnt := t.elemCnt + 1, mem := ← t.mem.listPushFront bucket (some e) }

/-- `remove_elem`. -/
def removeElem (t : HashTable α) (e : α) : Kernel (HashTable α) := do
  return { t with elemCnt := t.elemCnt - 1, mem := (← t.mem.listRemove (some e)).2 }

/-- `hash_init`; `none` if there is no memory. -/
def hashInit (m : ListMem α) (alloc : Nat → Option (Nat → ListHeader α)) :
    Option (HashTable α) := do
  let buckets ← alloc 4
  return ⟨initBuckets m buckets 4, 0, 4, buckets⟩

/-- `hash_insert`. -/
def hashInsert (t : HashTable α) (new : α) (alloc : Nat → Option (Nat → ListHeader α)) :
    Kernel (Option α × HashTable α) := do
  let bucket := t.findBucket hash new
  let old ← t.findElem less bucket new
  let t ← if old = none then t.insertElem bucket new else some t
  return (old, ← t.rehash hash alloc)

/-- `hash_replace`. -/
def hashReplace (t : HashTable α) (new : α) (alloc : Nat → Option (Nat → ListHeader α)) :
    Kernel (Option α × HashTable α) := do
  let bucket := t.findBucket hash new
  let old ← t.findElem less bucket new
  let t ← match old with
    | some old => t.removeElem old
    | none => some t
  let t ← t.insertElem bucket new
  return (old, ← t.rehash hash alloc)

/-- `hash_find`. -/
def hashFind (t : HashTable α) (e : α) : Kernel (Option α) :=
  t.findElem less (t.findBucket hash e) e

/-- `hash_delete`. -/
def hashDelete (t : HashTable α) (e : α) (alloc : Nat → Option (Nat → ListHeader α)) :
    Kernel (Option α × HashTable α) := do
  let found ← t.findElem less (t.findBucket hash e) e
  match found with
  | some old => return (found, ← (← t.removeElem old).rehash hash alloc)
  | none => return (found, t)

end

/-! ## The number of buckets -/

theorem isPowerOf2_two_pow (k : Nat) : isPowerOf2 (2 ^ k) = true := by
  have h : turnOffLeast1bit (2 ^ k) = 0 := by
    rw [turnOffLeast1bit, Nat.and_two_pow_sub_one_eq_mod, Nat.mod_self]
  simp [isPowerOf2, h]

/-- Unless a number is a power of two, the lowest bit that is turned off is not the highest one. -/
theorem turnOffLeast1bit_bounds {n k : Nat} (hlo : 2 ^ k < n) (hhi : n < 2 ^ (k + 1)) :
    2 ^ k ≤ turnOffLeast1bit n ∧ turnOffLeast1bit n < n := by
  constructor
  · refine Nat.ge_two_pow_of_testBit (i := k) ?_
    have hbit : ∀ x, 2 ^ k ≤ x → x < 2 ^ (k + 1) → x.testBit k = true := by
      intro x hle hlt
      have hdiv : x / 2 ^ k = 1 := by
        rw [Nat.pow_succ] at hlt
        exact Nat.div_eq_of_lt_le (by omega) (by omega)
      simp [Nat.testBit, Nat.shiftRight_eq_div_pow, hdiv]
    rw [turnOffLeast1bit, Nat.testBit_and, hbit n (by omega) hhi,
      hbit (n - 1) (by omega) (by omega)]
    rfl
  · have hle : turnOffLeast1bit n ≤ n - 1 := Nat.and_le_right
    omega

theorem powerLoop_eq {fuel n k : Nat} (hlo : 2 ^ k ≤ n) (hhi : n < 2 ^ (k + 1))
    (hfuel : n ≤ 2 ^ k + fuel) : powerLoop fuel n = 2 ^ k := by
  induction fuel generalizing n with
  | zero => exact Nat.le_antisymm hfuel hlo
  | succ fuel ih =>
    rw [powerLoop]
    by_cases heq : n = 2 ^ k
    · rw [heq, isPowerOf2_two_pow, if_pos rfl]
    · obtain ⟨hle, hlt⟩ := turnOffLeast1bit_bounds (Nat.lt_of_le_of_ne hlo (Ne.symm heq)) hhi
      have hpos : 0 < 2 ^ k := Nat.two_pow_pos k
      rw [if_neg (by simp [isPowerOf2]; omega)]
      exact ih hle (by omega) (by omega)

/-- **`rehash` wants a power of two**, at least 4, and more than a fourth of the elements. -/
theorem newBucketCnt_spec (elemCnt : Nat) :
    ∃ k, 2 ≤ k ∧ newBucketCnt elemCnt = 2 ^ k ∧ elemCnt ≤ 4 * newBucketCnt elemCnt := by
  generalize hn : (if elemCnt / 2 < 4 then 4 else elemCnt / 2) = n
  have hfour : 4 ≤ n := by
    rw [← hn]
    split <;> omega
  have hle : 2 ^ Nat.log2 n ≤ n := Nat.log2_self_le (by omega)
  have hlt : n < 2 ^ (Nat.log2 n + 1) := Nat.lt_log2_self
  have hk : 2 ≤ Nat.log2 n := (Nat.le_log2 (by omega)).mpr hfour
  have heq : newBucketCnt elemCnt = 2 ^ Nat.log2 n := by
    simp only [newBucketCnt, hn]
    exact powerLoop_eq hle hlt (by omega)
  refine ⟨Nat.log2 n, hk, heq, ?_⟩
  rw [heq]
  rw [Nat.pow_succ] at hlt
  split at hn <;> omega

/-! ## What a table holds -/

/-- The elements of the first `cnt` buckets. -/
def elems (cnt : Nat) (seq : Nat → List α) : List α := (List.range cnt).flatMap seq

theorem mem_elems {cnt : Nat} {seq : Nat → List α} {e : α} :
    e ∈ elems cnt seq ↔ ∃ i < cnt, e ∈ seq i := by
  simp [elems]

/-- Neither is less than the other. -/
def Equiv (a b : α) : Prop := ¬ less a b ∧ ¬ less b a

/-- The classes of elements that are equivalent. -/
def classes [h : IsStrictWeakOrder α fun a b ↦ less a b] : Setoid α where
  r := Equiv less
  iseqv := ⟨fun a ↦ ⟨h.irrefl a, h.irrefl a⟩, fun heq ↦ ⟨heq.2, heq.1⟩,
    fun heq heq' ↦ h.incomp_trans _ _ _ heq heq'⟩

/-- The buckets are lists of `seq`. -/
structure Holds (t : HashTable α) (seq : Nat → List α) : Prop where
  lists : t.mem.Lists (fun i : Fin t.bucketCnt ↦ t.buckets i) fun i ↦ seq i
  place : ∀ i < t.bucketCnt, ∀ e ∈ seq i, bucketIdx hash t.bucketCnt e = i
  cnt : t.elemCnt = (elems t.bucketCnt seq).length
  pow : ∃ k, 2 ≤ k ∧ t.bucketCnt = 2 ^ k
  inequiv : ∀ a ∈ elems t.bucketCnt seq, ∀ b ∈ elems t.bucketCnt seq, Equiv less a b → a = b

variable {hash less} {t t' : HashTable α} {seq seq' : Nat → List α} {e : α} {m m' : ListMem α}

variable (hash) in
theorem bucketIdx_lt {cnt : Nat} (h : ∃ k, 2 ≤ k ∧ cnt = 2 ^ k) (e : α) :
    bucketIdx hash cnt e < cnt := by
  obtain ⟨k, -, rfl⟩ := h
  rw [bucketIdx, Nat.and_two_pow_sub_one_eq_mod]
  exact Nat.mod_lt _ (Nat.two_pow_pos k)

/-- No element is in a table twice. -/
theorem nodup_elems {cnt : Nat} {lists : Nat → ListHeader α}
    (h : m.Lists (fun i : Fin cnt ↦ lists i) fun i ↦ seq i) : (elems cnt seq).Nodup := by
  rw [elems, List.nodup_flatMap]
  have hmem : ∀ i < cnt, ∀ e ∈ seq i, e ∈ (lists i).cells (seq i) :=
    fun i _ e he ↦ ListHeader.mem_cells.mpr (.inr (.inl he))
  constructor
  · intro i hi
    have hnodup := (h.list ⟨i, List.mem_range.mp hi⟩).nodup
    exact (List.nodup_append.mp (List.nodup_cons.mp hnodup).2).1
  · refine List.Pairwise.imp_of_mem ?_ (List.nodup_range (n := cnt))
    intro i j hi hj hne e hei hej
    rw [List.mem_range] at hi hj
    exact h.disjoint ⟨i, hi⟩ ⟨j, hj⟩ (fun heq ↦ hne (Fin.mk.inj heq)) e (hmem i hi e hei)
      (hmem j hj e hej)

theorem length_le_elems {cnt i : Nat} (hi : i < cnt) : (seq i).length ≤ (elems cnt seq).length := by
  obtain ⟨l1, l2, heq⟩ := List.append_of_mem (List.mem_range.mpr hi)
  rw [elems, heq, List.flatMap_append, List.flatMap_cons, List.length_append, List.length_append]
  omega

/-- Every element is in the bucket it belongs to, if those of a bucket that is changed are. -/
theorem place_update {cnt i : Nat} {ys : List α}
    (hplace : ∀ j < cnt, ∀ e ∈ seq j, bucketIdx hash cnt e = j)
    (hys : ∀ e ∈ ys, bucketIdx hash cnt e = i) :
    ∀ j < cnt, ∀ e ∈ update seq i ys j, bucketIdx hash cnt e = j := by
  intro j hj e he
  by_cases heq : j = i
  · subst heq
    rw [update_self] at he
    exact hys e he
  · rw [update_of_ne heq] at he
    exact hplace j hj e he

theorem mem_elems_cons {cnt i : Nat} {x : α} (hi : i < cnt) :
    e ∈ elems cnt (update seq i (x :: seq i)) ↔ e = x ∨ e ∈ elems cnt seq := by
  simp only [mem_elems]
  constructor
  · rintro ⟨j, hj, he⟩
    by_cases heq : j = i
    · subst heq
      rw [update_self] at he
      exact (List.mem_cons.mp he).imp id fun he ↦ ⟨j, hj, he⟩
    · rw [update_of_ne heq] at he
      exact .inr ⟨j, hj, he⟩
  · rintro (rfl | ⟨j, hj, he⟩)
    · exact ⟨i, hi, by simp⟩
    · refine ⟨j, hj, ?_⟩
      by_cases heq : j = i
      · subst heq
        rw [update_self]
        exact List.mem_cons_of_mem x he
      · rwa [update_of_ne heq]

theorem mem_elems_succ {cnt : Nat} : e ∈ elems (cnt + 1) seq ↔ e ∈ seq cnt ∨ e ∈ elems cnt seq := by
  simp [elems, List.range_succ, or_comm]

theorem mem_elems_removed {cnt i : Nat} {x : α} {xs ys : List α} (hnodup : (elems cnt seq).Nodup)
    (hi : i < cnt) (hx : seq i = xs ++ x :: ys) :
    e ∈ elems cnt (update seq i (xs ++ ys)) ↔ e ∈ elems cnt seq ∧ e ≠ x := by
  obtain ⟨hlists, hpair⟩ := List.nodup_flatMap.mp hnodup
  have hnot : x ∉ xs ++ ys := by
    have := hlists i (List.mem_range.mpr hi)
    rw [hx, List.nodup_middle, List.nodup_cons] at this
    exact this.1
  have hother : ∀ j < cnt, j ≠ i → x ∉ seq j := by
    intro j hj hne hxj
    have : Std.Symm (Function.onFun List.Disjoint seq) := ⟨fun _ _ hdisj _ ha hb ↦ hdisj hb ha⟩
    have hxi : x ∈ seq i := hx ▸ List.mem_append_right xs List.mem_cons_self
    exact hpair.forall (List.mem_range.mpr hj) (List.mem_range.mpr hi) hne hxj hxi
  simp only [mem_elems]
  constructor
  · rintro ⟨j, hj, he⟩
    by_cases heq : j = i
    · subst heq
      rw [update_self] at he
      refine ⟨⟨j, hj, ?_⟩, fun heq ↦ hnot (heq ▸ he)⟩
      rw [hx]
      exact List.mem_append.mpr ((List.mem_append.mp he).imp id (List.mem_cons_of_mem x))
    · rw [update_of_ne heq] at he
      exact ⟨⟨j, hj, he⟩, fun hex ↦ hother j hj heq (hex ▸ he)⟩
  · rintro ⟨⟨j, hj, he⟩, hne⟩
    refine ⟨j, hj, ?_⟩
    by_cases heq : j = i
    · subst heq
      rw [update_self]
      rw [hx] at he
      simpa [hne] using he
    · rwa [update_of_ne heq]

variable (hash less) in
/-- The table is one of the elements `S`. -/
def Stores (t : HashTable α) (S : α → Prop) : Prop :=
  ∃ seq, Holds hash less t seq ∧ ∀ x, x ∈ elems t.bucketCnt seq ↔ S x

/-- `a` is linked in the table, or a header of one of its buckets. -/
def InUse (t : HashTable α) (a : α) : Prop :=
  ∃ i < t.bucketCnt, ∃ xs, t.mem.IsList (t.buckets i) xs ∧ a ∈ (t.buckets i).cells xs

/-- `a` is a header of a bucket. -/
def IsHeader (t : HashTable α) (a : α) : Prop :=
  ∃ i < t.bucketCnt, a = (t.buckets i).head ∨ a = (t.buckets i).tail

variable {S : α → Prop} {a x : α}

theorem Holds.inUse_iff (h : Holds hash less t seq) :
    t.InUse a ↔ ∃ i < t.bucketCnt, a ∈ (t.buckets i).cells (seq i) := by
  constructor
  · rintro ⟨i, hi, xs, hxs, ha⟩
    have hseq := (h.lists.list ⟨i, hi⟩).unique hxs
    exact ⟨i, hi, hseq ▸ ha⟩
  · rintro ⟨i, hi, ha⟩
    exact ⟨i, hi, seq i, h.lists.list ⟨i, hi⟩, ha⟩

theorem Stores.inUse_iff (h : t.Stores hash less S) : t.InUse a ↔ t.IsHeader a ∨ S a := by
  obtain ⟨seq, hseq, hmem⟩ := h
  rw [hseq.inUse_iff, ← hmem, mem_elems]
  simp only [ListHeader.mem_cells, IsHeader]
  constructor
  · rintro ⟨i, hi, ha | ha | ha⟩
    · exact .inl ⟨i, hi, .inl ha⟩
    · exact .inr ⟨i, hi, ha⟩
    · exact .inl ⟨i, hi, .inr ha⟩
  · rintro (⟨i, hi, ha | ha⟩ | ⟨i, hi, ha⟩)
    · exact ⟨i, hi, .inl ha⟩
    · exact ⟨i, hi, .inr (.inr ha)⟩
    · exact ⟨i, hi, .inr (.inl ha)⟩

theorem Stores.congr {S' : α → Prop} (h : t.Stores hash less S) (hS : ∀ x, S x ↔ S' x) :
    t.Stores hash less S' := by
  obtain ⟨seq, hseq, hmem⟩ := h
  exact ⟨seq, hseq, fun x ↦ (hmem x).trans (hS x)⟩

/-! ## Looking for an element -/

variable [DecidableEq α]

theorem findElemLoop_eq {bucket : ListHeader α} {fuel : Nat} {done rest : List α}
    (h : m.IsList bucket (done ++ rest)) (hfuel : rest.length ≤ fuel) :
    findElemLoop less m bucket e fuel (some (bucket.place rest)) =
      some (rest.find? fun hi ↦ !less hi e && !less e hi) := by
  induction rest generalizing fuel done with
  | nil =>
    have hend : some (bucket.place []) = listEnd bucket := rfl
    cases fuel <;> simp [findElemLoop, hend]
  | cons x rest ih =>
    obtain ⟨fuel, rfl⟩ : ∃ n, fuel = n + 1 := ⟨fuel - 1, by simp at hfuel; omega⟩
    have hne : some x ≠ listEnd bucket := h.ne_listEnd (by simp)
    have h' : m.IsList bucket (done ++ [x] ++ rest) := by simpa using h
    have hplace : bucket.place (x :: rest) = x := rfl
    rw [hplace, findElemLoop, if_neg hne, List.find?_cons]
    simp only [some_bind, h.listNext_eq]
    cases hx : !less x e && !less e x with
    | true => rfl
    | false => exact ih h' (by simpa using hfuel)

/-- **`find_elem`** finds the element that is equivalent to a given one. -/
theorem Holds.findElem_spec [IsStrictWeakOrder α fun a b ↦ less a b] (h : Holds hash less t seq)
    (hhash : ∀ a b, Equiv less a b → hash a = hash b) (e : α) :
    Returns (t.findElem less (t.findBucket hash e) e) fun old ↦
      ∀ x, old = some x ↔ x ∈ elems t.bucketCnt seq ∧ Equiv less x e := by
  have hlt := bucketIdx_lt hash h.pow e
  have hlist : t.mem.IsList (t.findBucket hash e) (seq (bucketIdx hash t.bucketCnt e)) :=
    h.lists.list ⟨_, hlt⟩
  have hfuel : (seq (bucketIdx hash t.bucketCnt e)).length ≤ t.elemCnt :=
    h.cnt ▸ length_le_elems hlt
  have hfind : t.findElem less (t.findBucket hash e) e = some
      ((seq (bucketIdx hash t.bucketCnt e)).find? fun hi ↦ !less hi e && !less e hi) := by
    rw [findElem, hlist.listBegin_eq]
    exact findElemLoop_eq (show t.mem.IsList _ ([] ++ _) from hlist) hfuel
  refine ⟨_, hfind, fun x ↦ ?_⟩
  have hfound : ∀ y, (seq (bucketIdx hash t.bucketCnt e)).find? (fun hi ↦
      !less hi e && !less e hi) = some y → y ∈ elems t.bucketCnt seq ∧ Equiv less y e := by
    intro y hfind
    have hy := List.find?_some hfind
    exact ⟨mem_elems.mpr ⟨_, hlt, List.mem_of_find?_eq_some hfind⟩, by simpa [Equiv] using hy⟩
  refine ⟨hfound x, ?_⟩
  rintro ⟨hx, heq⟩
  -- An element that is equivalent has the same hash value, so it is in this bucket.
  have hmem : x ∈ seq (bucketIdx hash t.bucketCnt e) := by
    obtain ⟨i, hi, hxi⟩ := mem_elems.mp hx
    have hidx := h.place i hi x hxi
    rw [bucketIdx, hhash x e heq] at hidx
    rwa [bucketIdx, hidx]
  have hsome : ((seq (bucketIdx hash t.bucketCnt e)).find? fun hi ↦
      !less hi e && !less e hi).isSome := by
    rw [List.find?_isSome]
    exact ⟨x, hmem, by simpa [Equiv] using heq⟩
  obtain ⟨y, hy⟩ := Option.isSome_iff_exists.mp hsome
  obtain ⟨hymem, hyeq⟩ := hfound y hy
  rw [hy, h.inequiv y hymem x hx ((classes less).trans hyeq ((classes less).symm heq))]

/-! ## Moving the elements -/

/-- An array of `cnt` buckets, in memory that is not in use. -/
structure FreshBuckets (buckets : Nat → ListHeader α) (cnt : Nat) (used : α → Prop) : Prop where
  distinct : ∀ i < cnt, (buckets i).head ≠ (buckets i).tail
  disjoint : ∀ i < cnt, ∀ j < cnt, i ≠ j → ∀ a ∈ (buckets i).cells [], a ∉ (buckets j).cells []
  unused : ∀ i < cnt, ∀ a ∈ (buckets i).cells [], ¬ used a

variable {buckets oldBuckets : Nat → ListHeader α} {cnt n : Nat} {used : α → Prop}

omit [DecidableEq α] in
theorem FreshBuckets.mono {used' : α → Prop} (h : FreshBuckets buckets cnt used)
    (hused : ∀ a, used' a → used a) : FreshBuckets buckets cnt used' :=
  ⟨h.distinct, h.disjoint, fun i hi a ha ha' ↦ h.unused i hi a ha (hused a ha')⟩

theorem initBuckets_spec (h : FreshBuckets buckets cnt used) :
    (∀ i < cnt, (initBuckets m buckets cnt).IsList (buckets i) []) ∧
      ∀ a, (∀ i < cnt, a ∉ (buckets i).cells []) →
        (initBuckets m buckets cnt).elem a = m.elem a := by
  induction cnt with
  | zero => exact ⟨fun i hi ↦ absurd hi (Nat.not_lt_zero i), fun a _ ↦ rfl⟩
  | succ cnt ih =>
    obtain ⟨hlists, hother⟩ := ih ⟨fun i hi ↦ h.distinct i (by omega),
      fun i hi j hj ↦ h.disjoint i (by omega) j (by omega), fun i hi ↦ h.unused i (by omega)⟩
    have hkeeps : ∀ a, a ∉ (buckets cnt).cells [] →
        (initBuckets m buckets (cnt + 1)).elem a = (initBuckets m buckets cnt).elem a := by
      intro a ha
      simp only [ListHeader.mem_cells, List.not_mem_nil, false_or, not_or] at ha
      simp [initBuckets, listInit, setPrev, setNext, ha]
    refine ⟨fun i hi ↦ ?_, fun a ha ↦ ?_⟩
    · by_cases heq : i = cnt
      · subst heq
        exact isList_listInit (h.distinct i hi)
      · refine (hlists i (by omega)).of_keeps fun a ha ↦ hkeeps a ?_
        exact h.disjoint i hi cnt (Nat.lt_succ_self cnt) heq a ha
    · rw [hkeeps a (ha cnt (Nat.lt_succ_self cnt)), hother a fun i hi ↦ ha i (by omega)]

/-- The old array and the new one. -/
def both {β : Type} (n cnt : Nat) (old new : Nat → β) : Fin n ⊕ Fin cnt → β :=
  Sum.elim (fun i ↦ old i) fun j ↦ new j

theorem update_both_inl {β : Type} (old new : Nat → β) (i : Fin n) (x : β) :
    update (both n cnt old new) (.inl i) x = both n cnt (update old i x) new := by
  rw [both, Sum.update_elim_inl]
  exact congrArg (Sum.elim · _)
    (update_comp_eq_of_injective old Fin.val_injective i x).symm

theorem update_both_inr {β : Type} (old new : Nat → β) (j : Fin cnt) (x : β) :
    update (both n cnt old new) (.inr j) x = both n cnt old (update new j x) := by
  rw [both, Sum.update_elim_inr]
  exact congrArg (Sum.elim _) (update_comp_eq_of_injective new Fin.val_injective j x).symm

/-- The new buckets are empty lists. -/
theorem lists_initBuckets (h : m.Lists (fun i : Fin n ↦ oldBuckets i) fun i ↦ seq i)
    (hf : FreshBuckets buckets cnt fun a ↦ ∃ i < n, a ∈ (oldBuckets i).cells (seq i)) :
    (initBuckets m buckets cnt).Lists (both n cnt oldBuckets buckets)
      (both n cnt seq fun _ ↦ []) := by
  obtain ⟨hlists, hother⟩ := initBuckets_spec (m := m) hf
  constructor
  · rintro (i | j)
    · exact (h.list i).of_keeps fun a ha ↦ hother a fun j hj haj ↦
        hf.unused j hj a haj ⟨i, i.isLt, ha⟩
    · exact hlists j j.isLt
  · rintro (i | j) (i' | j') hne a ha ha'
    · exact h.disjoint i i' (fun heq ↦ hne (congrArg _ heq)) a ha ha'
    · exact hf.unused j' j'.isLt a ha' ⟨i, i.isLt, ha⟩
    · exact hf.unused j j.isLt a ha ⟨i', i'.isLt, ha'⟩
    · exact hf.disjoint j j.isLt j' j'.isLt (fun heq ↦ hne (congrArg _ (Fin.ext heq))) a ha ha'

/-- The elements that are left in an old bucket are moved. -/
theorem moveLoop_spec {i : Fin n} {fuel : Nat} {xs : List α} (hpow : ∃ k, 2 ≤ k ∧ cnt = 2 ^ k)
    (h : m.Lists (both n cnt oldBuckets buckets) (both n cnt seq seq')) (hi : seq i = xs)
    (hplace : ∀ j < cnt, ∀ e ∈ seq' j, bucketIdx hash cnt e = j) (hfuel : xs.length ≤ fuel) :
    Returns (moveLoop hash buckets cnt (oldBuckets i) fuel m (some ((oldBuckets i).place xs)))
      fun m' ↦ ∃ seq'', m'.Lists (both n cnt oldBuckets buckets)
          (both n cnt (update seq i []) seq'') ∧
        (∀ j < cnt, ∀ e ∈ seq'' j, bucketIdx hash cnt e = j) ∧
        ∀ e, e ∈ elems cnt seq'' ↔ e ∈ xs ∨ e ∈ elems cnt seq' := by
  induction xs generalizing m seq seq' fuel with
  | nil =>
    have hend : some ((oldBuckets i).place []) = listEnd (oldBuckets i) := rfl
    refine ⟨m, by cases fuel <;> simp [moveLoop, hend], seq', ?_, hplace, by simp⟩
    rw [← hi, update_eq_self]
    exact h
  | cons x xs ih =>
    obtain ⟨fuel, rfl⟩ : ∃ k, fuel = k + 1 := ⟨fuel - 1, by simp at hfuel; omega⟩
    have hlist : m.IsList (oldBuckets i) ([] ++ x :: xs) := hi ▸ h.list (.inl i)
    have hi' : both n cnt seq seq' (.inl i) = [] ++ x :: xs := hi
    obtain ⟨⟨_, m1⟩, hremove, -, h1, -⟩ := h.listRemove hi'
    have hfree := h.not_mem_removed hi'
    rw [update_both_inl] at h1 hfree
    have hlt := bucketIdx_lt hash hpow x
    obtain ⟨m2, hpush, h2, -⟩ := h1.listPushFront (i := .inr ⟨bucketIdx hash cnt x, hlt⟩) hfree
    rw [update_both_inr] at h2
    change m2.Lists _ (both n cnt (update seq i xs) (update seq'
      (bucketIdx hash cnt x) (x :: seq' (bucketIdx hash cnt x)))) at h2
    have hplace' : (oldBuckets i).place (x :: xs) = x := rfl
    simp only [hplace', moveLoop, if_neg (hlist.ne_listEnd (a := x) (by simp)), some_bind,
      hlist.listNext_eq, hremove]
    rw [show buckets (bucketIdx hash cnt x) =
      both n cnt oldBuckets buckets (.inr ⟨bucketIdx hash cnt x, hlt⟩) from rfl, hpush]
    have hplace2 := place_update hplace (List.forall_mem_cons.mpr ⟨rfl, hplace _ hlt⟩)
    refine (ih h2 (by simp) hplace2 (by simpa using hfuel)).mono ?_
    rintro m' ⟨seq'', hlists, hplace'', hmem⟩
    rw [update_idem] at hlists
    refine ⟨seq'', hlists, hplace'', fun e ↦ ?_⟩
    rw [hmem, mem_elems_cons hlt, List.mem_cons]
    exact or_left_comm.trans or_assoc.symm

/-- The elements of the first `k` old buckets are moved. -/
theorem moveBuckets_spec {k : Nat} (hpow : ∃ k, 2 ≤ k ∧ t.bucketCnt = 2 ^ k)
    (h : t.mem.Lists (both n t.bucketCnt oldBuckets t.buckets) (both n t.bucketCnt seq fun _ ↦ []))
    (hfuel : ∀ i < n, (seq i).length ≤ t.elemCnt) (hk : k ≤ n) :
    Returns (moveBuckets hash t oldBuckets k) fun m' ↦ ∃ seq',
      m'.Lists (both n t.bucketCnt oldBuckets t.buckets)
        (both n t.bucketCnt (fun i ↦ if i < k then [] else seq i) seq') ∧
      (∀ j < t.bucketCnt, ∀ e ∈ seq' j, bucketIdx hash t.bucketCnt e = j) ∧
      ∀ e, e ∈ elems t.bucketCnt seq' ↔ e ∈ elems k seq := by
  induction k with
  | zero => exact ⟨t.mem, rfl, fun _ ↦ [], by simpa using h, by simp, by simp [mem_elems]⟩
  | succ k ih =>
    refine (ih (by omega)).bind ?_
    rintro m1 ⟨seq1, h1, hplace1, hmem1⟩
    have hlist : m1.IsList (oldBuckets k) (seq k) := by
      simpa [both] using h1.list (.inl ⟨k, hk⟩)
    have hbegin := hlist.listBegin_eq
    simp only [hbegin]
    refine (moveLoop_spec (i := ⟨k, hk⟩) hpow h1 (by simp) hplace1 (hfuel k hk)).mono ?_
    rintro m2 ⟨seq2, h2, hplace2, hmem2⟩
    have hseq : update (fun i ↦ if i < k then [] else seq i) k [] =
        fun i ↦ if i < k + 1 then [] else seq i := by
      funext i
      by_cases hik : i = k
      · simp [hik]
      · rw [update_of_ne hik]
        exact if_congr (by omega) rfl rfl
    rw [hseq] at h2
    exact ⟨seq2, h2, hplace2, fun e ↦ by rw [hmem2, hmem1, mem_elems_succ]⟩

/-! ## The elements that are stored -/

variable {alloc : Nat → Option (Nat → ListHeader α)}

/-- Whether `rehash` wants an array and gets none. -/
def rehashFails (bucketCnt elemCnt : Nat) (alloc : Nat → Option (Nat → ListHeader α)) : Bool :=
  newBucketCnt elemCnt != bucketCnt && (alloc (newBucketCnt elemCnt)).isNone

/-- **`rehash`** keeps the elements, whether it has memory or not. -/
theorem Stores.rehash (h : t.Stores hash less S)
    (halloc : ∀ cnt buckets, alloc cnt = some buckets → FreshBuckets buckets cnt t.InUse) :
    Returns (t.rehash hash alloc) fun t' ↦ t'.Stores hash less S ∧ t'.elemCnt = t.elemCnt ∧
      (rehashFails t.bucketCnt t.elemCnt alloc = false →
        t'.bucketCnt = newBucketCnt t'.elemCnt) := by
  obtain ⟨seq, hseq, hmem⟩ := h
  obtain ⟨k, hk, hcnt, -⟩ := newBucketCnt_spec t.elemCnt
  rw [HashTable.rehash]
  by_cases heq : newBucketCnt t.elemCnt = t.bucketCnt
  · rw [if_pos heq]
    exact .pure ⟨⟨seq, hseq, hmem⟩, rfl, fun _ ↦ heq.symm⟩
  rw [if_neg heq]
  cases hb : alloc (newBucketCnt t.elemCnt) with
  | none => exact .pure ⟨⟨seq, hseq, hmem⟩, rfl, by simp [rehashFails, heq, hb]⟩
  | some buckets =>
    have hfresh := halloc _ _ hb
    have hinit := lists_initBuckets hseq.lists ⟨hfresh.distinct, hfresh.disjoint,
      fun i hi a ha hused ↦ hfresh.unused i hi a ha (hseq.inUse_iff.mpr hused)⟩
    refine (moveBuckets_spec (t := { t with
        mem := initBuckets t.mem buckets (newBucketCnt t.elemCnt)
        bucketCnt := newBucketCnt t.elemCnt, buckets }) ⟨k, hk, hcnt⟩ hinit
      (fun i hi ↦ hseq.cnt ▸ length_le_elems hi) (Nat.le_refl _)).bind ?_
    rintro m' ⟨seq', hlists, hplace, hmem'⟩
    have hnew := hlists.comp Sum.inr_injective
    have hperm : (elems (newBucketCnt t.elemCnt) seq').Perm (elems t.bucketCnt seq) :=
      (List.perm_ext_iff_of_nodup (nodup_elems hnew) (nodup_elems hseq.lists)).mpr hmem'
    refine .pure ⟨⟨seq', ⟨hnew, hplace, ?_, ⟨k, hk, hcnt⟩, fun a ha b hb ↦ ?_⟩, fun x ↦ ?_⟩, rfl,
      fun _ ↦ rfl⟩
    · exact hseq.cnt.trans hperm.length_eq.symm
    · exact hseq.inequiv a ((hmem' a).mp ha) b ((hmem' b).mp hb)
    · exact (hmem' x).trans (hmem x)

/-- **`insert_elem`** of an element that is not linked, and to which none is equivalent. -/
theorem Stores.insertElem [IsStrictWeakOrder α fun a b ↦ less a b] (h : t.Stores hash less S)
    (hnew : ¬ t.InUse x) (hequiv : ∀ y, S y → ¬ Equiv less y x) :
    Returns (t.insertElem (t.findBucket hash x) x) fun t' ↦
      t'.Stores hash less (fun y ↦ y = x ∨ S y) ∧ t'.bucketCnt = t.bucketCnt ∧
      t'.buckets = t.buckets ∧ t'.elemCnt = t.elemCnt + 1 := by
  obtain ⟨seq, hseq, hmem⟩ := h
  have hlt := bucketIdx_lt hash hseq.pow x
  have hfree : ∀ i : Fin t.bucketCnt, x ∉ (t.buckets i).cells (seq i) := fun i hx ↦
    hnew (hseq.inUse_iff.mpr ⟨i, i.isLt, hx⟩)
  refine (hseq.lists.listPushFront (i := ⟨bucketIdx hash t.bucketCnt x, hlt⟩) hfree).bind ?_
  rintro m' ⟨hlists, -⟩
  have hmem' : ∀ y, y ∈ elems t.bucketCnt (update seq (bucketIdx hash t.bucketCnt x)
      (x :: seq (bucketIdx hash t.bucketCnt x))) ↔ y = x ∨ S y := fun y ↦ by
    rw [mem_elems_cons hlt, hmem]
  have hlists' : m'.Lists (fun i : Fin t.bucketCnt ↦ t.buckets i) fun i ↦
      update seq (bucketIdx hash t.bucketCnt x)
        (x :: seq (bucketIdx hash t.bucketCnt x)) i := by
    rw [← update_comp_eq_of_injective' _ Fin.val_injective] at hlists
    exact hlists
  have hnot : x ∉ elems t.bucketCnt seq := fun hx ↦
    hequiv x ((hmem x).mp hx) ((classes less).refl x)
  have hperm : (elems t.bucketCnt (update seq (bucketIdx hash t.bucketCnt x)
      (x :: seq (bucketIdx hash t.bucketCnt x)))).Perm (x :: elems t.bucketCnt seq) := by
    refine (List.perm_ext_iff_of_nodup (nodup_elems hlists') ?_).mpr fun y ↦ ?_
    · exact List.nodup_cons.mpr ⟨hnot, nodup_elems hseq.lists⟩
    · rw [mem_elems_cons hlt, List.mem_cons]
  refine .pure ⟨⟨_, ⟨hlists', ?_, ?_, hseq.pow, ?_⟩, hmem'⟩, rfl, rfl, rfl⟩
  · exact place_update hseq.place (List.forall_mem_cons.mpr ⟨rfl, hseq.place _ hlt⟩)
  · change t.elemCnt + 1 = _
    rw [hperm.length_eq, List.length_cons, hseq.cnt]
  · intro a ha b hb hab
    have hinequiv := hseq.inequiv
    simp only [hmem] at hinequiv
    rcases (hmem' a).mp ha with rfl | hSa <;> rcases (hmem' b).mp hb with rfl | hSb
    · rfl
    · exact absurd ((classes less).symm hab) (hequiv b hSb)
    · exact absurd hab (hequiv a hSa)
    · exact hinequiv a hSa b hSb hab

/-- **`remove_elem`** of an element of the table. -/
theorem Stores.removeElem (h : t.Stores hash less S) (hx : S x) : Returns (t.removeElem x) fun t' ↦
      t'.Stores hash less (fun y ↦ S y ∧ y ≠ x) ∧ t'.bucketCnt = t.bucketCnt ∧
      t'.buckets = t.buckets ∧ t'.elemCnt = t.elemCnt - 1 := by
  obtain ⟨seq, hseq, hmem⟩ := h
  obtain ⟨i, hi, hxi⟩ := mem_elems.mp ((hmem x).mpr hx)
  obtain ⟨xs, ys, hsplit⟩ := List.append_of_mem hxi
  have hnodup := nodup_elems hseq.lists
  refine (hseq.lists.listRemove (i := ⟨i, hi⟩) hsplit).bind ?_
  rintro ⟨_, m'⟩ ⟨-, hlists, -⟩
  have hlists' : m'.Lists (fun i : Fin t.bucketCnt ↦ t.buckets i) fun j ↦
      update seq i (xs ++ ys) j := by
    rw [← update_comp_eq_of_injective' _ Fin.val_injective] at hlists
    exact hlists
  have hmem' : ∀ y, y ∈ elems t.bucketCnt (update seq i (xs ++ ys)) ↔ S y ∧ y ≠ x :=
    fun y ↦ by rw [mem_elems_removed hnodup hi hsplit, hmem]
  have hperm : (elems t.bucketCnt seq).Perm
      (x :: elems t.bucketCnt (update seq i (xs ++ ys))) := by
    refine (List.perm_ext_iff_of_nodup hnodup (List.nodup_cons.mpr
      ⟨fun hmem ↦ ((hmem' x).mp hmem).2 rfl, nodup_elems hlists'⟩)).mpr fun y ↦ ?_
    rw [List.mem_cons, hmem', hmem]
    by_cases hy : y = x
    · simp [hy, hx]
    · simp [hy]
  refine .pure ⟨⟨_, ⟨hlists', ?_, ?_, hseq.pow, ?_⟩, hmem'⟩, rfl, rfl, rfl⟩
  · refine place_update hseq.place fun e he ↦ hseq.place i hi e ?_
    rw [hsplit]
    exact List.mem_append.mpr ((List.mem_append.mp he).imp id (List.mem_cons_of_mem x))
  · change t.elemCnt - 1 = _
    rw [hseq.cnt, hperm.length_eq, List.length_cons, Nat.add_sub_cancel]
  · exact fun a ha b hb ↦ hseq.inequiv a ((hmem a).mpr ((hmem' a).mp ha).1) b
      ((hmem b).mpr ((hmem' b).mp hb).1)

/-! ## A map -/

/-- A call that changes a table. -/
inductive Call (α : Type) where
  | insert (new : α)
  | replace (new : α)
  | delete (e : α)

/-- The element that a call may link. -/
def Call.linked : Call α → Option α
  | insert new => some new
  | replace new => some new
  | delete _ => none

variable (hash less) in
/-- The call; the element that it returns, and the table. -/
def Call.exec (t : HashTable α) (alloc : Nat → Option (Nat → ListHeader α)) :
    Call α → Kernel (Option α × HashTable α)
  | insert new => t.hashInsert hash less new alloc
  | replace new => t.hashReplace hash less new alloc
  | delete e => t.hashDelete hash less e alloc

section Map

variable (less) [IsStrictWeakOrder α fun a b ↦ less a b]

/-- A map from classes of equivalent elements to elements. -/
abbrev ClassMap : Type := Quotient (classes less) → Option α

variable {less} {M : ClassMap less}

open Classical in
/-- What a call returns, and does to a map. -/
noncomputable def Call.onMap (M : ClassMap less) : Call α → Option α × ClassMap less
  | insert new =>
    (M ⟦new⟧, if M ⟦new⟧ = none then update M ⟦new⟧ (some new) else M)
  | replace new => (M ⟦new⟧, update M ⟦new⟧ (some new))
  | delete e => (M ⟦e⟧, update M ⟦e⟧ none)

variable (hash) in
/-- The table is one of the elements of the map. -/
structure Represents (t : HashTable α) (M : ClassMap less) : Prop where
  stores : t.Stores hash less fun x ↦ M ⟦x⟧ = some x
  key : ∀ c x, M c = some x → ⟦x⟧ = c

theorem Represents.findElem (h : t.Represents hash M)
    (hhash : ∀ a b, Equiv less a b → hash a = hash b) (e : α) :
    t.findElem less (t.findBucket hash e) e = some (M ⟦e⟧) := by
  obtain ⟨seq, hseq, hmem⟩ := h.stores
  obtain ⟨old, hold, hfound⟩ := hseq.findElem_spec hhash e
  rw [hold]
  congr 1
  refine Option.ext fun x ↦ ?_
  rw [hfound, hmem]
  constructor
  · rintro ⟨hx, heq⟩
    rwa [Quotient.sound (s := classes less) heq] at hx
  · intro hx
    have heq := h.key _ x hx
    exact ⟨(congrArg M heq).trans hx, Quotient.exact heq⟩

open Classical in
/-- An element to which none is equivalent is added. -/
theorem Represents.insertElem (h : t.Represents hash M) (hnew : ¬ t.InUse x)
    (hnone : M ⟦x⟧ = none) : Returns (t.insertElem (t.findBucket hash x) x) fun t' ↦
      t'.Represents hash (update M ⟦x⟧ (some x)) ∧ t'.bucketCnt = t.bucketCnt ∧
      t'.elemCnt = t.elemCnt + 1 ∧ ∀ a, t'.InUse a → t.InUse a ∨ a = x := by
  have hequiv : ∀ y, M ⟦y⟧ = some y → ¬ Equiv less y x := by
    intro y hy heq
    rw [Quotient.sound (s := classes less) heq, hnone] at hy
    cases hy
  refine (h.stores.insertElem hnew hequiv).mono ?_
  rintro t' ⟨hstores, hcnt, hbuckets, helem⟩
  refine ⟨⟨hstores.congr fun y ↦ ?_, fun c y hy ↦ ?_⟩, hcnt, helem, fun a ha ↦ ?_⟩
  · by_cases hyx : (⟦y⟧ : Quotient (classes less)) = ⟦x⟧
    · simp [hyx, hnone, eq_comm]
    · have hne : y ≠ x := fun heq ↦ hyx (congrArg _ heq)
      simp [hyx, hne]
  · by_cases hc : c = ⟦x⟧
    · subst hc
      rw [update_self, Option.some_inj] at hy
      rw [hy]
    · rw [update_of_ne hc] at hy
      exact h.key c y hy
  · rw [hstores.inUse_iff] at ha
    rw [h.stores.inUse_iff]
    rcases ha with ha | rfl | ha
    · simp only [IsHeader, hcnt, hbuckets] at ha
      exact .inl (.inl ha)
    · exact .inr rfl
    · exact .inl (.inr ha)

open Classical in
/-- The element of a class is removed. -/
theorem Represents.removeElem {c : Quotient (classes less)} (h : t.Represents hash M)
    (hx : M c = some x) : Returns (t.removeElem x) fun t' ↦
      t'.Represents hash (update M c none) ∧ t'.bucketCnt = t.bucketCnt ∧
      t'.buckets = t.buckets ∧ ∀ a, t'.InUse a → t.InUse a := by
  obtain rfl : ⟦x⟧ = c := h.key c x hx
  refine (h.stores.removeElem hx).mono ?_
  rintro t' ⟨hstores, hcnt, hbuckets, -⟩
  refine ⟨⟨hstores.congr fun y ↦ ?_, fun c y hy ↦ ?_⟩, hcnt, hbuckets, fun a ha ↦ ?_⟩
  · by_cases hyx : (⟦y⟧ : Quotient (classes less)) = ⟦x⟧
    · simp [hyx, hx, eq_comm]
    · have hne : y ≠ x := fun heq ↦ hyx (congrArg _ heq)
      simp [hyx, hne]
  · by_cases hc : c = ⟦x⟧
    · subst hc
      rw [update_self] at hy
      cases hy
    · rw [update_of_ne hc] at hy
      exact h.key c y hy
  · rw [hstores.inUse_iff] at ha
    rw [h.stores.inUse_iff]
    refine ha.imp (fun ha ↦ ?_) And.left
    simp only [IsHeader, hcnt, hbuckets] at ha
    exact ha

theorem Represents.rehash (h : t.Represents hash M)
    (halloc : ∀ cnt buckets, alloc cnt = some buckets → FreshBuckets buckets cnt t.InUse) :
    Returns (t.rehash hash alloc) fun t' ↦ t'.Represents hash M ∧ t'.elemCnt = t.elemCnt ∧
      (rehashFails t.bucketCnt t.elemCnt alloc = false → t'.bucketCnt = newBucketCnt t'.elemCnt) :=
  (h.stores.rehash halloc).mono fun _ ht' ↦ ⟨⟨ht'.1, h.key⟩, ht'.2⟩

/-! ## Calls -/

/-- A call, and what `malloc` returns in it for an array of a number of buckets. -/
structure Step (α : Type) where
  call : Call α
  alloc : Nat → Option (Nat → ListHeader α)

/-- The element that a call may link is not linked, and memory that is allocated is not in use. -/
structure Proper (t : HashTable α) (a : Step α) : Prop where
  new : ∀ new ∈ a.call.linked, ¬ t.InUse new
  fresh : ∀ cnt buckets, a.alloc cnt = some buckets →
    FreshBuckets buckets cnt fun x ↦ t.InUse x ∨ x ∈ a.call.linked

/-- Whether a call that returns an element calls `rehash`. -/
def Call.rehashes (found : Option α) : Call α → Bool
  | insert _ => true
  | replace _ => true
  | delete _ => found.isSome

variable {a : Step α}

/-- The last thing that a call does. -/
theorem Represents.rehash_of_proper (h : t'.Represents hash M) (ha : Proper t a)
    (huse : ∀ x, t'.InUse x → t.InUse x ∨ x ∈ a.call.linked) (hcnt : t'.bucketCnt = t.bucketCnt) :
    Returns (t'.rehash hash a.alloc) fun u ↦ u.Represents hash M ∧
      (rehashFails t.bucketCnt u.elemCnt a.alloc = false →
        u.bucketCnt = newBucketCnt u.elemCnt) := by
  refine (h.rehash fun cnt buckets hb ↦ (ha.fresh cnt buckets hb).mono huse).mono ?_
  rintro u ⟨hu, helem, hbucket⟩
  refine ⟨hu, fun hfails ↦ hbucket ?_⟩
  rwa [hcnt, ← helem]

open Classical in
/-- **Each call returns what it does on the map, and does the same to the table.** -/
theorem Represents.exec (h : t.Represents hash M)
    (hhash : ∀ a b, Equiv less a b → hash a = hash b) (ha : Proper t a) :
    Returns (a.call.exec hash less t a.alloc) fun r ↦ r.1 = (a.call.onMap M).1 ∧
      r.2.Represents hash (a.call.onMap M).2 ∧
      if a.call.rehashes r.1 then rehashFails t.bucketCnt r.2.elemCnt a.alloc = false →
        r.2.bucketCnt = newBucketCnt r.2.elemCnt else r.2 = t := by
  obtain ⟨call, alloc⟩ := a
  cases call with
  | insert new =>
    have hnew := ha.new new rfl
    simp only [Call.exec, hashInsert, h.findElem hhash, some_bind]
    by_cases hold : M ⟦new⟧ = none
    · rw [if_pos hold]
      obtain ⟨t1, ht1, h1, hcnt, -, huse⟩ := h.insertElem hnew hold
      obtain ⟨u, hu, hM, hfails⟩ := h1.rehash_of_proper ha
        (fun x hx ↦ (huse x hx).imp id fun hx ↦ congrArg some hx.symm) hcnt
      refine ⟨(M ⟦new⟧, u), by simp [ht1, hu], rfl, ?_, hfails⟩
      simpa only [Call.onMap, if_pos hold] using hM
    · rw [if_neg hold]
      obtain ⟨u, hu, hM, hfails⟩ := h.rehash_of_proper ha (fun x ↦ .inl) rfl
      refine ⟨(M ⟦new⟧, u), by simp [hu], rfl, ?_, hfails⟩
      simpa only [Call.onMap, if_neg hold] using hM
  | replace new =>
    have hnew := ha.new new rfl
    simp only [Call.exec, hashReplace, h.findElem hhash, some_bind]
    cases hold : M ⟦new⟧ with
    | none =>
      obtain ⟨t1, ht1, h1, hcnt, -, huse⟩ := h.insertElem hnew hold
      obtain ⟨u, hu, hM, hfails⟩ := h1.rehash_of_proper ha
        (fun x hx ↦ (huse x hx).imp id fun hx ↦ congrArg some hx.symm) hcnt
      exact ⟨(none, u), by simp [ht1, hu], hold.symm, hM, hfails⟩
    | some old =>
      obtain ⟨t1, ht1, h1, hcnt1, hbuckets, huse1⟩ := h.removeElem hold
      have hbucket : t.findBucket hash new = t1.findBucket hash new := by
        rw [findBucket, findBucket, hcnt1, hbuckets]
      obtain ⟨t2, ht2, h2, hcnt2, -, huse2⟩ :=
        h1.insertElem (x := new) (fun hx ↦ hnew (huse1 new hx)) (by rw [update_self])
      obtain ⟨u, hu, hM, hfails⟩ := h2.rehash_of_proper ha
        (fun x hx ↦ (huse2 x hx).imp (huse1 x) fun hx ↦ congrArg some hx.symm)
        (hcnt2.trans hcnt1)
      rw [update_idem] at hM
      exact ⟨(some old, u), by simp [ht1, hbucket, ht2, hu], hold.symm, hM, hfails⟩
  | delete e =>
    simp only [Call.exec, hashDelete, h.findElem hhash, some_bind]
    cases hold : M ⟦e⟧ with
    | none =>
      refine ⟨(none, t), rfl, hold.symm, ?_, rfl⟩
      simpa only [Call.onMap, ← hold, update_eq_self] using h
    | some old =>
      obtain ⟨t1, ht1, h1, hcnt, -, huse⟩ := h.removeElem hold
      obtain ⟨u, hu, hM, hfails⟩ := h1.rehash_of_proper ha (fun x hx ↦ .inl (huse x hx)) hcnt
      exact ⟨(some old, u), by simp [ht1, hu], hold.symm, hM, hfails⟩

/-! ## Runs -/

/-- A table, whether the last `rehash` failed, and what the calls so far returned, the last one
first. -/
structure State (α : Type) where
  table : HashTable α
  failed : Bool
  returned : List (Option α)

variable (hash less) in
omit [IsStrictWeakOrder α fun a b ↦ less a b] in
/-- A call. -/
def step (s : State α) (a : Step α) : Option (State α) := do
  let (found, table) ← a.call.exec hash less s.table a.alloc
  let failed := if a.call.rehashes found then
    rehashFails s.table.bucketCnt table.elemCnt a.alloc else s.failed
  return ⟨table, failed, found :: s.returned⟩

/-- The same on the map and what the calls so far returned. -/
noncomputable def stepMap (s : ClassMap less × List (Option α)) (a : Step α) :
    ClassMap less × List (Option α) :=
  ((a.call.onMap s.1).2, (a.call.onMap s.1).1 :: s.2)

/-- An empty table. -/
theorem represents_hashInit {m : ListMem α} (hinit : hashInit m alloc = some t)
    (hfresh : ∀ cnt buckets, alloc cnt = some buckets → FreshBuckets buckets cnt fun _ ↦ False) :
    t.Represents hash (fun _ ↦ none : ClassMap less) ∧ t.bucketCnt = 4 ∧ t.elemCnt = 0 := by
  simp only [hashInit, bind_eq_some, pure_eq_some] at hinit
  obtain ⟨buckets, hb, rfl⟩ := hinit
  have hf := hfresh 4 buckets hb
  have hlists : (initBuckets m buckets 4).Lists (fun i : Fin 4 ↦ buckets i) fun _ ↦ [] :=
    ⟨fun i ↦ (initBuckets_spec hf).1 i i.isLt, fun i j hne ↦
      hf.disjoint i i.isLt j j.isLt fun heq ↦ hne (Fin.ext heq)⟩
  refine ⟨⟨⟨fun _ ↦ [], ⟨hlists, by simp, by simp [elems], ⟨2, by decide, rfl⟩, ?_⟩, ?_⟩, ?_⟩,
    rfl, rfl⟩
  · simp [elems]
  · simp [elems]
  · simp

/-- **A hash table is a map**, from classes of elements that are equivalent to elements.  After any
calls, in which there may be memory for an array of buckets or not, the number of buckets is a power
of two that is at least 4, every element is in the bucket that its hash value says and no two of
them are equivalent.  The calls have returned what they return on a map, the elements of the table
are those of that map, and each is found.  If the last `rehash` did not fail, there are at most four
elements per bucket. -/
theorem hash_refines (hhash : ∀ a b, Equiv less a b → hash a = hash b) {m : ListMem α}
    (hinit : hashInit m alloc = some t)
    (hfresh : ∀ cnt buckets, alloc cnt = some buckets → FreshBuckets buckets cnt fun _ ↦ False)
    {steps : List (Step α)}
    (hproper : Run.Meets (step hash less) (fun s a ↦ Proper s.table a) ⟨t, false, []⟩ steps) :
    Returns (Run.run (step hash less) ⟨t, false, []⟩ steps) fun s ↦
      ∃ M : ClassMap less, (M, s.returned) = steps.foldl stepMap (fun _ ↦ none, []) ∧
      (∃ seq, Holds hash less s.table seq ∧ ∀ e, e ∈ elems s.table.bucketCnt seq ↔ M ⟦e⟧ = some e) ∧
      (∀ e, s.table.hashFind hash less e = some (M ⟦e⟧)) ∧
      (s.failed = false → s.table.elemCnt ≤ 4 * s.table.bucketCnt) := by
  obtain ⟨hempty, hbucket, helem⟩ :
      t.Represents hash (fun _ ↦ none : ClassMap less) ∧ t.bucketCnt = 4 ∧ t.elemCnt = 0 :=
    represents_hashInit hinit hfresh
  refine (Run.simulates (f := stepMap) (R := fun (s : State α) (x : ClassMap less × _) ↦
    s.table.Represents hash x.1 ∧ s.returned = x.2 ∧
    (s.failed = false → s.table.bucketCnt = newBucketCnt s.table.elemCnt)) ?_
    (x := (fun _ ↦ none, [])) ⟨hempty, rfl, fun _ ↦ ?_⟩ hproper).mono ?_
  · rintro s x a ⟨hs, hreturned, hfailed⟩ ha
    obtain ⟨⟨found, table⟩, hexec, hfound, hM, hrehash⟩ := hs.exec hhash ha
    refine ⟨_, by simp only [step, hexec]; rfl, hM, ?_, ?_⟩
    · rw [stepMap, ← hfound, ← hreturned]
    · by_cases hr : a.call.rehashes found = true
      · rw [if_pos hr] at hrehash ⊢
        exact hrehash
      · rw [if_neg hr] at hrehash ⊢
        exact hrehash ▸ hfailed
  · rw [hbucket, helem]
    decide
  · rintro s ⟨hs, hreturned, hfailed⟩
    refine ⟨_, Prod.ext rfl hreturned, hs.stores, fun e ↦ hs.findElem hhash e, fun hf ↦ ?_⟩
    obtain ⟨-, -, -, hle⟩ := newBucketCnt_spec s.table.elemCnt
    rwa [← hfailed hf] at hle

/-- Elements can be inserted one after another, without memory for more buckets. -/
theorem Represents.meets_insert (hhash : ∀ a b, Equiv less a b → hash a = hash b) {xs : List α}
    {rest : List (Step α)} {s : State α} (hs : s.table.Represents hash M) (hxs : xs.Nodup)
    (hnew : ∀ x ∈ xs, ¬ s.table.InUse x) (hrest : ∀ s' : State α,
      (∀ a, s'.table.InUse a → s.table.InUse a ∨ a ∈ xs) →
        Run.Meets (step hash less) (fun s a ↦ Proper s.table a) s' rest) :
    Run.Meets (step hash less) (fun s a ↦ Proper s.table a) s
      (xs.map (fun x ↦ ⟨.insert x, fun _ ↦ none⟩) ++ rest) := by
  induction xs generalizing s M with
  | nil => exact hrest s fun a ↦ .inl
  | cons x xs ih =>
    obtain ⟨hx, hxs⟩ := List.nodup_cons.mp hxs
    rw [List.forall_mem_cons] at hnew
    refine ⟨⟨by rintro _ ⟨⟩; exact hnew.1, by simp⟩, fun s' hs' ↦ ?_⟩
    obtain ⟨M', hM', huse⟩ : ∃ M', s'.table.Represents hash M' ∧
        ∀ a, s'.table.InUse a → s.table.InUse a ∨ a = x := by
      simp only [step, Call.exec, hashInsert, hs.findElem hhash, some_bind, HashTable.rehash,
        ite_self] at hs'
      by_cases hold : M ⟦x⟧ = none
      · obtain ⟨t1, ht1, h1, -, -, huse⟩ := hs.insertElem hnew.1 hold
        rw [if_pos hold, ht1] at hs'
        obtain rfl := Option.some.inj hs'
        exact ⟨_, h1, huse⟩
      · rw [if_neg hold] at hs'
        obtain rfl := Option.some.inj hs'
        exact ⟨M, hs, fun a ↦ .inl⟩
    refine ih hM' hxs (fun y hy hin ↦ ?_) fun s'' hin ↦ hrest s'' fun a ha ↦ ?_
    · rcases huse y hin with h | rfl
      · exact hnew.2 y hy h
      · exact hx hy
    · rcases hin a ha with h | h
      · exact (huse a h).imp_right fun heq : a = x ↦ heq ▸ List.mem_cons_self
      · exact .inr (List.mem_cons_of_mem x h)

end Map

/-! ## The supplemental page table

Its elements are page entries, and `vaddr` is the address that an entry holds. -/

/-- `hash_bytes`. -/
def hashBytes (buf : List UInt8) : UInt32 :=
  buf.foldl (fun hash b ↦ (hash * 16777619) ^^^ b.toUInt32) 2166136261

/-- `hash_int`, of the bytes of a number. -/
def hashInt (i : UInt32) : UInt32 :=
  hashBytes [i.toUInt8, (i >>> 8).toUInt8, (i >>> 16).toUInt8, (i >>> 24).toUInt8]

/-- `spt_hash_func`. -/
def sptHashFunc (vaddr : α → UInt32) (e : α) : Nat := (hashInt (vaddr e)).toNat

/-- `spt_less_func`. -/
def sptLessFunc (vaddr : α → UInt32) (a b : α) : Bool := vaddr a < vaddr b

section Spt

omit [DecidableEq α]

variable {vaddr : α → UInt32}

/-- Two entries are equivalent if their addresses are the same. -/
theorem equiv_sptLessFunc {a b : α} : Equiv (sptLessFunc vaddr) a b ↔ vaddr a = vaddr b := by
  simp only [Equiv, sptLessFunc, decide_eq_true_eq, UInt32.lt_iff_toNat_lt, ← UInt32.toNat_inj]
  omega

instance : IsStrictWeakOrder α fun a b ↦ sptLessFunc vaddr a b where
  irrefl a := by simp [sptLessFunc]
  trans a b c := by
    simp only [sptLessFunc, decide_eq_true_eq]
    exact UInt32.lt_trans
  incomp_trans a b c hab hbc :=
    equiv_sptLessFunc.mpr ((equiv_sptLessFunc.mp hab).trans (equiv_sptLessFunc.mp hbc))

theorem sptHashFunc_eq {a b : α} (h : Equiv (sptLessFunc vaddr) a b) :
    sptHashFunc vaddr a = sptHashFunc vaddr b := by
  rw [sptHashFunc, sptHashFunc, equiv_sptLessFunc.mp h]

end Spt

/-- The entries `2 * n` and `2 * n + 1` are of page `n`. -/
abbrev pageOf (a : Nat) : UInt32 := .ofNat (a / 2 * 4096)

/-- Headers above everything that is in use. -/
theorem freshBuckets_above {used : Nat → Prop} (n cnt : Nat) (hused : ∀ a, used a → a < n) :
    FreshBuckets (fun i ↦ ⟨2 * i + n, 2 * i + (n + 1)⟩) cnt used := by
  refine ⟨fun i _ ↦ by simp, fun i _ j _ hne a ha hb ↦ ?_, fun i _ a ha hin ↦ ?_⟩
  · simp only [ListHeader.mem_cells, List.not_mem_nil, false_or] at ha hb
    omega
  · simp only [ListHeader.mem_cells, List.not_mem_nil, false_or] at ha
    have := hused a hin
    omega

/-- Entries of sixteen pages are inserted, and the last of them moves all to eight buckets.  Then
the first one is deleted, with the other entry of its page as the key. -/
abbrev sixteenPages : List (Step Nat) :=
  [100, 102, 104, 106, 108, 110, 112, 114, 116, 118, 120, 122, 124, 126, 128].map
    (fun x ↦ ⟨.insert x, fun _ ↦ none⟩) ++
  [⟨.insert 130, fun _ ↦ some fun i ↦ ⟨2 * i + 200, 2 * i + 201⟩⟩, ⟨.delete 101, fun _ ↦ none⟩]

theorem hash_refines_spt :
    Returns (hashInit ⟨fun _ ↦ ⟨none, none⟩⟩ fun _ ↦ some fun i ↦ ⟨2 * i, 2 * i + 1⟩) fun t ↦
      Returns (Run.run (step (sptHashFunc pageOf) (sptLessFunc pageOf)) ⟨t, false, []⟩
          sixteenPages) fun s ↦
        s.returned = some 100 :: List.replicate 16 none ∧
        s.table.hashFind (sptHashFunc pageOf) (sptLessFunc pageOf) 131 = some (some 130) := by
  obtain ⟨t, hinit⟩ : ∃ t, hashInit ⟨fun _ : Nat ↦ ⟨none, none⟩⟩
    (fun _ ↦ some fun i ↦ ⟨2 * i, 2 * i + 1⟩) = some t := ⟨_, rfl⟩
  have hfirst : ∀ cnt (buckets : Nat → ListHeader Nat),
      (some fun i ↦ ⟨2 * i, 2 * i + 1⟩) = some buckets →
        FreshBuckets buckets cnt fun _ ↦ False := by
    rintro cnt _ ⟨⟩
    exact freshBuckets_above 0 cnt fun _ ↦ False.elim
  obtain ⟨hempty, hcnt, -⟩ : t.Represents (sptHashFunc pageOf)
      (fun _ ↦ none : ClassMap (sptLessFunc pageOf)) ∧ t.bucketCnt = 4 ∧ t.elemCnt = 0 :=
    represents_hashInit hinit hfirst
  have hheaders : ∀ a, t.InUse a → a < 100 := by
    intro a ha
    rw [hempty.stores.inUse_iff] at ha
    obtain rfl := Option.some.inj hinit
    rcases ha with ⟨i, hi, ha⟩ | ha
    · rw [hcnt] at hi
      dsimp only at ha
      omega
    · cases ha
  have hproper : Run.Meets (step (sptHashFunc pageOf) (sptLessFunc pageOf))
      (fun s a ↦ Proper s.table a) ⟨t, false, []⟩ sixteenPages := by
    have hpages : ∀ x ∈ [100, 102, 104, 106, 108, 110, 112, 114, 116, 118, 120, 122, 124, 126, 128],
        100 ≤ x ∧ x < 130 := by decide
    refine hempty.meets_insert (fun a b ↦ sptHashFunc_eq) (by decide)
      (fun x hx hin ↦ Nat.not_lt.mpr (hpages x hx).1 (hheaders x hin)) fun s' hin ↦ ?_
    have hin' : ∀ a, s'.table.InUse a → a < 130 := fun a ha ↦
      (hin a ha).elim (fun h ↦ (hheaders a h).trans (by decide)) fun h ↦ (hpages a h).2
    refine ⟨⟨?_, ?_⟩, fun s'' _ ↦ ⟨⟨by simp [Call.linked], by simp⟩, fun _ _ ↦ trivial⟩⟩
    · rintro _ ⟨⟩ ha
      exact Nat.lt_irrefl _ (hin' _ ha)
    · rintro cnt _ ⟨⟩
      refine freshBuckets_above 200 cnt ?_
      rintro a (ha | ⟨⟨⟩⟩)
      · exact (hin' a ha).trans (by decide)
      · decide
  refine ⟨t, hinit, (hash_refines (fun a b ↦ sptHashFunc_eq) hinit hfirst hproper).mono ?_⟩
  rintro s ⟨M, hM, -, hfind, -⟩
  have heq (a b : Nat) : (⟦a⟧ : Quotient (classes (sptLessFunc pageOf))) = ⟦b⟧ ↔
      pageOf a = pageOf b := Quotient.eq.trans equiv_sptLessFunc
  simp only [sixteenPages, List.map_cons, List.map_nil, List.foldl_append] at hM
  simp [stepMap, Call.onMap, update_apply, heq] at hM
  simp [hfind, hM, update_apply, heq]

end HashTable

end Pintos
