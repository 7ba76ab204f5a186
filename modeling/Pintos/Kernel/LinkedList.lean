import Pintos.Kernel.Bitmap
import Pintos.Logic.Links
import Pintos.Logic.Returns

/-!
# Linked lists

`lib/kernel/list.c`.  A list has two header elements, the head and the tail, and the elements are
linked in both directions between them.  The memory (`ListMem`) gives the two links of each element;
it may hold any number of lists, and elements that are in none.

`ListMem.IsList` says what a list in memory is a list of: going forward from the head one meets the
elements, and going back from the tail one meets them in the opposite order.  With any number of
lists in memory that have no element in common (`ListMem.Lists`), each operation does to its list
what it is called after, and nothing to the others (`ListMem.lists_refine`).

All of them are made of one step, which links an element to another (`ListMem.link`), so the
results come from those of `Links`.
-/

set_option autoImplicit false

namespace Pintos

open Function List

/-- `struct list_elem`; a null pointer is `none`. -/
structure ListElem (α : Type) where
  prev : Option α
  next : Option α
  deriving DecidableEq, Repr

/-- `struct list`: where its two header elements are. -/
structure ListHeader (α : Type) where
  head : α
  tail : α
  deriving DecidableEq, Repr

/-- The elements at each address. -/
structure ListMem (α : Type) where
  elem : α → ListElem α

namespace ListMem

variable {α : Type} [DecidableEq α]

def prev (m : ListMem α) (e : α) : Option α := (m.elem e).prev

def next (m : ListMem α) (e : α) : Option α := (m.elem e).next

def setPrev (m : ListMem α) (e : α) (p : Option α) : ListMem α :=
  ⟨update m.elem e { m.elem e with prev := p }⟩

def setNext (m : ListMem α) (e : α) (p : Option α) : ListMem α :=
  ⟨update m.elem e { m.elem e with next := p }⟩

/-! ## The functions of `list.c` -/

/-- `is_head`. -/
def isHead (m : ListMem α) : Option α → Bool
  | some e => (m.prev e).isNone && (m.next e).isSome
  | none => false

/-- `is_interior`. -/
def isInterior (m : ListMem α) : Option α → Bool
  | some e => (m.prev e).isSome && (m.next e).isSome
  | none => false

/-- `is_tail`. -/
def isTail (m : ListMem α) : Option α → Bool
  | some e => (m.prev e).isSome && (m.next e).isNone
  | none => false

/-- `list_init`. -/
def listInit (m : ListMem α) (list : ListHeader α) : ListMem α :=
  let m := m.setPrev list.head none
  let m := m.setNext list.head (some list.tail)
  let m := m.setPrev list.tail (some list.head)
  m.setNext list.tail none

/-- `list_begin`. -/
def listBegin (m : ListMem α) (list : ListHeader α) : Option α := m.next list.head

/-- `list_next`. -/
def listNext (m : ListMem α) (elem : Option α) : Kernel (Option α) := do
  assert (m.isHead elem || m.isInterior elem)
  return m.next (← elem)

/-- `list_end`. -/
def listEnd (list : ListHeader α) : Option α := some list.tail

/-- `list_prev`. -/
def listPrev (m : ListMem α) (elem : Option α) : Kernel (Option α) := do
  assert (m.isInterior elem || m.isTail elem)
  return m.prev (← elem)

/-- `list_empty`. -/
def listEmpty (m : ListMem α) (list : ListHeader α) : Bool := m.listBegin list == listEnd list

/-- `list_front`. -/
def listFront (m : ListMem α) (list : ListHeader α) : Kernel (Option α) := do
  assert (!m.listEmpty list)
  return m.next list.head

/-- `list_back`. -/
def listBack (m : ListMem α) (list : ListHeader α) : Kernel (Option α) := do
  assert (!m.listEmpty list)
  return m.prev list.tail

/-- `list_insert`. -/
def listInsert (m : ListMem α) (before elem : Option α) : Kernel (ListMem α) := do
  assert (m.isInterior before || m.isTail before)
  assert elem.isSome
  let before ← before
  let elem ← elem
  let m := m.setPrev elem (m.prev before)
  let m := m.setNext elem (some before)
  let m := m.setNext (← m.prev before) (some elem)
  return m.setPrev before (some elem)

/-- `list_splice`. -/
def listSplice (m : ListMem α) (before first last : Option α) : Kernel (ListMem α) := do
  assert (m.isInterior before || m.isTail before)
  if first = last then return m
  let last ← m.listPrev last
  assert (m.isInterior first)
  assert (m.isInterior last)
  let before ← before
  let first ← first
  let last ← last
  -- `first` to `last` are removed from their list.
  let m := m.setNext (← m.prev first) (m.next last)
  let m := m.setPrev (← m.next last) (m.prev first)
  -- They are put into the new one.
  let m := m.setPrev first (m.prev before)
  let m := m.setNext last (some before)
  let m := m.setNext (← m.prev before) (some first)
  return m.setPrev before (some last)

/-- `list_push_front`. -/
def listPushFront (m : ListMem α) (list : ListHeader α) (elem : Option α) : Kernel (ListMem α) :=
  m.listInsert (m.listBegin list) elem

/-- `list_push_back`. -/
def listPushBack (m : ListMem α) (list : ListHeader α) (elem : Option α) : Kernel (ListMem α) :=
  m.listInsert (listEnd list) elem

/-- `list_remove`: the element that followed. -/
def listRemove (m : ListMem α) (elem : Option α) : Kernel (Option α × ListMem α) := do
  assert (m.isInterior elem)
  let elem ← elem
  let m := m.setNext (← m.prev elem) (m.next elem)
  let m := m.setPrev (← m.next elem) (m.prev elem)
  return (m.next elem, m)

/-- `list_pop_front`. -/
def listPopFront (m : ListMem α) (list : ListHeader α) : Kernel (Option α × ListMem α) := do
  let front ← m.listFront list
  let (_, m) ← m.listRemove front
  return (front, m)

/-- `list_pop_back`. -/
def listPopBack (m : ListMem α) (list : ListHeader α) : Kernel (Option α × ListMem α) := do
  let back ← m.listBack list
  let (_, m) ← m.listRemove back
  return (back, m)

/-- The loop of `list_reverse`, for at most `fuel` elements. -/
def reverseLoop (list : ListHeader α) : Nat → ListMem α → Option α → Kernel (ListMem α)
  | 0, m, e => if e = listEnd list then some m else none
  | fuel + 1, m, e =>
    if e = listEnd list then some m
    else do
      let e ← e
      let m := (m.setPrev e (m.next e)).setNext e (m.prev e)
      reverseLoop list fuel m (m.prev e)

/-- `list_reverse`, of a list with at most `fuel` elements. -/
def listReverse (fuel : Nat) (m : ListMem α) (list : ListHeader α) : Kernel (ListMem α) := do
  if m.listEmpty list then return m
  let m ← reverseLoop list fuel m (m.listBegin list)
  let m := (m.setNext list.head (m.prev list.tail)).setPrev list.tail (m.next list.head)
  let first ← m.next list.head
  let last ← m.prev list.tail
  return (m.setPrev first (m.next last)).setNext last (m.prev first)

/-! ## Links -/

variable {m m' : ListMem α} {a b e : α} {p : Option α}

@[simp]
theorem prev_setPrev : (m.setPrev e p).prev = update m.prev e p := by
  funext x
  by_cases h : x = e <;> simp [prev, setPrev, h]

@[simp]
theorem next_setPrev : (m.setPrev e p).next = m.next := by
  funext x
  by_cases h : x = e <;> simp [next, setPrev, h]

@[simp]
theorem prev_setNext : (m.setNext e p).prev = m.prev := by
  funext x
  by_cases h : x = e <;> simp [prev, setNext, h]

@[simp]
theorem next_setNext : (m.setNext e p).next = update m.next e p := by
  funext x
  by_cases h : x = e <;> simp [next, setNext, h]

/-- `a` is linked to `b`, in both directions. -/
def link (m : ListMem α) (a b : α) : ListMem α := (m.setNext a (some b)).setPrev b (some a)

@[simp]
theorem prev_link : (m.link a b).prev = update m.prev b (some a) := by simp [link]

@[simp]
theorem next_link : (m.link a b).next = update m.next a (some b) := by simp [link]

/-- The elements are linked one to the next. -/
def Linked (m : ListMem α) (l : List α) : Prop := Links.Linked m.prev m.next l

theorem Linked.link {l : List α} (h : m.Linked l) (ha : a ∉ l.dropLast) (hb : b ∉ l.tail) :
    (m.link a b).Linked l := by
  rw [Linked, prev_link, next_link]
  exact Links.Linked.link h ha hb

theorem Linked.link_of_not_mem {l : List α} (h : m.Linked l) (ha : a ∉ l) (hb : b ∉ l) :
    (m.link a b).Linked l :=
  h.link (fun ha' ↦ ha (dropLast_subset _ ha')) fun hb' ↦ hb (mem_of_mem_tail hb')

theorem Linked.join {l1 l2 : List α} (h1 : m.Linked (l1 ++ [a])) (h2 : m.Linked (b :: l2))
    (hnodup : (l1 ++ a :: b :: l2).Nodup) : (m.link a b).Linked (l1 ++ a :: b :: l2) := by
  rw [Linked, prev_link, next_link]
  exact Links.Linked.join h1 h2 hnodup

end ListMem

/-! ## Lists in memory -/

namespace ListHeader

variable {α : Type}

/-- The elements of a list, with its header elements. -/
def cells (list : ListHeader α) (xs : List α) : List α := list.head :: (xs ++ [list.tail])

/-- The element at a place in the list: the first one after it, or the tail. -/
def place (list : ListHeader α) (ys : List α) : α := ys.headD list.tail

/-- The element before a place in the list: the last one before it, or the head. -/
def before (list : ListHeader α) (xs : List α) : α := xs.getLastD list.head

variable {list : ListHeader α} {xs ys : List α} {a : α}

theorem mem_cells : a ∈ list.cells xs ↔ a = list.head ∨ a ∈ xs ∨ a = list.tail := by
  simp [cells]

theorem exists_before (list : ListHeader α) (xs : List α) :
    ∃ l, list.head :: xs = l ++ [list.before xs] := by
  induction xs using reverseRecOn with
  | nil => exact ⟨[], rfl⟩
  | append_singleton xs x ih => exact ⟨list.head :: xs, by simp [before]⟩

theorem exists_place (list : ListHeader α) (ys : List α) :
    ∃ l, ys ++ [list.tail] = list.place ys :: l := by
  cases ys with
  | nil => exact ⟨[], rfl⟩
  | cons y ys => exact ⟨ys ++ [list.tail], rfl⟩

/-- A list taken apart at a place. -/
theorem exists_cells_append (list : ListHeader α) (xs ys : List α) :
    ∃ l1 l2, list.head :: xs = l1 ++ [list.before xs] ∧ ys ++ [list.tail] = list.place ys :: l2 ∧
      ∀ zs, list.cells (xs ++ zs ++ ys) = l1 ++ [list.before xs] ++ zs ++ list.place ys :: l2 := by
  obtain ⟨l1, h1⟩ := list.exists_before xs
  obtain ⟨l2, h2⟩ := list.exists_place ys
  refine ⟨l1, l2, h1, h2, fun zs ↦ ?_⟩
  rw [← h1, ← h2]
  simp [cells]

theorem before_mem (list : ListHeader α) (xs ys : List α) :
    list.before xs ∈ list.cells (xs ++ ys) := by
  obtain ⟨l, hl⟩ := list.exists_before xs
  have hmem : list.before xs ∈ list.head :: xs := by
    rw [hl]
    simp
  rcases mem_cons.mp hmem with h | h
  · exact mem_cells.mpr (.inl h)
  · exact mem_cells.mpr (.inr (.inl (mem_append_left _ h)))

theorem place_mem (list : ListHeader α) (xs ys : List α) :
    list.place ys ∈ list.cells (xs ++ ys) := by
  cases ys with
  | nil => exact mem_cells.mpr (.inr (.inr rfl))
  | cons y ys => exact mem_cells.mpr (.inr (.inl (mem_append_right _ mem_cons_self)))

end ListHeader

variable {fuel : Nat}

namespace ListMem

variable {α : Type}

/-- The list at `list` is a list of `xs`: going forward from its head one meets them, and going
back from its tail one meets them in the opposite order. -/
structure IsList (m : ListMem α) (list : ListHeader α) (xs : List α) : Prop where
  forward : (list.cells xs).IsChain fun a b ↦ m.next a = some b
  backward : (list.cells xs).reverse.IsChain fun a b ↦ m.prev a = some b
  head : m.prev list.head = none
  tail : m.next list.tail = none

variable {m m' : ListMem α} {list : ListHeader α} {xs ys zs : List α} {a b e f : α}

theorem IsList.linked (h : m.IsList list xs) : m.Linked (list.cells xs) :=
  Links.linked_iff.mpr ⟨h.forward, h.backward⟩

theorem IsList.of_linked (h : m.Linked (list.cells xs)) (hhead : m.prev list.head = none)
    (htail : m.next list.tail = none) : m.IsList list xs :=
  ⟨(Links.linked_iff.mp h).1, (Links.linked_iff.mp h).2, hhead, htail⟩

/-- A list in memory is a list of one sequence only. -/
theorem IsList.unique {ys : List α} (h : m.IsList list xs) (h' : m.IsList list ys) : xs = ys :=
  Links.Linked.unique h.tail h.linked h'.linked

/-- No element is in a list twice, and none is a header element. -/
theorem IsList.nodup (h : m.IsList list xs) : (list.cells xs).Nodup :=
  Links.Linked.nodup (l := list.head :: xs) h.tail h.linked

/-! ## What the functions read -/

theorem ext_links (hprev : m.prev = m'.prev) (hnext : m.next = m'.next) : m = m' := by
  obtain ⟨elem⟩ := m
  obtain ⟨elem'⟩ := m'
  congr 1
  funext x
  have hp := congrFun hprev x
  have hn := congrFun hnext x
  simp only [prev, next] at hp hn
  cases he : elem x
  cases he' : elem' x
  simp_all

theorem isInterior_or_isTail {p : α} (hp : m.prev a = some p) :
    (m.isInterior (some a) || m.isTail (some a)) = true := by
  simp only [isInterior, isTail, hp, Option.isSome_some, Bool.true_and]
  cases m.next a <;> rfl

theorem listPrev_eq {p : α} (hp : m.prev a = some p) : m.listPrev (some a) = some (some p) := by
  simp [listPrev, assert, isInterior_or_isTail hp, hp]

/-- The place after `xs` does not come before the head, and what is before it is not the tail. -/
theorem ne_of_nodup (h : (list.cells (xs ++ ys)).Nodup) :
    list.head ≠ list.place ys ∧ list.tail ≠ list.before xs := by
  obtain ⟨l1, h1⟩ := list.exists_before xs
  obtain ⟨l2, h2⟩ := list.exists_place ys
  constructor
  · have hcells : list.cells (xs ++ ys) = list.head :: (xs ++ list.place ys :: l2) := by
      rw [← h2]
      simp [ListHeader.cells]
    rw [hcells, nodup_cons] at h
    intro heq
    exact h.1 (by simp [← heq])
  · have hcells : list.cells (xs ++ ys) = l1 ++ [list.before xs] ++ (ys ++ [list.tail]) := by
      rw [← h1]
      simp [ListHeader.cells]
    rw [hcells, nodup_append] at h
    intro heq
    exact h.2.2 (list.before xs) (by simp) list.tail (by simp) heq.symm

/-- The links at a place in a list. -/
theorem IsList.links (h : m.IsList list (xs ++ ys)) :
    m.next (list.before xs) = some (list.place ys) ∧
      m.prev (list.place ys) = some (list.before xs) := by
  obtain ⟨l1, l2, -, -, hcells⟩ := list.exists_cells_append xs ys
  have hlinked := h.linked
  have hcells' : list.cells (xs ++ ys) = l1 ++ list.before xs :: list.place ys :: l2 := by
    simpa using hcells []
  rw [hcells'] at hlinked
  exact (Links.linked_append_cons_cons.mp hlinked).2.1

theorem IsList.listBegin_eq (h : m.IsList list xs) : m.listBegin list = some (list.place xs) := by
  have h' : m.IsList list ([] ++ xs) := h
  exact h'.links.1

theorem IsList.isInterior (h : m.IsList list xs) (ha : a ∈ xs) : m.isInterior (some a) = true := by
  obtain ⟨us, vs, rfl⟩ := append_of_mem ha
  have hprev : m.prev a = some (list.before us) := h.links.2
  have hnext : m.next a = some (list.place vs) := by
    have h' : m.IsList list (us ++ [a] ++ vs) := by simpa using h
    simpa [ListHeader.before] using h'.links.1
  simp [ListMem.isInterior, hprev, hnext]

theorem IsList.listNext_eq (h : m.IsList list (xs ++ a :: ys)) :
    m.listNext (some a) = some (some (list.place ys)) := by
  have h' : m.IsList list (xs ++ [a] ++ ys) := by simpa using h
  have hlink : m.next a = some (list.place ys) := by
    simpa [ListHeader.before] using h'.links.1
  simp [listNext, assert, h.isInterior (mem_append_right _ mem_cons_self), hlink]

/-- An element of a list is not its end. -/
theorem IsList.ne_listEnd (h : m.IsList list xs) (ha : a ∈ xs) : some a ≠ listEnd list := by
  intro heq
  refine (nodup_append.mp (nodup_cons.mp h.nodup).2).2.2 a ha list.tail (by simp) ?_
  exact Option.some.inj heq

theorem IsList.exists_prev (h : m.IsList list xs) (ha : a ∈ xs ∨ a = list.tail) :
    ∃ p, m.prev a = some p := by
  rcases ha with ha | rfl
  · obtain ⟨us, vs, rfl⟩ := append_of_mem ha
    exact ⟨_, h.links.2⟩
  · have h' : m.IsList list (xs ++ []) := by simpa using h
    exact ⟨_, h'.links.2⟩

/-- The elements have the links that they had. -/
def Keeps (m m' : ListMem α) (cells : List α) : Prop := ∀ a ∈ cells, m'.elem a = m.elem a

theorem Keeps.trans {m'' : ListMem α} {cells : List α} (h : Keeps m m' cells)
    (h' : Keeps m' m'' cells) : Keeps m m'' cells :=
  fun a ha ↦ (h' a ha).trans (h a ha)

theorem IsList.of_keeps (h : m.IsList list xs) (hk : Keeps m m' (list.cells xs)) :
    m'.IsList list xs := by
  have hprev : ∀ a ∈ list.cells xs, m'.prev a = m.prev a := fun a ha ↦ by rw [prev, hk a ha, prev]
  have hnext : ∀ a ∈ list.cells xs, m'.next a = m.next a := fun a ha ↦ by rw [next, hk a ha, next]
  refine .of_linked (h.linked.congr (fun a ha ↦ hnext a (dropLast_subset _ ha))
    fun a ha ↦ hprev a (mem_of_mem_tail ha)) ?_ ?_
  · rw [hprev _ (ListHeader.mem_cells.mpr (.inl rfl)), h.head]
  · rw [hnext _ (ListHeader.mem_cells.mpr (.inr (.inr rfl))), h.tail]

/-! ## Taking out and inserting -/

variable [DecidableEq α]

theorem elem_link {x : α} (ha : x ≠ a) (hb : x ≠ b) : (m.link a b).elem x = m.elem x := by
  simp [link, setNext, setPrev, ha, hb]

/-- **`list_init`** makes an empty list. -/
theorem isList_listInit (hne : list.head ≠ list.tail) : (m.listInit list).IsList list [] := by
  refine ⟨?_, ?_, ?_, ?_⟩ <;> simp [listInit, ListHeader.cells, hne]

/-- A list without `a` and `b` is left alone. -/
theorem IsList.link_of_not_mem (h : m.IsList list xs) (ha : a ∉ list.cells xs)
    (hb : b ∉ list.cells xs) : (m.link a b).IsList list xs := by
  refine .of_linked (h.linked.link_of_not_mem ha hb) ?_ ?_
  · rw [prev_link, update_of_ne, h.head]
    rintro rfl
    exact hb (ListHeader.mem_cells.mpr (.inl rfl))
  · rw [next_link, update_of_ne, h.tail]
    rintro rfl
    exact ha (ListHeader.mem_cells.mpr (.inr (.inr rfl)))

/-- **`ys` are taken out of a list.** -/
theorem IsList.unlink (h : m.IsList list (xs ++ ys ++ zs)) :
    (m.link (list.before xs) (list.place zs)).IsList list (xs ++ zs) ∧
      (m.link (list.before xs) (list.place zs)).Linked ys := by
  obtain ⟨l1, l2, -, -, hcells⟩ := list.exists_cells_append xs zs
  have hlinked := h.linked
  have hnodup := h.nodup
  rw [hcells] at hlinked hnodup
  have hcells' : list.cells (xs ++ zs) = l1 ++ list.before xs :: list.place zs :: l2 := by
    have := hcells []
    simpa using this
  have hsub : (list.cells (xs ++ zs)).Nodup := by
    rw [hcells']
    refine hnodup.sublist ?_
    simp
  obtain ⟨hhead, htail⟩ := ne_of_nodup hsub
  refine ⟨.of_linked ?_ ?_ ?_, ?_⟩
  · rw [hcells']
    refine Linked.join ?_ ?_ (hcells' ▸ hsub)
    · exact IsChain.prefix hlinked ⟨ys ++ list.place zs :: l2, by simp⟩
    · exact IsChain.suffix hlinked ⟨l1 ++ [list.before xs] ++ ys, by simp⟩
  · rw [prev_link, update_of_ne hhead, h.head]
  · rw [next_link, update_of_ne htail, h.tail]
  · have hys : m.Linked ys :=
      IsChain.infix hlinked ⟨l1 ++ [list.before xs], list.place zs :: l2, rfl⟩
    rw [append_assoc, nodup_append] at hnodup
    obtain ⟨-, hnodup, hdisj⟩ := hnodup
    refine hys.link_of_not_mem (fun hmem ↦ ?_) fun hmem ↦ ?_
    · exact hdisj _ (by simp) _ (mem_append_left _ hmem) rfl
    · exact (nodup_append.mp hnodup).2.2 _ hmem _ (by simp) rfl

/-- **A chain is put into a list.** -/
theorem IsList.insert (h : m.IsList list (xs ++ zs)) (hys : m.Linked ys) (hf : ys.head? = some f)
    (he : ys.getLast? = some e) (hnodup : (list.cells (xs ++ ys ++ zs)).Nodup) :
    ((m.link e (list.place zs)).link (list.before xs) f).IsList list (xs ++ ys ++ zs) := by
  obtain ⟨l1, l2, -, -, hcells⟩ := list.exists_cells_append xs zs
  obtain ⟨ys1, hys1⟩ : ∃ ys1, ys = ys1 ++ [e] := ⟨_, (dropLast_append_getLast? e he).symm⟩
  obtain ⟨ys2, hys2⟩ : ∃ ys2, ys = f :: ys2 := ⟨_, eq_cons_of_mem_head? hf⟩
  have hcells' : list.cells (xs ++ zs) = l1 ++ list.before xs :: list.place zs :: l2 := by
    have := hcells []
    simpa using this
  obtain ⟨hleft, -, hright⟩ := Links.linked_append_cons_cons.mp (hcells' ▸ h.linked)
  obtain ⟨hhead, htail⟩ := ne_of_nodup h.nodup
  have hheadf : list.head ≠ f := by
    rintro heq
    refine (nodup_cons.mp hnodup).1 ?_
    simp [heq, hys2]
  have htaile : list.tail ≠ e := by
    rintro heq
    rw [hys1, ListHeader.cells, ← cons_append, nodup_append] at hnodup
    exact hnodup.2.2 e (by simp) list.tail (by simp) heq.symm
  rw [hcells] at hnodup
  refine .of_linked ?_ ?_ ?_
  · have hrest : (m.link e (list.place zs)).Linked (ys ++ list.place zs :: l2) := by
      have hend : m.Linked (ys1 ++ [e]) := hys1 ▸ hys
      have hjoin := hend.join hright
      rw [hys1, append_assoc]
      refine hjoin (hnodup.sublist ?_)
      simp [hys1]
    have hfirst : (m.link e (list.place zs)).Linked (l1 ++ [list.before xs]) := by
      rw [append_assoc, nodup_append] at hnodup
      refine Linked.link_of_not_mem hleft (fun hmem ↦ ?_) fun hmem ↦ ?_
      · exact hnodup.2.2 e hmem e (by simp [hys1]) rfl
      · exact hnodup.2.2 _ hmem (list.place zs) (by simp) rfl
    have hsplit : l1 ++ [list.before xs] ++ ys ++ list.place zs :: l2 =
        l1 ++ list.before xs :: f :: (ys2 ++ list.place zs :: l2) := by simp [hys2]
    rw [hcells, hsplit]
    refine Linked.join hfirst ?_ (hsplit ▸ hnodup)
    rw [hys2] at hrest
    exact hrest
  · rw [prev_link, prev_link, update_of_ne hheadf, update_of_ne hhead, h.head]
  · rw [next_link, next_link, update_of_ne htail, update_of_ne htaile, h.tail]

/-! ## Any number of lists -/

variable {ι : Type} {lists : ι → ListHeader α} {seq : ι → List α} {i j : ι}

/-- The lists at `lists` are lists of `seq`, and have no element in common. -/
structure Lists (m : ListMem α) (lists : ι → ListHeader α) (seq : ι → List α) : Prop where
  list : ∀ i, m.IsList (lists i) (seq i)
  disjoint : ∀ i j, i ≠ j → ∀ a ∈ (lists i).cells (seq i), a ∉ (lists j).cells (seq j)

theorem keeps_link {cells : List α} (ha : a ∉ cells) (hb : b ∉ cells) :
    Keeps m (m.link a b) cells := by
  intro x hx
  refine elem_link ?_ ?_
  · rintro rfl
    exact ha hx
  · rintro rfl
    exact hb hx

section

variable [DecidableEq ι]

/-- **`ys` are taken out of one of the lists**, and are in none of them then. -/
theorem Lists.unlink (h : m.Lists lists seq) (hi : seq i = xs ++ ys ++ zs)
    (hm : m' = m.link ((lists i).before xs) ((lists i).place zs)) :
    m'.Lists lists (update seq i (xs ++ zs)) ∧ m'.Linked ys ∧
      (∀ a ∈ ys, ∀ j, a ∉ (lists j).cells (update seq i (xs ++ zs) j)) ∧
      ∀ j, j ≠ i → Keeps m m' ((lists j).cells (seq j)) := by
  subst hm
  have hlist : m.IsList (lists i) (xs ++ ys ++ zs) := hi ▸ h.list i
  obtain ⟨hnew, hys⟩ := hlist.unlink
  have hbefore : (lists i).before xs ∈ (lists i).cells (seq i) := by
    rw [hi, append_assoc]
    exact (lists i).before_mem xs _
  have hplace : (lists i).place zs ∈ (lists i).cells (seq i) := by
    rw [hi]
    exact (lists i).place_mem _ zs
  have hsub : ∀ j, ∀ a ∈ (lists j).cells (update seq i (xs ++ zs) j),
      a ∈ (lists j).cells (seq j) := by
    intro j a ha
    by_cases hj : j = i
    · subst hj
      rw [update_self, ListHeader.mem_cells] at ha
      rw [hi, ListHeader.mem_cells]
      simp only [mem_append] at ha ⊢
      tauto
    · rwa [update_of_ne hj] at ha
  refine ⟨⟨fun j ↦ ?_, fun j k hne a ha ha' ↦ ?_⟩, hys, fun a ha j hj ↦ ?_, fun j hj ↦ ?_⟩
  · by_cases hj : j = i
    · subst hj
      rw [update_self]
      exact hnew
    · rw [update_of_ne hj]
      have hij := Ne.symm hj
      exact (h.list j).link_of_not_mem (h.disjoint i j hij _ hbefore) (h.disjoint i j hij _ hplace)
  · exact h.disjoint j k hne a (hsub j a ha) (hsub k a ha')
  · by_cases hji : j = i
    · subst hji
      rw [update_self, ListHeader.mem_cells] at hj
      have hnodup := hlist.nodup
      simp only [ListHeader.cells, nodup_cons, nodup_append, mem_append] at hnodup hj
      grind
    · have hmem : a ∈ (lists i).cells (seq i) := by
        rw [hi, ListHeader.mem_cells]
        exact .inr (.inl (mem_append_left _ (mem_append_right _ ha)))
      exact h.disjoint i j (Ne.symm hji) a hmem (hsub j a hj)
  · have hij := Ne.symm hj
    exact keeps_link (h.disjoint i j hij _ hbefore) (h.disjoint i j hij _ hplace)

/-- **A chain that is in none of the lists is put into one of them.** -/
theorem Lists.insert (h : m.Lists lists seq) (hi : seq i = xs ++ zs) (hys : m.Linked ys)
    (hf : ys.head? = some f) (he : ys.getLast? = some e) (hnodup : ys.Nodup)
    (hfree : ∀ a ∈ ys, ∀ j, a ∉ (lists j).cells (seq j))
    (hm : m' = (m.link e ((lists i).place zs)).link ((lists i).before xs) f) :
    m'.Lists lists (update seq i (xs ++ ys ++ zs)) ∧
      ∀ j, j ≠ i → Keeps m m' ((lists j).cells (seq j)) := by
  subst hm
  have hlist : m.IsList (lists i) (xs ++ zs) := hi ▸ h.list i
  have hbefore : (lists i).before xs ∈ (lists i).cells (seq i) := hi ▸ (lists i).before_mem xs _
  have hplace : (lists i).place zs ∈ (lists i).cells (seq i) := hi ▸ (lists i).place_mem _ zs
  have hemem : e ∈ ys := mem_of_getLast? he
  have hfmem : f ∈ ys := mem_of_head? hf
  have hnodup' : ((lists i).cells (xs ++ ys ++ zs)).Nodup := by
    have hfree' : ∀ a ∈ ys, a ∉ (lists i).cells (xs ++ zs) := fun a ha ↦ hi ▸ hfree a ha i
    have hold := hlist.nodup
    simp only [ListHeader.mem_cells, mem_append] at hfree'
    simp only [ListHeader.cells, nodup_cons, nodup_append, mem_append] at hold ⊢
    grind
  refine ⟨⟨fun j ↦ ?_, ?_⟩, fun j hj ↦ ?_⟩
  · by_cases hj : j = i
    · subst hj
      rw [update_self]
      exact hlist.insert hys hf he hnodup'
    · rw [update_of_ne hj]
      have hij := Ne.symm hj
      refine ((h.list j).link_of_not_mem ?_ ?_).link_of_not_mem ?_ ?_
      · exact hfree e hemem j
      · exact h.disjoint i j hij _ hplace
      · exact h.disjoint i j hij _ hbefore
      · exact hfree f hfmem j
  · -- An element of two lists would be in two of the old ones, or in `ys` and an old one.
    have hcases : ∀ j, ∀ a ∈ (lists j).cells (update seq i (xs ++ ys ++ zs) j),
        a ∈ (lists j).cells (seq j) ∨ j = i ∧ a ∈ ys := by
      intro j a ha
      by_cases hj : j = i
      · subst hj
        rw [update_self, ListHeader.mem_cells] at ha
        rw [hi, ListHeader.mem_cells]
        simp only [mem_append] at ha ⊢
        tauto
      · rw [update_of_ne hj] at ha
        exact .inl ha
    intro j k hne a ha ha'
    rcases hcases j a ha with hj | ⟨rfl, hj⟩ <;> rcases hcases k a ha' with hk | ⟨rfl, hk⟩
    · exact h.disjoint j k hne a hj hk
    · exact hfree a hk j hj
    · exact hfree a hj k hk
    · exact hne rfl
  · have hij := Ne.symm hj
    refine (keeps_link ?_ ?_).trans (keeps_link ?_ ?_)
    · exact hfree e hemem j
    · exact h.disjoint i j hij _ hplace
    · exact h.disjoint i j hij _ hbefore
    · exact hfree f hfmem j

end

/-! ## What the functions write -/

theorem listInsert_eq {p : α} (hp : m.prev b = some p) (hne : e ≠ b) :
    m.listInsert (some b) (some e) = some ((m.link e b).link p e) := by
  have hread : ((m.setPrev e (m.prev b)).setNext e (some b)).prev b = some p := by
    simp [update_of_ne (Ne.symm hne), hp]
  simp only [listInsert, assert, isInterior_or_isTail hp, Option.isSome_some, if_true, some_bind,
    hread, pure_eq_some]
  refine ext_links ?_ ?_
  · simp only [prev_setPrev, prev_setNext, prev_link, hp]
    exact update_comm hne ..
  · simp

theorem listRemove_eq {p n : α} (hp : m.prev e = some p) (hn : m.next e = some n) :
    m.listRemove (some e) = some (some n, m.link p n) := by
  have hread : update m.next p (some n) e = some n := by
    by_cases h : e = p <;> simp [h, hn]
  simp [listRemove, assert, isInterior, hp, hn, hread, link]

/-- `first` to `last` are taken out, and put before `b`. -/
theorem listSplice_eq {p q first last n : α} (hb : ∃ x, m.prev b = some x)
    (hfirst : m.isInterior (some first)) (hp : m.prev first = some p)
    (hlast : m.isInterior (some last)) (hn : m.next last = some n) (hprev : m.prev n = some last)
    (hne : first ≠ n) (hq : (m.link p n).prev b = some q) (hfb : first ≠ b) :
    m.listSplice (some b) (some first) (some n) =
      some (((m.link p n).link last b).link q first) := by
  obtain ⟨x, hx⟩ := hb
  have hne' : (some first : Option α) ≠ some n := fun h ↦ hne (Option.some.inj h)
  have hread : (m.setNext p (some n)).next last = some n := by
    by_cases h : last = p <;> simp [h, hn]
  have hread' : ((m.link p n).setPrev first (some q)).prev b = some q := by
    rw [prev_setPrev, update_of_ne (Ne.symm hfb), hq]
  have hlink : (m.setNext p (some n)).setPrev n (some p) = m.link p n := rfl
  simp only [listSplice, assert, isInterior_or_isTail hx, if_true, Option.pure_def, Option.some_inj,
    if_neg hne, hfirst, hlast, listPrev_eq hprev, hp, hn, hread, prev_setNext, hlink, hq, some_bind,
    hread']
  refine ext_links ?_ ?_
  · simp only [prev_setPrev, prev_setNext, prev_link]
    exact update_comm hfb ..
  · simp

/-! ## What the functions do -/

section

variable [DecidableEq ι]

/-- **`list_insert`** inserts an element that is in no list. -/
theorem Lists.listInsert (h : m.Lists lists seq) (hi : seq i = xs ++ ys)
    (hfree : ∀ j, e ∉ (lists j).cells (seq j)) :
    Returns (m.listInsert (some ((lists i).place ys)) (some e)) fun m' ↦
      m'.Lists lists (update seq i (xs ++ e :: ys)) ∧
      ∀ j, j ≠ i → Keeps m m' ((lists j).cells (seq j)) := by
  have hlist : m.IsList (lists i) (xs ++ ys) := hi ▸ h.list i
  have hne : e ≠ (lists i).place ys := by
    rintro rfl
    exact hfree i (hi ▸ (lists i).place_mem xs ys)
  have hchain : m.Linked [e] := isChain_singleton e
  have hins := h.insert hi hchain rfl rfl (nodup_singleton e)
    (fun a ha j ↦ mem_singleton.mp ha ▸ hfree j) rfl
  rw [append_assoc, singleton_append] at hins
  exact ⟨_, listInsert_eq hlist.links.2 hne, hins⟩

/-- **`list_remove`** removes an element, and returns the one after it. -/
theorem Lists.listRemove (h : m.Lists lists seq) (hi : seq i = xs ++ e :: ys) :
    Returns (m.listRemove (some e)) fun r ↦ r.1 = some ((lists i).place ys) ∧
      r.2.Lists lists (update seq i (xs ++ ys)) ∧
      ∀ j, j ≠ i → Keeps m r.2 ((lists j).cells (seq j)) := by
  have hlist : m.IsList (lists i) (xs ++ e :: ys) := hi ▸ h.list i
  have hlist' : m.IsList (lists i) (xs ++ [e] ++ ys) := by simpa using hlist
  have hprev : m.prev e = some ((lists i).before xs) := hlist.links.2
  have hnext : m.next e = some ((lists i).place ys) := by
    simpa [ListHeader.before] using hlist'.links.1
  have hi' : seq i = xs ++ [e] ++ ys := by simpa using hi
  obtain ⟨hlists, -, -, hkeeps⟩ := h.unlink hi' rfl
  exact ⟨_, listRemove_eq hprev hnext, rfl, hlists, hkeeps⟩

omit [DecidableEq α] [DecidableEq ι] in
/-- Some of the lists. -/
theorem Lists.comp {κ : Type} {f : κ → ι} (h : m.Lists lists seq) (hf : Function.Injective f) :
    m.Lists (fun k ↦ lists (f k)) fun k ↦ seq (f k) :=
  ⟨fun k ↦ h.list (f k), fun k k' hne ↦ h.disjoint (f k) (f k') fun heq ↦ hne (hf heq)⟩

/-- An element that has been removed is in no list. -/
theorem Lists.not_mem_removed (h : m.Lists lists seq) (hi : seq i = xs ++ e :: ys) (j : ι) :
    e ∉ (lists j).cells (update seq i (xs ++ ys) j) := by
  have hi' : seq i = xs ++ [e] ++ ys := by simpa using hi
  exact (h.unlink hi' rfl).2.2.1 e (mem_singleton_self e) j

/-- **`list_splice`** moves a range of one list to a place in the rest of it or in another one. -/
theorem Lists.listSplice {us vs : List α} (h : m.Lists lists seq) (hi : seq i = xs ++ ys ++ zs)
    (hj : update seq i (xs ++ zs) j = us ++ vs) :
    Returns (m.listSplice (some ((lists j).place vs)) (some ((lists i).place (ys ++ zs)))
        (some ((lists i).place zs))) fun m' ↦
      m'.Lists lists (update (update seq i (xs ++ zs)) j (us ++ ys ++ vs)) ∧
      ∀ k, k ≠ i → k ≠ j → Keeps m m' ((lists k).cells (seq k)) := by
  have hlist : m.IsList (lists i) (xs ++ ys ++ zs) := hi ▸ h.list i
  -- The place is one of the lists before, too.
  have hb : ∃ p, m.prev ((lists j).place vs) = some p := by
    refine (h.list j).exists_prev ?_
    cases vs with
    | nil => exact .inr rfl
    | cons v vs =>
      refine .inl ?_
      have hv : v ∈ update seq i (xs ++ zs) j := by rw [hj]; simp
      by_cases hji : j = i
      · subst hji
        rw [update_self] at hv
        rw [hi]
        simp only [mem_append] at hv ⊢
        exact hv.imp_left .inl
      · rwa [update_of_ne hji] at hv
  by_cases hys : ys = []
  · subst hys
    obtain ⟨p, hp⟩ := hb
    refine ⟨m, ?_, ?_, fun k _ _ a _ ↦ rfl⟩
    · simp [ListMem.listSplice, assert, isInterior_or_isTail hp]
    · rw [append_nil, ← hj, update_eq_self, ← append_nil xs, ← hi,
        update_eq_self]
      exact h
  · obtain ⟨f, hf⟩ : ∃ f, ys.head? = some f := ⟨_, head?_eq_some_head hys⟩
    obtain ⟨e, he⟩ : ∃ e, ys.getLast? = some e := ⟨_, getLast?_eq_some_getLast hys⟩
    have hfmem : f ∈ ys := mem_of_head? hf
    have hplace : (lists i).place (ys ++ zs) = f := by
      simp [ListHeader.place, headD_eq_head?_getD, hf]
    have hbefore : (lists i).before (xs ++ ys) = e := by
      simp [ListHeader.before, getLastD_eq_getLast?, he]
    obtain ⟨hunlinked, hchain, hfree, hkeeps⟩ := h.unlink hi rfl
    have hp : m.prev f = some ((lists i).before xs) := by
      have h' : m.IsList (lists i) (xs ++ (ys ++ zs)) := by simpa using hlist
      rw [← hplace]
      exact h'.links.2
    obtain ⟨hnext, hprev⟩ := hlist.links
    rw [hbefore] at hnext hprev
    have hinterior : ∀ a ∈ ys, m.isInterior (some a) = true := by
      intro a ha
      exact hlist.isInterior (mem_append_left _ (mem_append_right _ ha))
    have hnot : ∀ k us vs, update seq i (xs ++ zs) k = us ++ vs →
        f ≠ (lists k).place vs := by
      rintro k us vs hk rfl
      exact hfree _ hfmem k (hk ▸ (lists k).place_mem us vs)
    have hq := (hunlinked.list j)
    rw [hj] at hq
    have heq := listSplice_eq hb (hinterior f hfmem) hp
      (hinterior e (mem_of_getLast? he)) hnext hprev
      (hnot i xs zs (update_self ..)) hq.links.2 (hnot j us vs hj)
    have hnodup : ys.Nodup := by
      refine hlist.nodup.sublist (IsInfix.sublist
        ⟨(lists i).head :: xs, zs ++ [(lists i).tail], ?_⟩)
      simp [ListHeader.cells]
    obtain ⟨hlists, hkeeps'⟩ := hunlinked.insert hj hchain hf he hnodup hfree rfl
    rw [hplace]
    refine ⟨_, heq, hlists, fun k hki hkj ↦ (hkeeps k hki).trans ?_⟩
    have hk := hkeeps' k hkj
    rwa [update_of_ne hki] at hk

/-- **`list_push_front`**. -/
theorem Lists.listPushFront (h : m.Lists lists seq) (hfree : ∀ j, e ∉ (lists j).cells (seq j)) :
    Returns (m.listPushFront (lists i) (some e)) fun m' ↦
      m'.Lists lists (update seq i (e :: seq i)) ∧
      ∀ j, j ≠ i → Keeps m m' ((lists j).cells (seq j)) := by
  have hi : seq i = [] ++ seq i := rfl
  rw [ListMem.listPushFront, (h.list i).listBegin_eq]
  exact h.listInsert hi hfree

/-- **`list_push_back`**. -/
theorem Lists.listPushBack (h : m.Lists lists seq) (hfree : ∀ j, e ∉ (lists j).cells (seq j)) :
    Returns (m.listPushBack (lists i) (some e)) fun m' ↦
      m'.Lists lists (update seq i (seq i ++ [e])) ∧
      ∀ j, j ≠ i → Keeps m m' ((lists j).cells (seq j)) := by
  have hi : seq i = seq i ++ [] := (append_nil _).symm
  exact h.listInsert hi hfree

omit [DecidableEq ι] in
/-- A list that has elements is not empty. -/
theorem Lists.listEmpty_eq (h : m.Lists lists seq) : m.listEmpty (lists i) = (seq i).isEmpty := by
  rw [listEmpty, (h.list i).listBegin_eq, listEnd]
  cases hseq : seq i with
  | nil => simp [ListHeader.place]
  | cons x xs =>
    have hnodup := (h.list i).nodup
    simp only [hseq, ListHeader.cells, cons_append, nodup_cons, mem_cons,
      mem_append] at hnodup
    have hne : x ≠ (lists i).tail := fun heq ↦ hnodup.2.1 (by simp [heq])
    simp [ListHeader.place, hne]

/-- **`list_pop_front`** removes the first element and returns it. -/
theorem Lists.listPopFront (h : m.Lists lists seq) (hi : seq i = e :: xs) :
    Returns (m.listPopFront (lists i)) fun r ↦ r.1 = some e ∧ r.2.Lists lists (update seq i xs) ∧
      ∀ j, j ≠ i → Keeps m r.2 ((lists j).cells (seq j)) := by
  have hfront : m.listFront (lists i) = some (some e) := by
    have hbegin : m.next (lists i).head = some ((lists i).place (seq i)) := (h.list i).listBegin_eq
    simp [listFront, assert, h.listEmpty_eq, hi, hbegin, ListHeader.place]
  have hi' : seq i = [] ++ e :: xs := hi
  simp only [ListMem.listPopFront, hfront, some_bind]
  refine Returns.bind (h.listRemove hi') ?_
  rintro r ⟨-, hr⟩
  exact .pure ⟨rfl, hr⟩

/-- **`list_pop_back`** removes the last element and returns it. -/
theorem Lists.listPopBack (h : m.Lists lists seq) (hi : seq i = xs ++ [e]) :
    Returns (m.listPopBack (lists i)) fun r ↦ r.1 = some e ∧ r.2.Lists lists (update seq i xs) ∧
      ∀ j, j ≠ i → Keeps m r.2 ((lists j).cells (seq j)) := by
  have hback : m.listBack (lists i) = some (some e) := by
    have hlist : m.IsList (lists i) (xs ++ [e] ++ []) := by simpa [hi] using h.list i
    have hprev : m.prev (lists i).tail = some e := by
      simpa [ListHeader.before, ListHeader.place] using hlist.links.2
    simp [listBack, assert, h.listEmpty_eq, hi, hprev]
  simp only [ListMem.listPopBack, hback, some_bind]
  refine Returns.bind (h.listRemove hi) ?_
  rintro r ⟨-, hr⟩
  rw [append_nil] at hr
  exact .pure ⟨rfl, hr⟩

end

/-! ## Reversal -/

/-- The links of the elements are exchanged. -/
def swapped (m : ListMem α) (xs : List α) : ListMem α :=
  ⟨fun a ↦ if a ∈ xs then ⟨m.next a, m.prev a⟩ else m.elem a⟩

theorem prev_swapped : (m.swapped xs).prev a = if a ∈ xs then m.next a else m.prev a := by
  simp only [prev, swapped]
  split <;> rfl

theorem next_swapped : (m.swapped xs).next a = if a ∈ xs then m.prev a else m.next a := by
  simp only [next, swapped]
  split <;> rfl

/-- The loop exchanges the links of the elements that are left. -/
theorem reverseLoop_eq (h : (xs ++ [list.tail]).IsChain fun a b ↦ m.next a = some b)
    (hnodup : (xs ++ [list.tail]).Nodup) (hfuel : xs.length ≤ fuel) :
    reverseLoop list fuel m (some (list.place xs)) = some (m.swapped xs) := by
  induction xs generalizing m fuel with
  | nil =>
    have hend : some (list.place []) = listEnd list := rfl
    cases fuel <;> simp [reverseLoop, hend, swapped]
  | cons x xs ih =>
    obtain ⟨hx, hrest⟩ := nodup_cons.mp hnodup
    have hne : some x ≠ listEnd list := by
      rintro heq
      exact hx (by simp [Option.some.inj heq])
    obtain ⟨fuel, rfl⟩ : ∃ n, fuel = n + 1 := ⟨fuel - 1, by simp at hfuel; omega⟩
    obtain ⟨l, hl⟩ := list.exists_place xs
    have hnext : m.next x = some (list.place xs) := by
      rw [cons_append, hl, isChain_cons_cons] at h
      exact h.1
    have hplace : list.place (x :: xs) = x := rfl
    rw [hplace, reverseLoop, if_neg hne]
    simp only [some_bind, prev_setNext, prev_setPrev, update_self, hnext]
    rw [ih ?_ hrest (by simpa using hfuel)]
    · congr 1
      refine ext_links ?_ ?_
      · funext a
        simp only [prev_swapped, mem_cons]
        by_cases ha : a = x
        · subst ha
          have hnot : a ∉ xs := fun hmem ↦ hx (mem_append_left _ hmem)
          simp [hnot, hnext]
        · simp [ha]
      · funext a
        simp only [next_swapped, mem_cons]
        by_cases ha : a = x
        · subst ha
          have hnot : a ∉ xs := fun hmem ↦ hx (mem_append_left _ hmem)
          simp [hnot]
        · simp [ha]
    · refine IsChain.imp_of_mem_imp ?_ (IsChain.tail h)
      intro a b ha hb hab
      have hne : a ≠ x := by
        rintro rfl
        exact hx ha
      simpa [update_of_ne hne] using hab

/-- The last assignments of `list_reverse`. -/
theorem IsList.listReverse_eq (h : m.IsList list xs) (hf : xs.head? = some f)
    (he : xs.getLast? = some e) (hfuel : xs.length ≤ fuel) :
    m.listReverse fuel list = some (((m.swapped xs).link list.head e).link f list.tail) := by
  have hfmem : f ∈ xs := mem_of_head? hf
  have hemem : e ∈ xs := mem_of_getLast? he
  have hplace : list.place xs = f := by simp [ListHeader.place, headD_eq_head?_getD, hf]
  have hbefore : list.before xs = e := by simp [ListHeader.before, getLastD_eq_getLast?, he]
  obtain ⟨hhead, hrest⟩ := nodup_cons.mp h.nodup
  have htail : list.tail ∉ xs := fun hmem ↦
    (nodup_append.mp hrest).2.2 list.tail hmem list.tail (by simp) rfl
  simp only [mem_append, mem_singleton, not_or] at hhead
  have hne : f ≠ list.head ∧ f ≠ list.tail ∧ e ≠ list.head ∧ e ≠ list.tail := by
    refine ⟨?_, ?_, ?_, ?_⟩ <;> rintro rfl
    exacts [hhead.1 hfmem, htail hfmem, hhead.1 hemem, htail hemem]
  have hbegin : m.next list.head = some f := hplace ▸ h.listBegin_eq
  obtain ⟨hnext, hprev⟩ : m.next e = some list.tail ∧ m.prev list.tail = some e := by
    have h' : m.IsList list (xs ++ []) := by simpa using h
    exact hbefore ▸ h'.links
  have hfirst : m.prev f = some list.head := by
    have h' : m.IsList list ([] ++ xs) := h
    exact hplace ▸ h'.links.2
  have hloop := reverseLoop_eq (m := m) (h.forward.tail) hrest hfuel
  simp only [hplace] at hloop
  simp only [ListMem.listReverse, listEmpty, listBegin, listEnd, hbegin, hloop, beq_iff_eq,
    Option.pure_def, Option.some_inj, if_neg hne.2.1, some_bind, next_setPrev, next_setNext,
    prev_setPrev, prev_setNext, update_self, next_swapped, prev_swapped, if_neg htail,
    if_neg hhead.1, hprev, update_of_ne hne.1, update_of_ne hne.2.2.2,
    if_pos hfmem, if_pos hemem, hfirst, hnext]
  refine ext_links ?_ ?_
  · simp only [prev_setNext, prev_setPrev, prev_link]
    exact update_comm hne.2.2.2.symm ..
  · simp

/-- **A list is reversed.** -/
theorem IsList.reverse (h : m.IsList list xs) (hf : xs.head? = some f) (he : xs.getLast? = some e) :
    (((m.swapped xs).link list.head e).link f list.tail).IsList list xs.reverse := by
  obtain ⟨xs1, hxs1⟩ : ∃ l, xs.reverse = l ++ [f] := by
    obtain ⟨l, rfl⟩ : ∃ l, xs = f :: l := ⟨_, eq_cons_of_mem_head? hf⟩
    exact ⟨l.reverse, by simp⟩
  obtain ⟨xs2, hxs2⟩ : ∃ l, xs.reverse = e :: l := by
    obtain ⟨l, rfl⟩ : ∃ l, xs = l ++ [e] := ⟨_, (dropLast_append_getLast? e he).symm⟩
    exact ⟨l.reverse, by simp⟩
  have hnodup : (list.cells xs.reverse).Nodup := by
    have hperm : (list.cells xs.reverse).Perm (list.cells xs) :=
      ((reverse_perm xs).append_right _).cons _
    exact hperm.nodup_iff.mpr h.nodup
  have hchain : (m.swapped xs).Linked xs.reverse := by
    have hxs : m.Linked xs := by
      refine IsChain.infix h.linked ⟨[list.head], [list.tail], ?_⟩
      simp [ListHeader.cells]
    refine Links.linked_reverse.mpr (hxs.congr (fun a ha ↦ ?_) fun a ha ↦ ?_)
    · rw [prev_swapped, if_pos (dropLast_subset _ ha)]
    · rw [next_swapped, if_pos (mem_of_mem_tail ha)]
  obtain ⟨hhead, htail⟩ : (list.head ∉ xs ∧ list.head ≠ e ∧ list.head ≠ list.tail) ∧
      list.tail ∉ xs ∧ list.tail ≠ f ∧ list.tail ≠ list.head := by
    have hemem : e ∈ xs := mem_of_getLast? he
    have hfmem : f ∈ xs := mem_of_head? hf
    have hold := h.nodup
    simp only [ListHeader.cells, nodup_cons, nodup_append, mem_append,
      mem_singleton] at hold
    grind
  have hleft : ((m.swapped xs).link list.head e).Linked (list.head :: xs1 ++ [f]) := by
    have hsingle : (m.swapped xs).Linked ([] ++ [list.head]) := isChain_singleton _
    have hsub : (list.head :: xs.reverse).Nodup :=
      hnodup.sublist (Sublist.cons_cons _ (sublist_append_left ..))
    rw [cons_append, ← hxs1]
    rw [hxs2] at hchain hsub ⊢
    exact hsingle.join hchain hsub
  have hcells : list.cells xs.reverse = list.head :: xs1 ++ f :: list.tail :: [] := by
    simp [ListHeader.cells, hxs1]
  refine .of_linked ?_ ?_ ?_
  · rw [hcells] at hnodup ⊢
    exact hleft.join (isChain_singleton _) hnodup
  · rw [prev_link, prev_link, update_of_ne hhead.2.2, update_of_ne hhead.2.1,
      prev_swapped, if_neg hhead.1, h.head]
  · rw [next_link, next_link, update_of_ne htail.2.1, update_of_ne htail.2.2,
      next_swapped, if_neg htail.1, h.tail]

/-- **`list_reverse`** reverses a list, of any length. -/
theorem Lists.listReverse [DecidableEq ι] (h : m.Lists lists seq)
    (hfuel : (seq i).length ≤ fuel) : Returns (m.listReverse fuel (lists i)) fun m' ↦
      m'.Lists lists (update seq i (seq i).reverse) ∧
      ∀ j, j ≠ i → Keeps m m' ((lists j).cells (seq j)) := by
  by_cases hnil : seq i = []
  · refine ⟨m, by simp [ListMem.listReverse, h.listEmpty_eq, hnil], ?_, fun j _ a _ ↦ rfl⟩
    rw [hnil, reverse_nil, ← hnil, update_eq_self]
    exact h
  · obtain ⟨f, hf⟩ : ∃ f, (seq i).head? = some f := ⟨_, head?_eq_some_head hnil⟩
    obtain ⟨e, he⟩ : ∃ e, (seq i).getLast? = some e := ⟨_, getLast?_eq_some_getLast hnil⟩
    have hmem : ∀ a, a = (lists i).head ∨ a ∈ seq i ∨ a = (lists i).tail →
        ∀ j, j ≠ i → a ∉ (lists j).cells (seq j) := fun a ha j hj ↦
      h.disjoint i j (Ne.symm hj) a (ListHeader.mem_cells.mpr ha)
    have hkeeps : ∀ j, j ≠ i → Keeps m
        (((m.swapped (seq i)).link (lists i).head e).link f (lists i).tail)
        ((lists j).cells (seq j)) := by
      intro j hj
      have hswap : Keeps m (m.swapped (seq i)) ((lists j).cells (seq j)) := fun a ha ↦
        if_neg fun hai ↦ hmem a (.inr (.inl hai)) j hj ha
      refine (hswap.trans (keeps_link ?_ ?_)).trans (keeps_link ?_ ?_)
      · exact hmem _ (.inl rfl) j hj
      · exact hmem e (.inr (.inl (mem_of_getLast? he))) j hj
      · exact hmem f (.inr (.inl (mem_of_head? hf))) j hj
      · exact hmem _ (.inr (.inr rfl)) j hj
    have hcells : ∀ j, ∀ a ∈ (lists j).cells (update seq i (seq i).reverse j),
        a ∈ (lists j).cells (seq j) := by
      intro j a ha
      by_cases hj : j = i
      · subst hj
        simpa [ListHeader.mem_cells] using ha
      · rwa [update_of_ne hj] at ha
    refine ⟨_, (h.list i).listReverse_eq hf he hfuel, ⟨fun j ↦ ?_, ?_⟩, hkeeps⟩
    · by_cases hj : j = i
      · subst hj
        rw [update_self]
        exact (h.list j).reverse hf he
      · rw [update_of_ne hj]
        exact (h.list j).of_keeps (hkeeps j hj)
    · exact fun j k hne a ha ha' ↦ h.disjoint j k hne a (hcells j a ha) (hcells k a ha')

/-! ## All of them -/

/-- **The functions on lists do what they are called after.**  In a memory with any number of lists
that have no element in common, each of them leaves such a memory.  It inserts an element that is in
no list at a place of a list, removes an element of one, moves a range of a list to a place in what
is left of it or in another list, or reverses a list; the other lists are as they were, link by
link. -/
theorem lists_refine [DecidableEq ι] (h : m.Lists lists seq) :
    (∀ i xs ys elem, seq i = xs ++ ys → (∀ j, elem ∉ (lists j).cells (seq j)) →
      Returns (m.listInsert (some ((lists i).place ys)) (some elem)) fun m' ↦
        m'.Lists lists (update seq i (xs ++ elem :: ys)) ∧
        ∀ j, j ≠ i → Keeps m m' ((lists j).cells (seq j))) ∧
    (∀ i elem, (∀ j, elem ∉ (lists j).cells (seq j)) →
      Returns (m.listPushFront (lists i) (some elem)) fun m' ↦
        m'.Lists lists (update seq i (elem :: seq i)) ∧
        ∀ j, j ≠ i → Keeps m m' ((lists j).cells (seq j))) ∧
    (∀ i elem, (∀ j, elem ∉ (lists j).cells (seq j)) →
      Returns (m.listPushBack (lists i) (some elem)) fun m' ↦
        m'.Lists lists (update seq i (seq i ++ [elem])) ∧
        ∀ j, j ≠ i → Keeps m m' ((lists j).cells (seq j))) ∧
    (∀ i xs ys elem, seq i = xs ++ elem :: ys →
      Returns (m.listRemove (some elem)) fun r ↦ r.1 = some ((lists i).place ys) ∧
        r.2.Lists lists (update seq i (xs ++ ys)) ∧
        ∀ j, j ≠ i → Keeps m r.2 ((lists j).cells (seq j))) ∧ (∀ i xs elem, seq i = elem :: xs →
      Returns (m.listPopFront (lists i)) fun r ↦ r.1 = some elem ∧
        r.2.Lists lists (update seq i xs) ∧ ∀ j, j ≠ i → Keeps m r.2 ((lists j).cells (seq j))) ∧
    (∀ i xs elem, seq i = xs ++ [elem] → Returns (m.listPopBack (lists i)) fun r ↦ r.1 = some elem ∧
        r.2.Lists lists (update seq i xs) ∧ ∀ j, j ≠ i → Keeps m r.2 ((lists j).cells (seq j))) ∧
    (∀ i j xs ys zs us vs, seq i = xs ++ ys ++ zs → update seq i (xs ++ zs) j = us ++ vs →
      Returns (m.listSplice (some ((lists j).place vs)) (some ((lists i).place (ys ++ zs)))
          (some ((lists i).place zs))) fun m' ↦
        m'.Lists lists (update (update seq i (xs ++ zs)) j (us ++ ys ++ vs)) ∧
        ∀ k, k ≠ i → k ≠ j → Keeps m m' ((lists k).cells (seq k))) ∧
    ∀ i fuel, (seq i).length ≤ fuel → Returns (m.listReverse fuel (lists i)) fun m' ↦
        m'.Lists lists (update seq i (seq i).reverse) ∧
        ∀ j, j ≠ i → Keeps m m' ((lists j).cells (seq j)) :=
  ⟨fun _ _ _ _ hi hfree ↦ h.listInsert hi hfree, fun _ _ hfree ↦ h.listPushFront hfree,
    fun _ _ hfree ↦ h.listPushBack hfree, fun _ _ _ _ hi ↦ h.listRemove hi,
    fun _ _ _ hi ↦ h.listPopFront hi, fun _ _ _ hi ↦ h.listPopBack hi,
    fun _ _ _ _ _ _ _ hi hj ↦ h.listSplice hi hj, fun _ _ hfuel ↦ h.listReverse hfuel⟩

/-- Two lists, of 2 and 3 and of 12; the first one is reversed. -/
theorem lists_refine_two : ∃ m : ListMem Nat,
    m.Lists (fun b : Bool ↦ if b then ⟨0, 1⟩ else ⟨10, 11⟩) (fun b ↦ if b then [2, 3] else [12]) ∧
    Returns (m.listReverse 2 ⟨0, 1⟩) fun m' ↦
      m'.IsList ⟨0, 1⟩ [3, 2] ∧ m'.IsList ⟨10, 11⟩ [12] := by
  have hlists : Lists ⟨fun
      | 0 => ⟨none, some 2⟩ | 2 => ⟨some 0, some 3⟩ | 3 => ⟨some 2, some 1⟩ | 1 => ⟨some 3, none⟩
      | 10 => ⟨none, some 12⟩ | 12 => ⟨some 10, some 11⟩ | 11 => ⟨some 12, none⟩
      | _ => ⟨none, none⟩⟩ (fun b : Bool ↦ if b then ⟨0, 1⟩ else ⟨10, 11⟩)
      (fun b ↦ if b then [2, 3] else [12]) := by
    refine ⟨fun b ↦ ?_, by decide⟩
    cases b <;> refine ⟨?_, ?_, rfl, rfl⟩ <;> simp [ListHeader.cells, prev, next]
  obtain ⟨-, -, -, -, -, -, -, hreverse⟩ := lists_refine hlists
  refine ⟨_, hlists, (hreverse true 2 (by decide)).mono fun m' hm' ↦ ?_⟩
  exact ⟨hm'.1.list true, hm'.1.list false⟩

end ListMem

end Pintos
