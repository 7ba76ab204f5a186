import Mathlib

/-!
# Tables of slots

A table has a fixed number of slots, and each slot is empty or holds an element.  What the table
holds is the list of its elements in the order of the slots (`Slots.contents`).  Filling an empty
slot adds one element to it, and clearing a slot takes one away, up to the order; there is an empty
slot as long as there are fewer elements than slots.
-/

set_option autoImplicit false

namespace Slots

open List Option

universe u

variable {α : Type u} {slot slot' : Nat → Option α} {cnt k : Nat} {a : α}

/-- The elements of the first `cnt` slots. -/
def contents (cnt : Nat) (slot : Nat → Option α) : List α := (List.range cnt).filterMap slot

theorem contents_succ (cnt : Nat) (slot : Nat → Option α) :
    contents (cnt + 1) slot = contents cnt slot ++ (slot cnt).toList := by
  rw [contents, range_succ, filterMap_append, contents, filterMap_cons]
  cases slot cnt <;> rfl

theorem mem_contents : a ∈ contents cnt slot ↔ ∃ k < cnt, slot k = some a := by
  simp only [contents, mem_filterMap, mem_range]

theorem contents_congr (h : ∀ k < cnt, slot' k = slot k) : contents cnt slot' = contents cnt slot :=
  filterMap_congr fun k hk ↦ h k (mem_range.mp hk)

/-- An empty slot is filled. -/
theorem contents_fill (hk : k < cnt) (hnone : slot k = none) (hsome : slot' k = some a)
    (hother : ∀ k', k' ≠ k → slot' k' = slot k') :
    (contents cnt slot').Perm (a :: contents cnt slot) := by
  induction cnt with
  | zero => omega
  | succ cnt ih =>
    rw [contents_succ, contents_succ]
    by_cases hlast : k = cnt
    · subst hlast
      rw [contents_congr fun k' hk' ↦ hother k' (by omega), hsome, hnone, toList_none,
        append_nil]
      exact perm_append_singleton ..
    · rw [hother cnt (by omega)]
      exact (ih (by omega)).append_right _

theorem length_contents_le (cnt : Nat) (slot : Nat → Option α) : (contents cnt slot).length ≤ cnt :=
  calc (contents cnt slot).length
    _ ≤ (range cnt).length := length_filterMap_le ..
    _ = cnt := length_range

/-- There is an empty slot as long as there are fewer elements than slots. -/
theorem length_contents_lt : (contents cnt slot).length < cnt ↔ ∃ k < cnt, slot k = none := by
  induction cnt with
  | zero => simp
  | succ cnt ih =>
    have hle := length_contents_le cnt slot
    rw [contents_succ, length_append]
    constructor
    · intro hlt
      cases hlast : slot cnt with
      | none => exact ⟨cnt, Nat.lt_succ_self cnt, hlast⟩
      | some a =>
        rw [hlast, toList_some, length_singleton] at hlt
        obtain ⟨k, hk, hnone⟩ := ih.mp (by omega)
        exact ⟨k, by omega, hnone⟩
    · rintro ⟨k, hk, hnone⟩
      by_cases hlast : k = cnt
      · subst hlast
        rw [hnone, toList_none, length_nil]
        omega
      · have hlt := ih.mpr ⟨k, by omega, hnone⟩
        have hone : (slot cnt).toList.length ≤ 1 := by cases slot cnt <;> simp
        omega

/-- The elements from slot `k` on. -/
theorem filterMap_range'_eq (hk : k ≤ cnt) : (range' k (cnt - k)).filterMap slot =
    match (range' k (cnt - k)).find? fun k ↦ (slot k).isSome with
    | some k' => (slot k').toList ++ (range' (k' + 1) (cnt - (k' + 1))).filterMap slot
    | none => [] := by
  generalize hn : cnt - k = n
  induction n generalizing k with
  | zero => rfl
  | succ n ih =>
    rw [range'_succ, filterMap_cons, find?_cons]
    cases hslot : slot k with
    | none => exact ih (by omega) (by omega)
    | some a =>
      simp only [isSome_some, hslot, toList_some, singleton_append]
      rw [show cnt - (k + 1) = n by omega]

end Slots
