import Mathlib

/-!
# Waiting in the order of the locks

Threads `ι` wait for locks `κ` that other threads hold.  If every thread waits only for a lock
that ranks above all the locks it holds, then following the threads from one to the next the ranks
go up, and nobody waits for itself, directly or through others.
-/

set_option autoImplicit false

namespace LockOrder

universe u v

variable {ι : Type u} {κ : Type v} {waits : ι → Option κ} {holder : κ → Option ι} {rank : κ → Nat}

/-- `i` waits for a lock that `j` holds. -/
def WaitsFor (waits : ι → Option κ) (holder : κ → Option ι) (i j : ι) : Prop :=
  ∃ l, waits i = some l ∧ holder l = some j

/-- Along a chain of waiting threads the ranks go up. -/
theorem rank_lt_of_transGen
    (h : ∀ i l l', waits i = some l → holder l' = some i → rank l' < rank l) {i j : ι}
    (hij : Relation.TransGen (WaitsFor waits holder) i j) :
    ∃ l, waits i = some l ∧ ∀ l', waits j = some l' → rank l < rank l' := by
  induction hij with
  | single hw =>
    obtain ⟨l, hi, hl⟩ := hw
    exact ⟨l, hi, fun l' hj ↦ h _ l' l hj hl⟩
  | tail _ hw ih =>
    obtain ⟨l, hi, hlt⟩ := ih
    obtain ⟨m, hj, hm⟩ := hw
    exact ⟨l, hi, fun l' hk ↦ Nat.lt_trans (hlt m hj) (h _ l' m hk hm)⟩

/-- **No cycle.**  A thread that waits only for locks above those it holds never waits for
itself. -/
theorem no_cycle (h : ∀ i l l', waits i = some l → holder l' = some i → rank l' < rank l) (i : ι) :
    ¬ Relation.TransGen (WaitsFor waits holder) i i := by
  intro hi
  obtain ⟨l, hl, hlt⟩ := rank_lt_of_transGen h hi
  exact Nat.lt_irrefl _ (hlt l hl)

end LockOrder
