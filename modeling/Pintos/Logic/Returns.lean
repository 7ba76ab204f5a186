import Mathlib

/-!
# Code that may panic, and does not

`Returns m Q` says of a computation `m : Option α` that it returns a value, and that the value
satisfies `Q`: total correctness, with `none` as the only way to fail.  A computation is put
together with `>>=`, so `Returns.bind` takes its proof apart in the same way.
-/

set_option autoImplicit false

universe u v

/-- `m` returns a value that satisfies `Q`. -/
def Returns {α : Type u} (m : Option α) (Q : α → Prop) : Prop := ∃ a, m = some a ∧ Q a

namespace Returns

variable {α : Type u} {β : Type u} {m : Option α} {f : α → Option β} {Q Q' : α → Prop}
  {R : β → Prop}

theorem pure {a : α} (h : Q a) : Returns (some a) Q := ⟨a, rfl, h⟩

theorem bind (hm : Returns m Q) (hf : ∀ a, Q a → Returns (f a) R) : Returns (m >>= f) R := by
  obtain ⟨a, rfl, ha⟩ := hm
  exact hf a ha

theorem bind_some {a : α} (hm : m = some a) (hf : Returns (f a) R) : Returns (m >>= f) R := by
  subst hm
  exact hf

theorem mono (hm : Returns m Q) (h : ∀ a, Q a → Q' a) : Returns m Q' := by
  obtain ⟨a, rfl, ha⟩ := hm
  exact ⟨a, rfl, h a ha⟩

/-- What is known of the value that is returned, when it is known which one that is. -/
theorem of_eq {a : α} (hm : Returns m Q) (h : m = some a) : Q a := by
  obtain ⟨b, hb, hQ⟩ := hm
  obtain rfl : a = b := Option.some.inj (h.symm.trans hb)
  exact hQ

theorem isSome (hm : Returns m Q) : m.isSome = true := by
  obtain ⟨a, rfl, -⟩ := hm
  rfl

end Returns
