import Mathlib.Tactic

namespace Footprint

variable {α β : Type*} {A B : α → β → Prop} {f g h : α → β}

/-- The memory `g` is the memory `f` but for cells that hold what `A` allows there. -/
def Changes (A : α → β → Prop) (f g : α → β) : Prop := ∀ a, g a = f a ∨ A a (g a)

theorem Changes.refl (f : α → β) : Changes A f f := fun _ => Or.inl rfl

theorem Changes.trans (hfg : Changes A f g) (hgh : Changes A g h) : Changes A f h := by
  intro a
  rcases hgh a with heq | hnew
  · rw [heq]
    exact hfg a
  · exact Or.inr hnew

theorem Changes.mono (hAB : ∀ a b, A a b → B a b) (hfg : Changes A f g) : Changes B f g :=
  fun a => (hfg a).imp_right (hAB a _)

theorem Changes.update [DecidableEq α] {a : α} {b : β} (hab : A a b) :
    Changes A f (Function.update f a b) := by
  intro x
  by_cases hx : x = a
  · subst hx
    exact Or.inr (by simpa using hab)
  · exact Or.inl (Function.update_of_ne hx _ _)

/-- A cell for which nothing is allowed keeps its value. -/
theorem Changes.frame (hfg : Changes A f g) {a : α} (ha : ∀ b, ¬ A a b) : g a = f a :=
  (hfg a).resolve_right (ha _)

/-- What holds of every cell goes on to hold when it holds of all that is allowed. -/
theorem Changes.keeps {P : α → β → Prop} (hfg : Changes A f g) (hf : ∀ a, P a (f a))
    (hA : ∀ a b, A a b → P a b) (a : α) : P a (g a) := by
  rcases hfg a with heq | hnew
  · rw [heq]
    exact hf a
  · exact hA a _ hnew

end Footprint
