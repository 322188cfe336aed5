import Mathlib.Tactic

namespace Overlay

structure Part (M α β : Type*) where
  get : M → α → β
  set : (α → β) → M → M
  get_set : ∀ f m, get (set f m) = f
  set_get : ∀ m, set (get m) m = m

variable {M α β ρ : Type*} (L : Part M α β) (S : Set α) [DecidablePred (· ∈ S)]

def overlay (r : α → β) (m : M) : M := L.set (S.piecewise (L.get m) r) m

/-- An operation that cannot tell what surrounds `S` and carries it through unchanged. -/
def Confined (f : M → ρ × M) (m : M) : Prop :=
  ∀ r, f (overlay L S r m) = ((f m).1, overlay L S r (f m).2)

variable {L S} {f : M → ρ × M} {m m' : M}

theorem overlay_self : overlay L S (L.get m) m = m := by
  simp only [overlay, Set.piecewise_same]
  exact L.set_get m

theorem get_overlay_outside {r : α → β} {a : α} (ha : a ∉ S) :
    L.get (overlay L S r m) a = r a := by
  simp [overlay, L.get_set, ha]

theorem get_overlay_inside {r : α → β} {a : α} (ha : a ∈ S) :
    L.get (overlay L S r m) a = L.get m a := by
  simp [overlay, L.get_set, ha]

/-- A confined operation writes nothing outside. -/
theorem Confined.frame (h : Confined L S f m) {a : α} (ha : a ∉ S) :
    L.get (f m).2 a = L.get m a := by
  have hr := congrArg Prod.snd (h (L.get m))
  rw [overlay_self] at hr
  rw [hr]
  exact get_overlay_outside ha

def SameInside (L : Part M α β) (S : Set α) (m m' : M) : Prop :=
  m' = L.set (L.get m') m ∧ ∀ a ∈ S, L.get m' a = L.get m a

theorem SameInside.eq_overlay (h : SameInside L S m m') : m' = overlay L S (L.get m') m := by
  obtain ⟨hm, ha⟩ := h
  have hp : S.piecewise (L.get m) (L.get m') = L.get m' := by
    funext a
    by_cases hs : a ∈ S <;> simp [hs, ha]
  rw [overlay, hp]
  exact hm

theorem same_inside_overlay (r : α → β) : SameInside L S m (overlay L S r m) := by
  refine ⟨?_, fun a ha => get_overlay_inside ha⟩
  rw [overlay, L.get_set]

/-- A confined operation reads nothing outside: it maps states that agree inside to equal
results and to states that again agree inside. -/
theorem Confined.independent (h : Confined L S f m) (hs : SameInside L S m m') :
    (f m').1 = (f m).1 ∧ SameInside L S (f m).2 (f m').2 := by
  have he := h (L.get m')
  rw [← hs.eq_overlay] at he
  rw [he]
  exact ⟨rfl, same_inside_overlay _⟩

end Overlay
