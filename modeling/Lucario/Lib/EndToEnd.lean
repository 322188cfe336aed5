import Mathlib.Data.List.Basic

/-! Blocks laid end to end on a line of positions. -/

namespace EndToEnd

variable {β : Type*} {start size : β → Nat}

def Holds (start size : β → Nat) (b : β) (x : Nat) : Prop := start b ≤ x ∧ x < start b + size b

/-- The blocks follow one another from the first position to the second, without a gap. -/
inductive Laid (start size : β → Nat) : Nat → List β → Nat → Prop where
  | nil (p : Nat) : Laid start size p [] p
  | cons (b : β) (bs : List β) (q : Nat) (tail : Laid start size (start b + size b) bs q) :
      Laid start size (start b) (b :: bs) q

variable {bs : List β} {b : β} {p q x : Nat}

theorem Laid.le (h : Laid start size p bs q) : p ≤ q := by
  induction h with
  | nil => exact Nat.le_refl _
  | cons b bs q tail ih => omega

/-- The blocks hold the positions between their ends, and no others. -/
theorem Laid.holds_iff (h : Laid start size p bs q) :
    (∃ b ∈ bs, Holds start size b x) ↔ p ≤ x ∧ x < q := by
  induction h with
  | nil p => simp
  | cons b bs q tail ih =>
    have hle := tail.le
    simp only [List.mem_cons, exists_eq_or_imp, ih]
    unfold Holds
    omega

theorem Laid.append (h : Laid start size p bs q) (hb : start b = q) :
    Laid start size p (bs ++ [b]) (q + size b) := by
  induction h with
  | nil p =>
    subst hb
    exact .cons b [] _ (.nil _)
  | cons c bs q tail ih => exact .cons c _ _ (ih hb)

end EndToEnd
