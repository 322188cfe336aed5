import Mathlib.Data.List.GetD
import Mathlib.Data.List.Induction

/-! Lists that stand for a sequence which goes on with a default after their last element. -/

namespace PaddedList

variable {α : Type*} {d : α}

def Same (d : α) (xs ys : List α) : Prop := ∀ i, xs.getD i d = ys.getD i d

def Padding (d : α) (xs : List α) : Prop := ∀ x ∈ xs, x = d

/-- Parts of two lists, the first as written and the second as wanted: part by part equal, up to
one that goes on with padding and after which both lists are padding. -/
inductive Settled (d : α) : List (List α × List α) → Prop where
  | done : Settled d []
  | own (xs : List α) {rest : List (List α × List α)} (h : Settled d rest) :
    Settled d ((xs, xs) :: rest)
  | padded (xs extra : List α) {rest : List (List α × List α)} (hextra : Padding d extra)
      (hrest : ∀ part ∈ rest, Padding d part.1 ∧ Padding d part.2) :
    Settled d ((xs ++ extra, xs) :: rest)

theorem Padding.get {xs : List α} (h : Padding d xs) (i : Nat) : xs.getD i d = d := by
  by_cases hi : i < xs.length
  · rw [List.getD_eq_getElem _ _ hi]
    exact h _ (List.getElem_mem hi)
  · exact List.getD_eq_default _ _ (by omega)

theorem Padding.same {xs ys : List α} (hx : Padding d xs) (hy : Padding d ys) : Same d xs ys :=
  fun i => (hx.get i).trans (hy.get i).symm

theorem Padding.append {xs ys : List α} (hx : Padding d xs) (hy : Padding d ys) :
    Padding d (xs ++ ys) := by
  intro x h
  rcases List.mem_append.mp h with h | h
  · exact hx x h
  · exact hy x h

theorem Padding.flatMap {β : Type*} {parts : List β} {f : β → List α}
    (h : ∀ part ∈ parts, Padding d (f part)) : Padding d (parts.flatMap f) := by
  intro x hx
  obtain ⟨part, hpart, hmem⟩ := List.mem_flatMap.mp hx
  exact h part hpart x hmem

/-- Padding at the end of a list makes no difference. -/
theorem Padding.append_same {zs : List α} (h : Padding d zs) (xs : List α) :
    Same d (xs ++ zs) xs := by
  intro i
  by_cases hi : i < xs.length
  · exact List.getD_append _ _ _ _ hi
  · rw [List.getD_append_right _ _ _ _ (by omega), h.get]
    exact (List.getD_eq_default _ _ (by omega)).symm

theorem same_cancel (xs ys zs : List α) : Same d (xs ++ ys) (xs ++ zs) ↔ Same d ys zs := by
  constructor
  · intro h i
    have hi := h (xs.length + i)
    rwa [List.getD_append_right _ _ _ _ (by omega), List.getD_append_right _ _ _ _ (by omega),
      Nat.add_sub_cancel_left] at hi
  · intro h i
    by_cases hi : i < xs.length
    · rw [List.getD_append _ _ _ _ hi, List.getD_append _ _ _ _ hi]
    · rw [List.getD_append_right _ _ _ _ (by omega), List.getD_append_right _ _ _ _ (by omega)]
      exact h _

/-- The longer of two lists for one sequence is the other one and padding. -/
theorem Same.extends {xs ys : List α} (h : Same d xs ys) (hlen : ys.length ≤ xs.length) :
    ∃ extra, Padding d extra ∧ xs = ys ++ extra := by
  refine ⟨xs.drop ys.length, ?_, ?_⟩
  · intro x hx
    obtain ⟨i, hi, rfl⟩ := List.mem_iff_getElem.mp hx
    have hget := h (ys.length + i)
    rw [List.length_drop] at hi
    rw [List.getD_eq_getElem _ _ (by omega), List.getD_eq_default ys _ (by omega)] at hget
    simpa using hget
  · apply List.ext_getElem
    · simp
      omega
    · intro i hi hi'
      have hget := h i
      rw [List.getD_eq_getElem _ _ hi] at hget
      by_cases hshort : i < ys.length
      · rw [List.getElem_append_left hshort, hget, List.getD_eq_getElem _ _ hshort]
      · rw [List.getElem_append_right (by omega), List.getElem_drop]
        congr 1
        omega

structure Covers (d : α) (part : List α × List α) : Prop where
  most : part.2.length ≤ 1
  least : part.2.length ≤ part.1.length
  padding : Padding d part.1 → Padding d part.2

theorem covered_length {parts : List (List α × List α)} (h : ∀ part ∈ parts, Covers d part) :
    (parts.flatMap Prod.snd).length ≤ (parts.flatMap Prod.fst).length := by
  induction parts with
  | nil => simp
  | cons part parts ih =>
    have hpart := (h part (by simp)).least
    have hparts := ih (fun x hx => h x (by simp [hx]))
    simp only [List.flatMap_cons, List.length_append]
    omega

/-- Behind a surplus element nothing but padding fits. -/
theorem shifted_padding {xs ys : List α} {parts : List (List α × List α)}
    (hlen : ys.length < xs.length) (h : ∀ part ∈ parts, Covers d part)
    (hsame : Same d (xs ++ parts.flatMap Prod.fst) (ys ++ parts.flatMap Prod.snd)) :
    Same d xs ys ∧ ∀ part ∈ parts, Padding d part.1 ∧ Padding d part.2 := by
  induction parts using List.reverseRecOn with
  | nil => simpa using hsame
  | append_singleton parts part ih =>
    have hparts : ∀ x ∈ parts, Covers d x := fun x hx => h x (by simp [hx])
    have hpart : Covers d part := h part (by simp)
    have hshort := covered_length hparts
    have hmost := hpart.most
    simp only [List.flatMap_append, List.flatMap_cons, List.flatMap_nil, List.append_nil] at hsame
    rw [← List.append_assoc, ← List.append_assoc] at hsame
    have hfirst : Padding d part.1 := by
      intro x hx
      obtain ⟨i, hi, rfl⟩ := List.mem_iff_getElem.mp hx
      have hget := hsame ((xs ++ parts.flatMap Prod.fst).length + i)
      rw [List.getD_append_right _ _ _ _ (by omega), Nat.add_sub_cancel_left,
        List.getD_eq_getElem _ _ hi] at hget
      rw [hget]
      apply List.getD_eq_default
      simp only [List.length_append]
      omega
    have hsecond := hpart.padding hfirst
    obtain ⟨hxy, hrest⟩ := ih hparts (fun i => by
      rw [← hfirst.append_same _ i, hsame i, hsecond.append_same _ i])
    refine ⟨hxy, fun x hx => ?_⟩
    rcases List.mem_append.mp hx with hx | hx
    · exact hrest x hx
    · obtain rfl := List.mem_singleton.mp hx
      exact ⟨hfirst, hsecond⟩

/-- The lists joined from the parts stand for one sequence exactly when the parts are settled. -/
theorem same_iff_settled {parts : List (List α × List α)} (h : ∀ part ∈ parts, Covers d part) :
    Same d (parts.flatMap Prod.fst) (parts.flatMap Prod.snd) ↔ Settled d parts := by
  constructor
  · intro hsame
    induction parts with
    | nil => exact .done
    | cons part parts ih =>
      obtain ⟨xs, ys⟩ := part
      have hparts : ∀ x ∈ parts, Covers d x := fun x hx => h x (by simp [hx])
      have hpart : Covers d (xs, ys) := h _ (by simp)
      have hmost := hpart.most
      have hleast := hpart.least
      simp only [List.flatMap_cons] at hsame hmost hleast
      by_cases hlen : ys.length < xs.length
      · obtain ⟨hxy, hrest⟩ := shifted_padding hlen hparts hsame
        obtain ⟨extra, hextra, rfl⟩ := hxy.extends hleast
        exact .padded ys extra hextra hrest
      · -- one element or none on both sides
        have heq : xs = ys := by
          apply List.ext_getElem (by omega)
          intro i hi hi'
          have hget := hsame i
          rwa [List.getD_append _ _ _ _ hi, List.getD_append _ _ _ _ hi',
            List.getD_eq_getElem _ _ hi, List.getD_eq_getElem _ _ hi'] at hget
        subst heq
        exact .own xs (ih hparts ((same_cancel xs _ _).mp hsame))
  · intro hsettled
    induction hsettled with
    | done => exact fun _ => rfl
    | own xs _ ih =>
      simp only [List.flatMap_cons]
      exact (same_cancel xs _ _).mpr (ih (fun x hx => h x (by simp [hx])))
    | padded xs extra hextra hrest =>
      simp only [List.flatMap_cons, List.append_assoc]
      rw [same_cancel]
      exact (hextra.append (Padding.flatMap fun x hx => (hrest x hx).1)).same
        (Padding.flatMap fun x hx => (hrest x hx).2)

end PaddedList
