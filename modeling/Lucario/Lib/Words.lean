import Mathlib.Data.List.Basic

/-! The words of a list are its maximal runs of elements that are not blank. -/

namespace Words

variable {α : Type*} {blank : α → Bool} {space : α}

def words (blank : α → Bool) (l : List α) : List (List α) :=
  (l.splitOnP blank).filter (fun w => w ≠ [])

@[simp] theorem words_nil : words blank [] = [] := by simp [words]

theorem words_cons_blank {c : α} (h : blank c = true) (l : List α) :
    words blank (c :: l) = words blank l := by
  simp [words, List.splitOnP_cons_eq_if_modifyHead, h]

theorem splits_free {l w : List α} (h : w ∈ l.splitOnP blank) :
    ∀ c ∈ w, c ∈ l ∧ blank c = false := by
  induction l generalizing w with
  | nil => simp_all
  | cons x l ih =>
    rw [List.splitOnP_cons_eq_if_modifyHead] at h
    cases hx : blank x with
    | true =>
      simp only [hx, if_true, List.mem_cons] at h
      rcases h with rfl | h
      · simp
      · intro c hc
        simp [ih h c hc]
    | false =>
      obtain ⟨v, vs, hv⟩ := List.exists_cons_of_ne_nil (List.splitOnP_ne_nil blank l)
      simp only [hx, hv, Bool.false_eq_true, if_false, List.modifyHead_cons, List.mem_cons] at h ih
      rcases h with rfl | h
      · intro c hc
        rcases List.mem_cons.mp hc with rfl | hc
        · simp [hx]
        · simp [ih (Or.inl rfl) c hc]
      · intro c hc
        simp [ih (Or.inr h) c hc]

/-- A word has elements, and none of them is blank. -/
theorem mem_words {l w : List α} (h : w ∈ words blank l) :
    w ≠ [] ∧ ∀ c ∈ w, c ∈ l ∧ blank c = false := by
  obtain ⟨hw, hne⟩ := List.mem_filter.mp h
  exact ⟨by simpa using hne, splits_free hw⟩

def spaced (space : α) (ws : List (List α)) : List α := ws.flatMap (fun w => space :: w)

theorem intercalate_spaced (space : α) (w : List α) (ws : List (List α)) :
    [space].intercalate (w :: ws) = w ++ spaced space ws := by
  induction ws generalizing w with
  | nil => simp [spaced]
  | cons v ws ih => simp [List.intercalate_cons_cons, ih, spaced]

theorem mem_intercalate {c : α} {ws : List (List α)} (h : c ∈ [space].intercalate ws) :
    c = space ∨ ∃ w ∈ ws, c ∈ w := by
  cases ws with
  | nil => simp at h
  | cons w ws =>
    simp only [intercalate_spaced, spaced, List.mem_append, List.mem_flatMap, List.mem_cons] at h ⊢
    grind

/-- One space apart, the words are read as before. -/
theorem words_spaced (hs : blank space = true) {ws : List (List α)}
    (h : ∀ w ∈ ws, w ≠ [] ∧ ∀ c ∈ w, blank c = false) :
    words blank ([space].intercalate ws) = ws := by
  induction ws with
  | nil => simp
  | cons w ws ih =>
    obtain ⟨hne, hfree⟩ := h w (by simp)
    have tail := ih (fun v hv => h v (by simp [hv]))
    cases ws with
    | nil => simp [words, List.splitOnP_eq_singleton hfree, hne]
    | cons v ws =>
      rw [List.intercalate_cons_cons, words, List.append_assoc, List.singleton_append,
        List.splitOnP_append_cons_of_forall_mem hfree space hs,
        List.filter_cons_of_pos (by simpa using hne)]
      exact congrArg (List.cons w) tail

/-- The list with one space for the blanks behind each word. -/
def squeeze (blank : α → Bool) (space : α) : Bool → List α → List α
  | _, [] => []
  | inWord, c :: l =>
    if blank c then
      if inWord then space :: squeeze blank space false l else squeeze blank space false l
    else c :: squeeze blank space true l

theorem squeeze_drop_while (l : List α) :
    squeeze blank space false (l.dropWhile blank) = squeeze blank space false l := by
  induction l with
  | nil => rfl
  | cons c l ih =>
    cases hc : blank c with
    | true => simpa [squeeze, hc] using ih
    | false => simp [hc]

def close (blank : α → Bool) (l : List α) : List α :=
  if l.getLast?.any blank then l.dropLast else l

@[simp] theorem close_nil : close blank [] = [] := rfl

theorem close_blank {c : α} (h : blank c = true) (l : List α) : close blank (l ++ [c]) = l := by
  simp [close, h]

theorem close_word {c : α} (h : blank c = false) (l : List α) :
    close blank (l ++ [c]) = l ++ [c] := by
  simp [close, h]

/-- What is squeezed behind the text of a word, and behind the space that follows one. -/
theorem squeeze_behind (hs : blank space = true) (l : List α) {out : List α}
    (h : close blank out = out) :
    (∀ w ws, l.splitOnP blank = w :: ws → close blank (out ++ squeeze blank space true l) =
      out ++ w ++ spaced space (ws.filter (fun w => w ≠ []))) ∧
    close blank (out ++ space :: squeeze blank space false l) =
      out ++ spaced space (words blank l) := by
  induction l generalizing out with
  | nil =>
    constructor
    · rintro w ws heq
      rw [List.splitOnP_nil] at heq
      cases heq
      simpa [squeeze, spaced] using h
    · simpa [squeeze, spaced] using close_blank hs out
  | cons c l ih =>
    cases hc : blank c with
    | true =>
      have behind := (ih h).2
      constructor
      · rintro w ws heq
        simp only [List.splitOnP_cons_eq_if_modifyHead, hc, if_true] at heq
        cases heq
        simpa [squeeze, hc, words] using behind
      · rw [words_cons_blank hc]
        simpa [squeeze, hc] using behind
    | false =>
      obtain ⟨v, vs, hv⟩ := List.exists_cons_of_ne_nil (List.splitOnP_ne_nil blank l)
      have split : (c :: l).splitOnP blank = (c :: v) :: vs := by
        simp [List.splitOnP_cons_eq_if_modifyHead, hc, hv]
      constructor
      · rintro w ws heq
        cases split.symm.trans heq
        simpa [squeeze, hc] using (ih (close_word hc out)).1 v vs hv
      · have inside := (ih (close_word hc (out ++ [space]))).1 v vs hv
        simpa [squeeze, hc, words, split, spaced] using inside

/-- Squeezing a list leaves its words, one space apart. -/
theorem close_squeeze (hs : blank space = true) (l : List α) :
    close blank (squeeze blank space false l) = [space].intercalate (words blank l) := by
  induction l with
  | nil => simp [squeeze]
  | cons c l ih =>
    cases hc : blank c with
    | true => simpa [squeeze, hc, words_cons_blank hc] using ih
    | false =>
      obtain ⟨v, vs, hv⟩ := List.exists_cons_of_ne_nil (List.splitOnP_ne_nil blank l)
      have inside := (squeeze_behind hs l (close_word hc [])).1 v vs hv
      have split : words blank (c :: l) = (c :: v) :: vs.filter (fun w => w ≠ []) := by
        simp [words, List.splitOnP_cons_eq_if_modifyHead, hc, hv]
      rw [split, intercalate_spaced]
      simpa [squeeze, hc] using inside

end Words
