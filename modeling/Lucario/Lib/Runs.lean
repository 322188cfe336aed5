import Mathlib.Tactic

namespace Runs

variable {p : Int → Prop} {s n i c : Int}

def IsRun (p : Int → Prop) (s n : Int) : Prop := ∀ b, s ≤ b → b < s + n → p b

/-- A scan for the first run of length `n` from 0 on has reached `i`, and counts `c` for the run
that ends there. -/
structure Scanned (p : Int → Prop) (n i c : Int) : Prop where
  counted : 0 ≤ c ∧ c ≤ i ∧ c < n
  trailing : IsRun p (i - c) c
  longest : ∀ s, 0 ≤ s → s ≤ i → IsRun p s (i - s) → i - c ≤ s
  none : ∀ s, 0 ≤ s → s + n ≤ i → ¬ IsRun p s n

theorem scanned_start (hn : 0 < n) : Scanned p n 0 0 where
  counted := ⟨le_rfl, le_rfl, hn⟩
  trailing := by
    intro b hl hu
    omega
  longest := by
    intro s hs _ _
    omega
  none := by
    intro s hs hle
    omega

/-- A position without the property starts the count again. -/
theorem Scanned.skip (h : Scanned p n i c) (hi : ¬ p i) : Scanned p n (i + 1) 0 where
  counted := ⟨le_rfl, by have := h.counted; omega, by have := h.counted; omega⟩
  trailing := by
    intro b hl hu
    omega
  longest := by
    intro s hs hle hrun
    by_contra hlt
    exact hi (hrun i (by omega) (by omega))
  none := by
    intro s hs hle hrun
    have hpos := h.counted
    rcases Int.lt_or_le i (s + n) with hlt | hle'
    · exact hi (hrun i (by omega) hlt)
    · exact h.none s hs hle' hrun

/-- A position with the property makes the run longer. -/
theorem Scanned.extend (h : Scanned p n i c) (hi : p i) (hc : c + 1 ≠ n) :
    Scanned p n (i + 1) (c + 1) where
  counted := by
    have := h.counted
    omega
  trailing := by
    intro b hl hu
    rcases eq_or_ne b i with rfl | hne
    · exact hi
    · exact h.trailing b (by omega) (by omega)
  longest := by
    intro s hs hle hrun
    rcases eq_or_ne s (i + 1) with rfl | hne
    · have := h.counted
      omega
    · have := h.longest s hs (by omega) (fun b hl hu => hrun b hl (by omega))
      omega
  none := by
    intro s hs hle hrun
    have hpos := h.counted
    rcases Int.lt_or_le i (s + n) with hlt | hle'
    -- the run would end at `i` and be longer than the one that was counted
    · have := h.longest s hs (by omega) (fun b hl hu => hrun b hl (by omega))
      omega
    · exact h.none s hs hle' hrun

/-- The first run found is the leftmost one. -/
theorem Scanned.found (h : Scanned p n i c) (hi : p i) (hc : c + 1 = n) :
    IsLeast {s | 0 ≤ s ∧ IsRun p s n} (i - n + 1) := by
  have hpos := h.counted
  refine ⟨⟨by omega, ?_⟩, ?_⟩
  · intro b hl hu
    rcases eq_or_ne b i with rfl | hne
    · exact hi
    · exact h.trailing b (by omega) (by omega)
  · rintro s ⟨hs, hrun⟩
    by_contra hlt
    exact h.none s hs (by omega) hrun

end Runs
