import Mathlib.Tactic

namespace Odometer

@[ext] structure Digits where
  high : Nat
  mid : Nat
  low : Nat

variable (midRadix lowRadix : Nat)

def Digits.Valid (d : Digits) : Prop := d.mid < midRadix ∧ d.low < lowRadix

def position (d : Digits) : Nat := d.high * midRadix * lowRadix + d.mid * lowRadix + d.low

def advance (d : Digits) : Digits :=
  if lowRadix ≤ d.low + 1 then
    if midRadix ≤ d.mid + 1 then ⟨d.high + 1, 0, 0⟩ else ⟨d.high, d.mid + 1, 0⟩
  else ⟨d.high, d.mid, d.low + 1⟩

def advanceMod (size : Nat) (d : Digits) : Digits :=
  if lowRadix ≤ (d.low + 1) % size then
    if midRadix ≤ (d.mid + 1) % size then ⟨(d.high + 1) % size, 0, 0⟩
    else ⟨d.high, (d.mid + 1) % size, 0⟩
  else ⟨d.high, d.mid, (d.low + 1) % size⟩

variable {midRadix lowRadix} {d e : Digits}

theorem advance_valid (h : d.Valid midRadix lowRadix) :
    (advance midRadix lowRadix d).Valid midRadix lowRadix := by
  obtain ⟨hm, hl⟩ := h
  simp only [advance, Digits.Valid]
  split_ifs <;> dsimp only <;> omega

theorem position_advance (h : d.Valid midRadix lowRadix) :
    position midRadix lowRadix (advance midRadix lowRadix d) =
      position midRadix lowRadix d + 1 := by
  obtain ⟨hm, hl⟩ := h
  simp only [advance, position]
  split_ifs with h1 h2
  · have hl' : lowRadix = d.low + 1 := by omega
    have hm' : midRadix = d.mid + 1 := by omega
    rw [hm', hl']
    ring
  · have hl' : lowRadix = d.low + 1 := by omega
    rw [hl']
    ring
  · ring

theorem iterate_valid (h : d.Valid midRadix lowRadix) (n : Nat) :
    ((advance midRadix lowRadix)^[n] d).Valid midRadix lowRadix := by
  induction n with
  | zero => exact h
  | succ n ih =>
    rw [Function.iterate_succ_apply']
    exact advance_valid ih

theorem position_iterate (h : d.Valid midRadix lowRadix) (n : Nat) :
    position midRadix lowRadix ((advance midRadix lowRadix)^[n] d) =
      position midRadix lowRadix d + n := by
  induction n with
  | zero => rfl
  | succ n ih =>
    rw [Function.iterate_succ_apply', position_advance (iterate_valid h n), ih]
    omega

/-- The modulus does not show while every digit stays below it. -/
theorem advance_mod_eq {size : Nat} (h : d.Valid midRadix lowRadix) (hh : d.high + 1 < size)
    (hm : midRadix < size) (hl : lowRadix < size) :
    advanceMod midRadix lowRadix size d = advance midRadix lowRadix d := by
  obtain ⟨hmid, hlow⟩ := h
  rw [advanceMod, Nat.mod_eq_of_lt hh, Nat.mod_eq_of_lt (by omega : d.mid + 1 < size),
    Nat.mod_eq_of_lt (by omega : d.low + 1 < size), advance]

/-- A cursor that steps like the counter up to a capacity does so for every number of steps that
stays within it. -/
theorem iterate_follows {α : Type*} {digits : α → Digits} {step : α → α} (capacity : Nat)
    (follows : ∀ a, (digits a).Valid midRadix lowRadix →
      position midRadix lowRadix (digits a) ≤ capacity →
      digits (step a) = advance midRadix lowRadix (digits a))
    {a : α} (h : (digits a).Valid midRadix lowRadix) {n : Nat}
    (hn : position midRadix lowRadix (digits a) + n ≤ capacity) :
    digits (step^[n] a) = (advance midRadix lowRadix)^[n] (digits a) := by
  induction n with
  | zero => rfl
  | succ n ih =>
    have hsteps := ih (by omega)
    rw [Function.iterate_succ_apply', Function.iterate_succ_apply', ← hsteps]
    apply follows
    · rw [hsteps]
      exact iterate_valid h n
    · rw [hsteps, position_iterate h]
      omega

/-- A valid counter is determined by its position. -/
theorem position_injective (hd : d.Valid midRadix lowRadix) (he : e.Valid midRadix lowRadix)
    (h : position midRadix lowRadix d = position midRadix lowRadix e) : d = e := by
  obtain ⟨hdm, hdl⟩ := hd
  obtain ⟨hem, hel⟩ := he
  have split : ∀ x : Digits, position midRadix lowRadix x =
      x.low + lowRadix * (x.mid + midRadix * x.high) := by
    intro x
    simp only [position]
    ring
  rw [split, split] at h
  have hlow : d.low = e.low := by
    have := congrArg (· % lowRadix) h
    simpa [Nat.add_mul_mod_self_left, Nat.mod_eq_of_lt hdl, Nat.mod_eq_of_lt hel] using this
  have hrest : d.mid + midRadix * d.high = e.mid + midRadix * e.high := by
    rw [hlow] at h
    exact Nat.eq_of_mul_eq_mul_left (by omega) (Nat.add_left_cancel h)
  have hmid : d.mid = e.mid := by
    have := congrArg (· % midRadix) hrest
    simpa [Nat.add_mul_mod_self_left, Nat.mod_eq_of_lt hdm, Nat.mod_eq_of_lt hem] using this
  have hhigh : d.high = e.high := by
    rw [hmid] at hrest
    exact Nat.eq_of_mul_eq_mul_left (by omega) (Nat.add_left_cancel hrest)
  exact Digits.ext hhigh hmid hlow

/-- The leading digit stays below its bound while the position stays below the capacity. -/
theorem high_lt_of_position {highRadix : Nat}
    (h : position midRadix lowRadix d < highRadix * midRadix * lowRadix) :
    d.high < highRadix := by
  by_contra hn
  have hle : highRadix * midRadix * lowRadix ≤ d.high * midRadix * lowRadix :=
    Nat.mul_le_mul_right _ (Nat.mul_le_mul_right _ (by omega))
  simp only [position] at h
  omega

end Odometer
