import Mathlib.Tactic

namespace SignMagnitude

/-! Numbers written as a sign and a magnitude below `B`, the sign as an added `B`. -/

variable {B v w : Int}

def wrap (B v : Int) : Int := v.sign * (|v| % B)

/-- The word of a number whose magnitude is below `B`. -/
def encode (B v : Int) : Int := if v < 0 then B - v else v

def decode (B w : Int) : Int := if B ≤ w then -w.tmod B else w.tmod B

/-- Reducing the magnitude is what a remainder that keeps the sign of the dividend does. -/
theorem wrap_eq_tmod (B v : Int) : wrap B v = v.tmod B := by
  unfold wrap
  rcases lt_trichotomy v 0 with h | rfl | h
  · rw [Int.sign_eq_neg_one_of_neg h, abs_of_neg h,
      ← Int.tmod_eq_emod_of_nonneg (neg_nonneg.mpr h.le), Int.neg_tmod, neg_one_mul, neg_neg]
  · simp
  · rw [Int.sign_eq_one_of_pos h, abs_of_pos h, Int.tmod_eq_emod_of_nonneg h.le, one_mul]

theorem wrap_of_small (h : |v| < B) : wrap B v = v := by
  rw [wrap, Int.emod_eq_of_lt (abs_nonneg v) h, Int.sign_mul_abs]

theorem abs_wrap_lt (hB : 0 < B) (v : Int) : |wrap B v| < B := by
  have hm := Int.emod_nonneg |v| hB.ne'
  have hlt := Int.emod_lt_of_pos |v| hB
  rcases lt_trichotomy v 0 with h | rfl | h
  · rw [wrap, Int.sign_eq_neg_one_of_neg h, neg_one_mul, abs_neg, abs_of_nonneg hm]
    exact hlt
  · simpa [wrap] using hB
  · rw [wrap, Int.sign_eq_one_of_pos h, one_mul, abs_of_nonneg hm]
    exact hlt

theorem wrap_wrap (hB : 0 < B) (v : Int) : wrap B (wrap B v) = wrap B v :=
  wrap_of_small (abs_wrap_lt hB v)

/-- The word of a reduced number, written from its sign and its magnitude. -/
theorem encode_wrap (hB : 0 < B) (v : Int) :
    encode B (wrap B v) = if v < 0 ∧ |v| % B ≠ 0 then |v| % B + B else |v| % B := by
  have hm := Int.emod_nonneg |v| hB.ne'
  rcases lt_trichotomy v 0 with h | rfl | h
  · rw [wrap, encode, Int.sign_eq_neg_one_of_neg h, neg_one_mul]
    split_ifs <;> omega
  · simp [wrap, encode]
  · rw [wrap, encode, Int.sign_eq_one_of_pos h, one_mul]
    split_ifs <;> omega

theorem decode_encode (h : |v| < B) : decode B (encode B v) = v := by
  obtain ⟨hl, hu⟩ := abs_lt.mp h
  unfold encode decode
  split_ifs with hneg hB hB
  · rw [Int.tmod_eq_emod_of_nonneg (by omega), show B - v = -v + B by ring, Int.add_emod_right,
      Int.emod_eq_of_lt (by omega) (by omega), neg_neg]
  · omega
  · omega
  · rw [Int.tmod_eq_emod_of_nonneg (by omega), Int.emod_eq_of_lt (by omega) hu]

/-- Zero has one word only. -/
theorem encode_ne_negative_zero (h : |v| < B) : encode B v ≠ B := by
  obtain ⟨hl, hu⟩ := abs_lt.mp h
  unfold encode
  split_ifs <;> omega

theorem encode_range (h : |v| < B) : 0 ≤ encode B v ∧ encode B v < 2 * B := by
  obtain ⟨hl, hu⟩ := abs_lt.mp h
  unfold encode
  split_ifs <;> omega

/-- Negative zero apart, a word is the one of the number it stands for. -/
theorem encode_decode (hl : 0 ≤ w) (hu : w < 2 * B) (hz : w ≠ B) :
    encode B (decode B w) = w := by
  unfold decode
  rw [Int.tmod_eq_emod_of_nonneg hl]
  split_ifs with h
  · have hmod : w % B = w - B := by
      rw [← Int.sub_emod_right, Int.emod_eq_of_lt (by omega) (by omega)]
    rw [hmod, encode, if_pos (by omega)]
    omega
  · rw [Int.emod_eq_of_lt hl (by omega), encode, if_neg (by omega)]

/-- Every word, canonical or not, stands for a number whose magnitude is below `B`. -/
theorem abs_decode_lt (hB : 0 < B) (w : Int) : |decode B w| < B := by
  have h := abs_wrap_lt hB w
  rw [wrap_eq_tmod] at h
  unfold decode
  split_ifs
  · rwa [abs_neg]
  · exact h

end SignMagnitude
