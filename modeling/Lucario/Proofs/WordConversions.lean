import Lucario.Proofs.ExactArithmetic

namespace Lucario.Proofs

open SignMagnitude (wrap encode)

def signCode (v : Int) : ConditionCode :=
  if v = 0 then .zero else if v < 0 then .neg else .pos

def Negatable (v : Int) : Prop := -2 ^ 31 < v ∧ v < 2 ^ 31

structure Converted (v : Int) : Prop where
  negated : FitsSigned 31 (-v)
  valid : isValidWord (intToWord v).1
  oneZero : (intToWord v).1 ≠ 10000000
  value : wordToInt (intToWord v).1 = v.sign * (|v| % 10000000)
  overflow : (intToWord v).2 = .overflow ↔ maxMagnitude < |v|
  code : |v| ≤ maxMagnitude → (intToWord v).2 = signCode v

theorem sign_code_small (v : Int) : signCode v ≠ .overflow := by
  unfold signCode
  split_ifs <;> decide

theorem result_code_eq (v : Int) :
    resultCode v = if maxMagnitude < |v| then .overflow else signCode v := rfl

theorem int_to_word_converted {v : Int} (h : Negatable v) : Converted v := by
  have hwrap := SignMagnitude.abs_wrap_lt (by decide : 0 < signBit) v
  have hrange := SignMagnitude.encode_range hwrap
  constructor
  case negated =>
    obtain ⟨hl, hu⟩ := h
    norm_num [FitsSigned] at *
    omega
  case valid =>
    rw [int_to_word_eq]
    simp only [isValidWord, maxWordValue, signBit, maxMagnitude] at hrange ⊢
    omega
  case oneZero =>
    rw [int_to_word_eq]
    exact SignMagnitude.encode_ne_negative_zero hwrap
  case value =>
    rw [int_to_word_eq, word_to_int_decode]
    exact SignMagnitude.decode_encode hwrap
  case overflow =>
    rw [int_to_word_eq, result_code_eq]
    split_ifs with hlarge
    · exact iff_of_true rfl hlarge
    · exact iff_of_false (sign_code_small v) hlarge
  case code =>
    intro hsmall
    rw [int_to_word_eq, result_code_eq, if_neg (not_lt.mpr hsmall)]

theorem int_to_word_of_word {w : Int} (hv : isValidWord w) (hz : w ≠ 10000000) :
    (intToWord (wordToInt w)).1 = w := by
  have hdec := SignMagnitude.abs_decode_lt (by decide : 0 < signBit) w
  obtain ⟨hl, hu⟩ := hv
  simp only [maxWordValue, signBit, maxMagnitude] at hu
  rw [int_to_word_eq, word_to_int_decode, SignMagnitude.wrap_of_small hdec]
  exact SignMagnitude.encode_decode hl (by simp only [signBit]; omega) hz

/-- The conversions are inverse to each other, up to negative zero and the reduction of the
magnitude. -/
theorem conversions_inverse :
    (∀ v, Negatable v → Converted v) ∧
      ∀ w, isValidWord w → w ≠ 10000000 → (intToWord (wordToInt w)).1 = w :=
  ⟨fun _ h => int_to_word_converted h, fun _ hv hz => int_to_word_of_word hv hz⟩

theorem conversions_inverse_large :
    Converted (-10000001) ∧ (intToWord (wordToInt 19999999)).1 = 19999999 :=
  ⟨conversions_inverse.1 _ (by norm_num [Negatable]),
    conversions_inverse.2 _ (by norm_num [isValidWord]) (by norm_num)⟩

end Lucario.Proofs
