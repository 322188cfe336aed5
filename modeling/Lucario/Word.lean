import Mathlib.Tactic

namespace Lucario

/-! `word` and `address` are `int32_t` in the source and `Int` here. Signed overflow is undefined
in C, so their sums and differences are those of the integers; only the conversions between
widths and signedness wrap. -/

@[simp] def ramSize : Int := 2000
@[simp] def osReservedSize : Int := 300
@[simp] def diskTracks : Nat := 10
@[simp] def diskCylinders : Nat := 10
@[simp] def diskSectors : Nat := 100
@[simp] def maxMagnitude : Int := 9999999
@[simp] def minStackSize : Int := 50
@[simp] def maxProcesses : Nat := 20
@[simp] def signBit : Int := 10000000

/-- Conversion of any integer to `int32_t`. -/
def toInt32 (x : Int) : Int := (x + 2147483648) % 4294967296 - 2147483648

/-- Conversion of any integer to `uint32_t`. -/
def toUInt32 (x : Int) : Int := x % 4294967296

/-- Conversion of any integer to `uint8_t`. -/
def toUInt8 (x : Int) : Nat := (x % 256).toNat

/-- Conversion of any integer to `uint64_t`. -/
def toUInt64 (x : Int) : Nat := (x % 18446744073709551616).toNat

/-- `ConditionCode_t`. -/
inductive ConditionCode where
  | zero | neg | pos | overflow
  deriving DecidableEq, Repr

/-- The integer behind the enumerator. -/
def ConditionCode.toWord : ConditionCode → Int
  | .zero => 0
  | .neg => 1
  | .pos => 2
  | .overflow => 3

def ConditionCode.ofWord : Int → Option ConditionCode
  | 0 => some .zero
  | 1 => some .neg
  | 2 => some .pos
  | 3 => some .overflow
  | _ => none

def getInstructionOpcode (w : Int) : Int := w.tdiv 1000000
def getInstructionMode (w : Int) : Int := (w.tdiv 100000).tmod 10
def getInstructionValue (w : Int) : Int := w.tmod 100000
def getMagnitude (w : Int) : Int := w.tmod signBit

abbrev isNegative (w : Int) : Prop := signBit ≤ w

/-- `MAX_WORD_VALUE`. -/
@[simp] def maxWordValue : Int := signBit + maxMagnitude

/-- `IS_VALID_WORD`. -/
abbrev isValidWord (w : Int) : Prop := 0 ≤ w ∧ w ≤ maxWordValue

/-- `IS_VALID_INSTRUCTION`, the check `writeMemory` makes on every stored word. -/
def isValidInstruction (w : Int) : Prop :=
  0 ≤ getInstructionOpcode w ∧ getInstructionOpcode w ≤ 33

instance (w : Int) : Decidable (isValidInstruction w) := inferInstanceAs (Decidable (_ ∧ _))

/-- C's remainder keeps the sign of the dividend. -/
theorem tmod_sign (w k : Int) :
    0 ≤ w ∧ w.tmod k = w % k ∨ w < 0 ∧ w.tmod k = -((-w) % k) := by
  rcases Int.lt_or_le w 0 with h | h
  · right
    refine ⟨h, ?_⟩
    rw [← Int.tmod_eq_emod_of_nonneg (by omega : 0 ≤ -w), Int.neg_tmod, Int.neg_neg]
  · exact Or.inl ⟨h, Int.tmod_eq_emod_of_nonneg h⟩

/-- C's quotient truncates towards zero. -/
theorem tdiv_sign (w k : Int) :
    0 ≤ w ∧ w.tdiv k = w / k ∨ w < 0 ∧ w.tdiv k = -((-w) / k) := by
  rcases Int.lt_or_le w 0 with h | h
  · right
    refine ⟨h, ?_⟩
    rw [← Int.tdiv_eq_ediv_of_nonneg (by omega : 0 ≤ -w), Int.neg_tdiv, Int.neg_neg]
  · exact Or.inl ⟨h, Int.tdiv_eq_ediv_of_nonneg h⟩

/-- The opcode field of a slightly negative word truncates to zero and passes the check. -/
theorem valid_instruction_iff (w : Int) :
    isValidInstruction w ↔ -1000000 < w ∧ w < 34000000 := by
  have h := tdiv_sign w 1000000
  simp only [isValidInstruction, getInstructionOpcode]
  omega

theorem valid_of_range {w : Int} (hl : 0 ≤ w) (hu : w < 34000000) : isValidInstruction w :=
  (valid_instruction_iff w).mpr ⟨by omega, hu⟩

def wordToInt (wordValue : Int) : Int :=
  if isNegative wordValue then -getMagnitude wordValue else getMagnitude wordValue

/-- The word and the condition code `intToWord` stores through its `psw` pointer. -/
def intToWord (intValue : Int) : Int × ConditionCode :=
  let magnitude := if 0 ≤ intValue then intValue else -intValue
  let negative : Prop := intValue < 0
  let cc : ConditionCode :=
    if maxMagnitude < magnitude then .overflow
    else if intValue = 0 then .zero
    else if negative then .neg
    else .pos
  let magnitude := if maxMagnitude < magnitude then magnitude.tmod (maxMagnitude + 1) else magnitude
  (if negative ∧ magnitude ≠ 0 then magnitude + signBit else magnitude, cc)

theorem word_to_int_small {w : Int} (hl : 0 ≤ w) (hu : w < 10000000) : wordToInt w = w := by
  have hr := tmod_sign w 10000000
  simp only [wordToInt, isNegative, getMagnitude, signBit]
  split_ifs <;> omega

theorem int_to_word_small {v : Int} (hl : 0 ≤ v) (hu : v < 10000000) : (intToWord v).1 = v := by
  have hn : ¬ v < 0 := by omega
  have hm : ¬ (9999999 : Int) < v := by omega
  simp [intToWord, hl, hn, hm]

/-- `intToWord` only ever builds one of the words from 0 to 19999999. -/
theorem int_to_word_range (v : Int) : 0 ≤ (intToWord v).1 ∧ (intToWord v).1 < 20000000 := by
  have h1 := tmod_sign v 10000000
  have h2 := tmod_sign (-v) 10000000
  simp only [intToWord, maxMagnitude, signBit, Int.reduceAdd]
  split_ifs <;> omega

theorem int_to_word_valid (v : Int) : isValidInstruction (intToWord v).1 := by
  have h := int_to_word_range v
  exact valid_of_range h.1 (by omega)

end Lucario
