import Lucario.Proofs.WordConversions

namespace Lucario.Proofs

def broughtIn (inst : Instruction) (m : Machine) : Option Int :=
  match inst.opCode with
  | .load => operandWord inst m
  | .pop | .loadsp => some ((readMemory m.cpu.sp m).toOption.getD m.cpu.ac)
  | .loadrx => some m.cpu.rx
  | .loadrb => some m.cpu.rb
  | .loadrl => some m.cpu.rl
  | _ => none

/-- Comparing with zero, adding it and subtracting it set the condition code of AC's number, with
whatever word the operand says zero. -/
def ComparedWithZero (m : Machine) : Prop :=
  ∀ (u : Unspecified) (inst : Instruction) (zero : Int),
    inst.opCode = .comp ∨ inst.opCode = .sum ∨ inst.opCode = .res →
    operandWord inst m = some zero → wordToInt zero = 0 →
    (handler u inst m).2.cpu.psw.conditionCode = signCode (wordToInt m.cpu.ac)

/-- The condition code is the one of AC's number, as the arithmetic instructions see it. -/
def CodesAgree (m : Machine) : Prop :=
  m.cpu.psw.conditionCode = signCode (wordToInt m.cpu.ac) ∧ ComparedWithZero m

variable {inst : Instruction} {m : Machine}

theorem result_code_small (w : Int) : resultCode (wordToInt w) = signCode (wordToInt w) := by
  have hsmall : ¬ maxMagnitude < |wordToInt w| := not_lt.mpr (abs_word_to_int w)
  rw [result_code_eq, if_neg hsmall]

theorem compared_with_zero (m : Machine) : ComparedWithZero m := by
  intro u inst zero hop hw hz
  rcases hop with h | h | h
  · have hcomp : handler u inst m = executeComparison inst m := by
      unfold handler
      rw [h]
    rw [hcomp, executeComparison, fetch_of_operand hw]
    dsimp only
    rw [hz, sub_zero, ← result_code_small m.cpu.ac]
    unfold resultCode
    congr 2
    split_ifs with hneg
    · rw [abs_of_nonneg hneg]
    · rw [abs_of_neg (not_le.mp hneg)]
  all_goals
    have harith : handler u inst m = executeArithmetic inst m := by
      unfold handler
      rw [h]
    have exact := with_result_exact (exactResult (wordToInt m.cpu.ac) 0 inst.opCode) m
    rw [harith, arithmetic_eq (by simp [IsArithmetic, h]) hw (by simp [h]), hz, exact.code, h]
    simp only [exactResult, add_zero, sub_zero]
    exact result_code_small m.cpu.ac

/-- Each of them ends by setting the flags of the raw word. -/
theorem brought_in_flags (u : Unspecified) {w : Int} (hw : broughtIn inst m = some w)
    (hs : (handler u inst m).1 = .success) :
    ∃ n, (handler u inst m).2 = updatePSWFlags n ∧ n.cpu.ac = w := by
  unfold broughtIn at hw
  unfold handler at hs ⊢
  cases h : inst.opCode with
  | load =>
    simp only [h, executeDataMovement] at hw hs ⊢
    rw [fetch_of_operand hw]
    exact ⟨_, rfl, rfl⟩
  | pop =>
    simp only [h, executeStackManipulation, Option.some.injEq] at hw hs ⊢
    split_ifs at hs ⊢
    · cases hs
    · exact ⟨_, rfl, hw⟩
  | loadrx | loadrb | loadrl | loadsp =>
    simp only [h, executeDataMovement, Option.some.injEq] at hw ⊢
    exact ⟨_, rfl, hw⟩
  | _ => simp [h] at hw

theorem word_to_int_negative {w : Int} (hl : 10000000 ≤ w) (hu : w ≤ 19999999) :
    wordToInt w = 10000000 - w := by
  have hr := tmod_sign w 10000000
  simp only [wordToInt, isNegative, getMagnitude, signBit]
  omega

/-- The flags of a raw word are those of its number for every word but negative zero. -/
theorem raw_flags_agree {n : Machine} (hv : isValidWord n.cpu.ac) :
    (updatePSWFlags n).cpu.psw.conditionCode = signCode (wordToInt n.cpu.ac) ↔
      n.cpu.ac ≠ 10000000 := by
  obtain ⟨hl, hu⟩ := hv
  simp only [maxWordValue, signBit, maxMagnitude, Int.reduceAdd] at hu
  unfold updatePSWFlags signCode
  dsimp only
  rcases Int.lt_or_le n.cpu.ac 10000000 with hsmall | hlarge
  · have hpos : ¬ isNegative n.cpu.ac := not_le.mpr hsmall
    rw [word_to_int_small hl hsmall, if_neg hpos, if_neg (not_lt.mpr hl)]
    exact iff_of_true rfl hsmall.ne
  · have hneg : isNegative n.cpu.ac := hlarge
    rw [word_to_int_negative hlarge hu, if_neg (by omega), if_pos hneg]
    by_cases hz : n.cpu.ac = 10000000
    · rw [if_pos (by omega)]
      exact iff_of_false (by decide) (not_not.mpr hz)
    · rw [if_neg (by omega), if_pos (by omega)]
      exact iff_of_true rfl hz

/-- The condition code of a word brought into AC is the one the other instructions see, for every
valid word but negative zero: the flags are taken from the raw word there. -/
theorem codes_agree (u : Unspecified) (inst : Instruction) (m : Machine) (w : Int)
    (hv : isValidWord w) (hw : broughtIn inst m = some w)
    (hs : (handler u inst m).1 = .success) :
    (handler u inst m).2.cpu.ac = w ∧ (CodesAgree (handler u inst m).2 ↔ w ≠ 10000000) := by
  obtain ⟨n, hn, rfl⟩ := brought_in_flags u hw hs
  rw [hn]
  have agree := raw_flags_agree hv
  refine ⟨rfl, ?_, ?_⟩
  · intro h
    exact agree.mp h.1
  · intro hz
    exact ⟨agree.mpr hz, compared_with_zero _⟩

theorem codes_agree_minus_five :
    CodesAgree (handler zeros ⟨.loadrx, .direct, 0⟩
      { (boot zeroKeys).hw with cpu.rx := 10000005 }).2 :=
  (codes_agree zeros ⟨.loadrx, .direct, 0⟩ { (boot zeroKeys).hw with cpu.rx := 10000005 }
    10000005 (by decide) rfl rfl).2.mpr (by decide)

/-- Negative zero comes into AC as a negative number. -/
theorem not_codes_agree :
    ¬ ∀ (u : Unspecified) (inst : Instruction) (m : Machine) (w : Int), isValidWord w →
      broughtIn inst m = some w → (handler u inst m).1 = .success →
      CodesAgree (handler u inst m).2 := by
  intro agree
  have codes := agree zeros ⟨.loadrx, .direct, 0⟩
    { (boot zeroKeys).hw with cpu.rx := 10000000 } 10000000 (by decide) rfl rfl
  exact absurd codes.1 (by decide)

end Lucario.Proofs
