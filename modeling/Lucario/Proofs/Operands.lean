import Lucario.Proofs.DmaProgramming

namespace Lucario.Proofs

variable {inst : Instruction} {m : Machine}

def operandWord (inst : Instruction) (m : Machine) : Option Int :=
  match inst.direction with
  | .immediate => some (intToWord (toInt32 inst.value)).1
  | .direct | .indexed =>
    if Accessible m.cpu (calculateEffectiveAddress m.cpu inst) then
      some (m.ram (translate m.cpu (calculateEffectiveAddress m.cpu inst)))
    else none
  | .invalid => none

def operandFlags (inst : Instruction) (m : Machine) : ConditionCode :=
  match inst.direction with
  | .immediate => (intToWord (toInt32 inst.value)).2
  | _ => m.cpu.psw.conditionCode

def fetchFault (inst : Instruction) : InterruptCode :=
  match inst.direction with
  | .direct | .indexed => .invalidAddr
  | _ => .invalidInstr

theorem fetch_of_operand {w : Int} (h : operandWord inst m = some w) :
    fetchOperand inst m =
      (some w, { m with cpu.psw.conditionCode := operandFlags inst m }) := by
  unfold operandWord at h
  unfold fetchOperand operandFlags
  cases hd : inst.direction with
  | immediate => simpa [hd] using h
  | direct | indexed =>
    simp only [hd] at h ⊢
    split_ifs at h with ha
    rw [read_accessible ha]
    cases h
    rfl
  | invalid => simp [hd] at h

theorem fetch_of_no_operand (h : operandWord inst m = none) :
    fetchOperand inst m = (none, raiseInterrupt (fetchFault inst) m) := by
  unfold operandWord at h
  unfold fetchOperand fetchFault
  cases hd : inst.direction with
  | immediate => simp [hd] at h
  | direct | indexed =>
    simp only [hd] at h ⊢
    split_ifs at h with ha
    obtain ⟨status, hs⟩ := read_inaccessible ha
    rw [hs]
  | invalid => rfl

/-- A fetch sees no flags and no pending interrupts. -/
theorem operand_of_fetch (inst : Instruction) (m : Machine) :
    (fetchOperand inst m).1 = operandWord inst m := by
  cases h : operandWord inst m with
  | none => rw [fetch_of_no_operand h]
  | some w => rw [fetch_of_operand h]

end Lucario.Proofs
