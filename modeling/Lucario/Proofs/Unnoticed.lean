import Lucario.Proofs.ContextFrame

namespace Lucario.Proofs

/-- A change of the machine that the processor cannot notice as long as its registers satisfy
`F`: the registers are the same, every word it may load is the same, and it does not matter
whether a register update, an interrupt or a store comes before or after the change. -/
structure Unnoticed (F : Cpu → Prop) (T : Machine → Machine) : Prop where
  view : ∀ c d, SameView c d → F d → F c
  cpu : ∀ m, (T m).cpu = m.cpu
  setCpu : ∀ m c, T { m with cpu := c } = { T m with cpu := c }
  raise : ∀ m code, T (raiseInterrupt code m) = raiseInterrupt code (T m)
  related : ∀ m code v, T (raiseInterruptRelated code v m) = raiseInterruptRelated code v (T m)
  load : ∀ m a, F m.cpu → Accessible m.cpu a →
    (T m).ram (translate m.cpu a) = m.ram (translate m.cpu a)
  store : ∀ m a v, F m.cpu → Accessible m.cpu a →
    T (storeRam (translate m.cpu a) v m) = storeRam (translate m.cpu a) v (T m)

variable {F : Cpu → Prop} {T : Machine → Machine} {m : Machine}

theorem Unnoticed.read (h : Unnoticed F T) (hF : F m.cpu) (a : Int) :
    readMemory a (T m) = readMemory a m := by
  rw [readMemory, readMemory, h.cpu]
  by_cases ha : Accessible m.cpu a
  · rw [physical_of_accessible ha]
    exact congrArg Except.ok (h.load m a hF ha)
  · obtain ⟨status, hs⟩ := physical_of_inaccessible ha
    rw [hs]
    rfl

theorem Unnoticed.write (h : Unnoticed F T) (hF : F m.cpu) (a v : Int) :
    writeMemory a v (T m) = (writeMemory a v m).map T := by
  by_cases hw : Accessible m.cpu a ∧ isValidInstruction v
  · rw [write_accessible hw.1 hw.2, write_accessible (by rw [h.cpu]; exact hw.1) hw.2, h.cpu]
    exact congrArg Except.ok (h.store m a v hF hw.1).symm
  · rw [writeMemory, writeMemory, h.cpu]
    by_cases hv : isValidInstruction v
    · obtain ⟨status, hs⟩ := physical_of_inaccessible (fun ha => hw ⟨ha, hv⟩)
      rw [if_neg (not_not.mpr hv), if_neg (not_not.mpr hv), hs]
      rfl
    · rw [if_pos hv, if_pos hv]
      rfl

theorem Unnoticed.orUnchanged (h : Unnoticed F T) (hF : F m.cpu) (a v : Int) :
    Lucario.orUnchanged (writeMemory a v (T m)) (T m) =
      T (Lucario.orUnchanged (writeMemory a v m) m) := by
  rw [h.write hF]
  cases writeMemory a v m <;> rfl

abbrev Carries (T : Machine → Machine) (f : Machine → InstructionStatus × Machine)
    (m : Machine) : Prop := f (T m) = ((f m).1, T (f m).2)

theorem Unnoticed.updateFlags (h : Unnoticed F T) (m : Machine) :
    updatePSWFlags (T m) = T (updatePSWFlags m) := by
  rw [updatePSWFlags, h.cpu, ← h.setCpu]
  rfl

theorem Unnoticed.fail (h : Unnoticed F T) (code : InterruptCode) (m : Machine) :
    failWith code (T m) = ((failWith code m).1, T (failWith code m).2) := by
  rw [failWith, failWith, h.raise]

theorem Unnoticed.finish (h : Unnoticed F T) (m : Machine) (r : Except MemoryStatus Machine) :
    finishWrite (T m) (r.map T) = ((finishWrite m r).1, T (finishWrite m r).2) := by
  cases r with
  | ok n => rfl
  | error status => exact h.fail .invalidAddr m

theorem Unnoticed.fetchOperand (h : Unnoticed F T) (hF : F m.cpu) (inst : Instruction) :
    Lucario.fetchOperand inst (T m) =
      ((Lucario.fetchOperand inst m).1, T (Lucario.fetchOperand inst m).2) := by
  unfold Lucario.fetchOperand
  cases inst.direction
  case immediate =>
    dsimp only
    rw [h.cpu, ← h.setCpu]
  case direct | indexed =>
    dsimp only
    rw [h.read hF, h.cpu]
    cases readMemory (calculateEffectiveAddress m.cpu inst) m with
    | ok w => rfl
    | error status => exact congrArg (Prod.mk _) (h.raise m .invalidAddr).symm
  case invalid => exact congrArg (Prod.mk _) (h.raise m .invalidInstr).symm

theorem Unnoticed.accumulator (h : Unnoticed F T) (v : Int) (m : Machine) :
    storeAccumulator v (T m) = T (storeAccumulator v m) := by
  unfold storeAccumulator
  dsimp only
  rw [h.cpu, ← h.setCpu]

theorem Unnoticed.overflow (h : Unnoticed F T) (v : Int) (m : Machine) :
    raiseOnOverflow v (T m) = T (raiseOnOverflow v m) := by
  unfold raiseOnOverflow
  rw [h.cpu]
  split_ifs
  · rw [h.related]
  · rfl

theorem Unnoticed.arithmetic (h : Unnoticed F T) (hF : F m.cpu) (inst : Instruction) :
    Carries T (executeArithmetic inst) m := by
  unfold Carries executeArithmetic
  rw [h.fetchOperand hF]
  rcases Lucario.fetchOperand inst m with ⟨operand, n⟩
  cases operand with
  | none => rfl
  | some w =>
    dsimp only
    rw [h.cpu]
    cases inst.opCode
    case sum => dsimp only; rw [h.accumulator, h.overflow]
    case res => dsimp only; rw [h.accumulator, h.overflow]
    case mult =>
      dsimp only
      rw [h.accumulator]
      split_ifs
      · rw [h.cpu, ← h.setCpu, h.overflow]
      · rw [h.overflow]
    case divi =>
      dsimp only
      split_ifs
      · rw [← h.raise, h.cpu, ← h.setCpu]
      · rw [h.accumulator, h.overflow]
    all_goals exact h.fail .invalidInstr n

theorem Unnoticed.loaded (h : Unnoticed F T) (m : Machine) (ac : Int) :
    updatePSWFlags { T m with cpu := { m.cpu with ac := ac } } =
      T (updatePSWFlags { m with cpu := { m.cpu with ac := ac } }) := by
  rw [← h.setCpu, h.updateFlags]

theorem Unnoticed.movement (h : Unnoticed F T) (hF : F m.cpu) (u : Unspecified)
    (inst : Instruction) : Carries T (executeDataMovement u inst) m := by
  unfold Carries executeDataMovement
  cases inst.opCode
  case str =>
    dsimp only
    split_ifs
    · exact h.fail .invalidInstr m
    · rw [h.write hF, h.cpu]
      exact h.finish m _
  case load =>
    dsimp only
    rw [h.fetchOperand hF]
    rcases Lucario.fetchOperand inst m with ⟨operand, n⟩
    cases operand with
    | none =>
      dsimp only
      rw [h.cpu, h.loaded]
      exact h.fail .invalidAddr _
    | some w =>
      dsimp only
      rw [h.cpu, h.loaded]
  case strrx => dsimp only; rw [h.cpu, ← h.setCpu]
  case strrb => dsimp only; rw [h.cpu, ← h.setCpu]
  case strrl => dsimp only; rw [h.cpu, ← h.setCpu]
  case strsp =>
    dsimp only
    rw [h.write hF, h.cpu]
    exact h.finish m _
  case loadrx => dsimp only; rw [h.cpu, h.loaded]
  case loadrb => dsimp only; rw [h.cpu, h.loaded]
  case loadrl => dsimp only; rw [h.cpu, h.loaded]
  case loadsp =>
    dsimp only
    rw [h.read hF, h.cpu, h.loaded]
  all_goals
    dsimp only
    rw [h.raise]

theorem Unnoticed.branching (h : Unnoticed F T) (hF : F m.cpu) (inst : Instruction) :
    Carries T (executeBranching inst) m := by
  unfold Carries executeBranching
  rw [h.read hF, h.cpu, ← h.setCpu]
  dsimp only
  split_ifs
  · rfl
  · cases readMemory m.cpu.sp m with
    | error status => exact h.fail .invalidAddr m
    | ok w =>
      dsimp only
      cases inst.opCode
      case jmpe => dsimp only; split_ifs <;> rfl
      case jmpne => dsimp only; split_ifs <;> rfl
      case jmplt => dsimp only; split_ifs <;> rfl
      case jmplgt => dsimp only; split_ifs <;> rfl
      all_goals
        dsimp only
        rw [h.raise]

theorem Unnoticed.comparison (h : Unnoticed F T) (hF : F m.cpu) (inst : Instruction) :
    Carries T (executeComparison inst) m := by
  unfold Carries executeComparison
  rw [h.fetchOperand hF]
  rcases Lucario.fetchOperand inst m with ⟨operand, n⟩
  cases operand with
  | none => rfl
  | some w =>
    dsimp only
    rw [h.cpu, ← h.setCpu]

theorem Unnoticed.stack (h : Unnoticed F T) (hF : F m.cpu) (inst : Instruction) :
    Carries T (executeStackManipulation inst) m := by
  unfold Carries executeStackManipulation
  cases inst.opCode
  case psh =>
    dsimp only
    rw [h.cpu]
    split_ifs
    · exact h.fail .invalidAddr m
    · have hF' : F { m.cpu with sp := m.cpu.sp - 1 } :=
        h.view _ m.cpu ⟨rfl, rfl, rfl⟩ hF
      rw [← h.setCpu, h.write hF']
      exact h.finish _ _
  case pop =>
    dsimp only
    rw [h.read hF, h.cpu]
    split_ifs
    · exact h.fail .invalidAddr m
    · rw [← h.setCpu, h.updateFlags]
  all_goals exact h.fail .invalidInstr m

theorem Unnoticed.returned (h : Unnoticed F T) (hF : F m.cpu) : Carries T executeReturn m := by
  unfold Carries executeReturn
  rw [h.cpu, h.read hF]
  cases readMemory m.cpu.sp m with
  | error status => exact h.fail .invalidAddr m
  | ok w =>
    dsimp only
    rw [← h.setCpu]

theorem Unnoticed.timer (h : Unnoticed F T) (hF : F m.cpu) (inst : Instruction) :
    Carries T (executeTimerInterval inst) m := by
  unfold Carries executeTimerInterval
  rw [h.fetchOperand hF]
  rcases Lucario.fetchOperand inst m with ⟨operand, n⟩
  cases operand with
  | none => rfl
  | some w =>
    dsimp only
    rw [h.cpu, ← h.setCpu]

theorem Unnoticed.changeMode (h : Unnoticed F T) (inst : Instruction) :
    Carries T (executeChangeMode inst) m := by
  unfold Carries executeChangeMode
  split_ifs
  · dsimp only
    rw [h.cpu, ← h.setCpu]
  · dsimp only
    rw [h.cpu, ← h.setCpu]
  · exact h.fail .invalidInstr m

theorem Unnoticed.interrupts (h : Unnoticed F T) (inst : Instruction) :
    Carries T (executeInterruptsChange inst) m := by
  unfold Carries executeInterruptsChange
  cases inst.opCode
  case hab => dsimp only; rw [h.cpu, ← h.setCpu]
  case dhab => dsimp only; rw [h.cpu, ← h.setCpu]
  all_goals exact h.fail .invalidInstr m

theorem Unnoticed.count (h : Unnoticed F T) (m : Machine) : countCycle (T m) = T (countCycle m) := by
  unfold countCycle
  dsimp only
  rw [h.cpu]
  split_ifs
  · rw [h.raise]
    exact congrArg (raiseInterrupt .timer) (h.setCpu m _).symm
  · exact (h.setCpu m _).symm

structure UnnoticedByDma (T : Machine → Machine) : Prop where
  dma : ∀ m, (T m).dma = m.dma
  setDma : ∀ m d, T { m with dma := d } = { T m with dma := d }

theorem UnnoticedByDma.execute (h : Unnoticed F T) (hd : UnnoticedByDma T) (hF : F m.cpu)
    (u : Unspecified) (inst : Instruction)
    (hon : inst.opCode = .sdmaon → ∀ n, dmaTransfer (T n) = T (dmaTransfer n)) :
    Carries T (executeDMAInstruction u inst) m := by
  unfold Carries executeDMAInstruction
  rw [h.fetchOperand hF]
  rcases Lucario.fetchOperand inst m with ⟨operand, n⟩
  dsimp only
  have finish : ∀ k k' : Machine, k' = T k → (if operand.isNone then failWith .invalidAddr k'
      else (InstructionStatus.success, k')) =
      ((if operand.isNone then failWith .invalidAddr k else (.success, k)).1,
        T (if operand.isNone then failWith .invalidAddr k else (.success, k)).2) := by
    rintro k k' rfl
    by_cases hnone : operand.isNone
    · simp only [hnone, if_true]
      exact h.fail .invalidAddr k
    · simp only [hnone]
      rfl
  -- the check of the operand is made before the device is touched
  have checked : ∀ (refused : Prop) [Decidable refused] (k k' : Machine), k' = T k →
      (if refused then failWith .invalidInstr (T n)
        else if operand.isNone then failWith .invalidAddr k'
        else (InstructionStatus.success, k')) =
      ((if refused then failWith .invalidInstr n
          else if operand.isNone then failWith .invalidAddr k else (.success, k)).1,
        T (if refused then failWith .invalidInstr n
          else if operand.isNone then failWith .invalidAddr k else (.success, k)).2) := by
    intro refused _ k k' hk
    by_cases hr : refused
    · rw [if_pos hr, if_pos hr]
      exact h.fail .invalidInstr n
    · rw [if_neg hr, if_neg hr]
      exact finish k k' hk
  have set : ∀ d, { T n with cpu := n.cpu, dma := d } = T { n with dma := d } := by
    intro d
    rw [hd.setDma n d, ← h.cpu n]
  rw [h.cpu, hd.dma]
  cases hop : inst.opCode
  case sdmap | sdmac | sdmas | sdmaio => exact checked _ _ _ (set _)
  case sdmam =>
    dsimp only
    generalize (if n.cpu.psw.mode = .kernel then wordToInt (operand.getD u.data)
      else n.cpu.rb + wordToInt (operand.getD u.data)) = physicalAddr
    by_cases hr : n.cpu.psw.mode ≠ .kernel ∧ n.cpu.rl < physicalAddr
    · rw [if_pos hr, if_pos hr]
      exact h.fail .invalidAddr n
    · rw [if_neg hr, if_neg hr]
      exact checked _ _ _ (set _)
  case sdmaon =>
    dsimp only
    refine finish _ _ ?_
    rw [← hon hop]
    exact congrArg dmaTransfer (set _)
  all_goals exact h.fail .invalidInstr n

def ForDma (op : OpCode) : Prop :=
  op = .sdmap ∨ op = .sdmac ∨ op = .sdmas ∨ op = .sdmaio ∨ op = .sdmam ∨ op = .sdmaon

/-- No instruction notices the change. -/
theorem Unnoticed.handler (h : Unnoticed F T) (hF : F m.cpu) (u : Unspecified)
    (inst : Instruction) (hd : ForDma inst.opCode → UnnoticedByDma T)
    (hon : inst.opCode = .sdmaon → ∀ n, dmaTransfer (T n) = T (dmaTransfer n)) :
    Carries T (Lucario.handler u inst) m := by
  have dma : ForDma inst.opCode → Carries T (executeDMAInstruction u inst) m :=
    fun hop => (hd hop).execute h hF u inst hon
  unfold Carries Lucario.handler
  cases hop : inst.opCode
  case sum | res | mult | divi => exact h.arithmetic hF inst
  case load | str | loadrx | strrx => exact h.movement hF u inst
  case loadrb | strrb | loadrl | strrl | loadsp | strsp => exact h.movement hF u inst
  case comp => exact h.comparison hF inst
  case jmpe | jmpne | jmplt | jmplgt | j => exact h.branching hF inst
  case svc => exact congrArg (Prod.mk _) (h.raise m .syscall).symm
  case retrn => exact h.returned hF
  case hab | dhab => exact h.interrupts inst
  case tti => exact h.timer hF inst
  case chmod => exact h.changeMode inst
  case psh | pop => exact h.stack hF inst
  case invalid => exact h.fail .invalidInstr m
  all_goals exact dma (by simp [ForDma, hop])

end Lucario.Proofs
