import Lucario.Proofs.BlockingIo
import Lucario.Proofs.ExactArithmetic

namespace Lucario.Proofs

/-- Machines that a program can tell apart by the words outside of `P` only. -/
structure Agree (P : Set Int) (m m' : Machine) : Prop where
  cpu : ProgramKept m'.cpu m.cpu
  ram : ∀ x ∈ P, m'.ram x = m.ram x

abbrev Agrees (P : Set Int) (r r' : InstructionStatus × Machine) : Prop :=
  r'.1 = r.1 ∧ Agree P r.2 r'.2

def FetchesOperand (op : OpCode) : Prop :=
  IsArithmetic op ∨ op = .load ∨ op = .comp ∨ op = .tti ∨ ForDma op

def OperandIn (P : Set Int) (inst : Instruction) (c : Cpu) : Prop :=
  FetchesOperand inst.opCode → inst.direction = .direct ∨ inst.direction = .indexed →
    Accessible c (calculateEffectiveAddress c inst) →
      translate c (calculateEffectiveAddress c inst) ∈ P

section

variable {P : Set Int} {m m' : Machine} {inst : Instruction} {u : Unspecified}

theorem Agree.refl (P : Set Int) (m : Machine) : Agree P m m := ⟨ProgramKept.refl _, fun _ _ => rfl⟩

theorem Agree.mono {Q : Set Int} (h : Agree P m m') (hQ : Q ⊆ P) : Agree Q m m' :=
  ⟨h.cpu, fun x hx => h.ram x (hQ hx)⟩

theorem Agree.setCpu {c c' : Cpu} (h : Agree P m m') (hc : ProgramKept c' c) :
    Agree P { m with cpu := c } { m' with cpu := c' } := ⟨hc, h.ram⟩

theorem Agree.raise (h : Agree P m m') (code : InterruptCode) :
    Agree P (raiseInterrupt code m) (raiseInterrupt code m') := ⟨h.cpu, h.ram⟩

theorem Agree.fail (h : Agree P m m') (code : InterruptCode) :
    Agrees P (failWith code m) (failWith code m') := ⟨rfl, h.raise code⟩

theorem ProgramKept.psw_set {c d : Cpu} (h : ProgramKept c d) (f : Psw → Psw) :
    ProgramKept { c with psw := f c.psw } { d with psw := f d.psw } :=
  ⟨h.ac, congrArg f h.psw, h.rb, h.rl, h.rx, h.sp⟩

theorem ProgramKept.ac_set {c d : Cpu} (h : ProgramKept c d) (ac : Int) :
    ProgramKept { c with ac := ac } { d with ac := ac } :=
  ⟨rfl, h.psw, h.rb, h.rl, h.rx, h.sp⟩

theorem ProgramKept.sp_set {c d : Cpu} (h : ProgramKept c d) (sp : Int) :
    ProgramKept { c with sp := sp } { d with sp := sp } :=
  ⟨h.ac, h.psw, h.rb, h.rl, h.rx, rfl⟩

theorem ProgramKept.address {c d : Cpu} (h : ProgramKept c d) (inst : Instruction) :
    calculateEffectiveAddress c inst = calculateEffectiveAddress d inst := by
  rw [calculateEffectiveAddress, h.ac, calculateEffectiveAddress]

/-- A word in `P` is read the same on both machines, and so is a refusal to read. -/
theorem Agree.read (h : Agree P m m') {a : Int}
    (ha : Accessible m.cpu a → translate m.cpu a ∈ P) : readMemory a m' = readMemory a m := by
  rw [readMemory, readMemory, physical_congr h.cpu.view]
  by_cases hacc : Accessible m.cpu a
  · rw [physical_of_accessible hacc]
    exact congrArg Except.ok (h.ram _ (ha hacc))
  · obtain ⟨status, hs⟩ := physical_of_inaccessible hacc
    rw [hs]
    rfl

theorem Agree.store (h : Agree P m m') {x x' v v' : Int} (hx : x' = x) (hv : v' = v) :
    Agree (insert x P) (storeRam x v m) (storeRam x' v' m') := by
  rw [hx, hv]
  refine ⟨h.cpu, fun y hy => ?_⟩
  by_cases hxy : y = x
  · simp [storeRam, hxy]
  · simp only [storeRam, Function.update_of_ne hxy]
    exact h.ram y (hy.resolve_left hxy)

/-- A store goes through on both machines or on neither. -/
theorem Agree.write (h : Agree P m m') (a v : Int) :
    Agrees P (finishWrite m (writeMemory a v m)) (finishWrite m' (writeMemory a v m')) := by
  by_cases hw : Accessible m.cpu a ∧ isValidInstruction v
  · rw [write_accessible hw.1 hw.2,
      write_accessible ((accessible_congr h.cpu.view a).mpr hw.1) hw.2, translate_congr h.cpu.view]
    exact ⟨rfl, (h.store rfl rfl).mono (Set.subset_insert _ _)⟩
  · obtain ⟨status, hs⟩ := write_refused hw
    have hw' : ¬ (Accessible m'.cpu a ∧ isValidInstruction v) := by
      rwa [accessible_congr h.cpu.view]
    obtain ⟨status', hs'⟩ := write_refused hw'
    rw [hs, hs']
    exact h.fail .invalidAddr

theorem Agree.written (h : Agree P m m') {a a' v v' : Int} (ha : a' = a) (hv : v' = v) :
    Agrees P (finishWrite m (writeMemory a v m)) (finishWrite m' (writeMemory a' v' m')) := by
  rw [ha, hv]
  exact h.write a v

theorem Agree.operand (h : Agree P m m') (hop : FetchesOperand inst.opCode)
    (hin : OperandIn P inst m.cpu) :
    (fetchOperand inst m').1 = (fetchOperand inst m).1 ∧
      Agree P (fetchOperand inst m).2 (fetchOperand inst m').2 := by
  unfold fetchOperand
  have hread := fun hd => h.read (hin hop hd)
  cases hd : inst.direction with
  | immediate => exact ⟨rfl, h.setCpu (h.cpu.psw_set (fun p => { p with conditionCode := _ }))⟩
  | direct | indexed =>
    dsimp only
    rw [h.cpu.address, hread (by simp [hd])]
    cases readMemory (calculateEffectiveAddress m.cpu inst) m with
    | ok w => exact ⟨rfl, h⟩
    | error status => exact ⟨rfl, h.raise .invalidAddr⟩
  | invalid => exact ⟨rfl, h.raise .invalidInstr⟩

theorem Agree.flags (h : Agree P m m') (cc : ConditionCode) :
    Agree P { m with cpu.psw.conditionCode := cc } { m' with cpu.psw.conditionCode := cc } :=
  h.setCpu (h.cpu.psw_set (fun p => { p with conditionCode := cc }))

theorem Agree.compared (h : Agree P m m') {cc cc' : ConditionCode} (hcc : cc' = cc) :
    Agree P { m with cpu.psw.conditionCode := cc } { m' with cpu.psw.conditionCode := cc' } := by
  rw [hcc]
  exact h.flags cc

theorem Agree.accumulator (h : Agree P m m') (v : Int) :
    Agree P (storeAccumulator v m) (storeAccumulator v m') :=
  (h.setCpu (h.cpu.ac_set (intToWord v).1)).flags (intToWord v).2

theorem Agree.overflow (h : Agree P m m') (v : Int) :
    Agree P (raiseOnOverflow v m) (raiseOnOverflow v m') := by
  unfold raiseOnOverflow
  rw [h.cpu.psw]
  split_ifs
  · exact ⟨h.cpu, h.ram⟩
  · exact h

theorem Agree.updateFlags (h : Agree P m m') : Agree P (updatePSWFlags m) (updatePSWFlags m') := by
  unfold updatePSWFlags
  rw [h.cpu.ac]
  exact h.flags _

theorem Agree.loaded (h : Agree P m m') {ac ac' : Int} (hac : ac' = ac) :
    Agree P (updatePSWFlags { m with cpu.ac := ac }) (updatePSWFlags { m' with cpu.ac := ac' }) := by
  rw [hac]
  exact (h.setCpu (h.cpu.ac_set ac)).updateFlags

theorem Agree.arithmetic (h : Agree P m m') (hop : FetchesOperand inst.opCode)
    (hin : OperandIn P inst m.cpu) :
    Agrees P (executeArithmetic inst m) (executeArithmetic inst m') := by
  obtain ⟨hword, hrest⟩ := h.operand hop hin
  unfold executeArithmetic
  generalize fetchOperand inst m = r at hword hrest
  generalize fetchOperand inst m' = r' at hword hrest
  obtain ⟨operand, n⟩ := r
  obtain ⟨operand', n'⟩ := r'
  obtain rfl : operand' = operand := hword
  cases operand' with
  | none => exact ⟨rfl, hrest⟩
  | some w =>
    have hac : n'.cpu.ac = n.cpu.ac := hrest.cpu.ac
    dsimp only at hrest ⊢
    rw [hac]
    cases inst.opCode
    case sum => exact ⟨rfl, (hrest.accumulator _).overflow _⟩
    case res => exact ⟨rfl, (hrest.accumulator _).overflow _⟩
    case mult =>
      refine ⟨rfl, ?_⟩
      dsimp only
      split_ifs
      · exact ((hrest.accumulator _).flags .overflow).overflow _
      · exact (hrest.accumulator _).overflow _
    case divi =>
      dsimp only
      split_ifs
      · exact ⟨rfl, (hrest.raise .invalidInstr).flags .overflow⟩
      · exact ⟨rfl, (hrest.accumulator _).overflow _⟩
    all_goals exact hrest.fail .invalidInstr

theorem Agree.movement (h : Agree P m m')
    (hin : OperandIn P inst m.cpu) (hsp : Accessible m.cpu m.cpu.sp → translate m.cpu m.cpu.sp ∈ P) :
    Agrees P (executeDataMovement u inst m) (executeDataMovement u inst m') := by
  have hac : m'.cpu.ac = m.cpu.ac := h.cpu.ac
  have hspeq : m'.cpu.sp = m.cpu.sp := h.cpu.sp
  unfold executeDataMovement
  cases hop : inst.opCode
  case str =>
    dsimp only
    rw [h.cpu.address, hac]
    split_ifs
    · exact h.fail .invalidInstr
    · exact h.write _ _
  case load =>
    obtain ⟨hword, hrest⟩ := h.operand (Or.inr (Or.inl hop)) hin
    dsimp only
    generalize fetchOperand inst m = r at hword hrest
    generalize fetchOperand inst m' = r' at hword hrest
    obtain ⟨operand, n⟩ := r
    obtain ⟨operand', n'⟩ := r'
    obtain rfl : operand' = operand := hword
    cases operand' with
    | none => exact (hrest.loaded rfl).fail .invalidAddr
    | some w => exact ⟨rfl, hrest.loaded rfl⟩
  case strrx =>
    refine ⟨rfl, h.setCpu ?_⟩
    rw [hac]
    exact ⟨h.cpu.ac, h.cpu.psw, h.cpu.rb, h.cpu.rl, rfl, h.cpu.sp⟩
  case strrb =>
    refine ⟨rfl, h.setCpu ?_⟩
    rw [hac]
    exact ⟨h.cpu.ac, h.cpu.psw, rfl, h.cpu.rl, h.cpu.rx, h.cpu.sp⟩
  case strrl =>
    refine ⟨rfl, h.setCpu ?_⟩
    rw [hac]
    exact ⟨h.cpu.ac, h.cpu.psw, h.cpu.rb, rfl, h.cpu.rx, h.cpu.sp⟩
  case strsp =>
    dsimp only
    rw [hspeq, hac]
    exact h.write _ _
  case loadrx => exact ⟨rfl, h.loaded h.cpu.rx⟩
  case loadrb => exact ⟨rfl, h.loaded h.cpu.rb⟩
  case loadrl => exact ⟨rfl, h.loaded h.cpu.rl⟩
  case loadsp =>
    refine ⟨rfl, h.loaded ?_⟩
    rw [hspeq, h.read hsp, hac]
  all_goals exact ⟨rfl, h.raise .invalidInstr⟩

theorem Agree.branching (h : Agree P m m')
    (hsp : Accessible m.cpu m.cpu.sp → translate m.cpu m.cpu.sp ∈ P) :
    Agrees P (executeBranching inst m) (executeBranching inst m') := by
  have taken := h.setCpu (h.cpu.psw_set
    (fun p => { p with pc := calculateEffectiveAddress m.cpu inst }))
  unfold executeBranching
  rw [h.cpu.address, h.cpu.sp, h.read hsp, h.cpu.ac]
  dsimp only
  split_ifs
  · exact ⟨rfl, taken⟩
  · cases readMemory m.cpu.sp m with
    | error status => exact h.fail .invalidAddr
    | ok w =>
      dsimp only
      have either : ∀ (p : Prop) [Decidable p], Agree P
          (if p then { m with cpu.psw.pc := calculateEffectiveAddress m.cpu inst } else m)
          (if p then { m' with cpu.psw.pc := calculateEffectiveAddress m.cpu inst } else m') := by
        intro p _
        split_ifs
        · exact taken
        · exact h
      cases inst.opCode
      case jmpe | jmpne | jmplt | jmplgt => exact ⟨rfl, either _⟩
      all_goals exact ⟨rfl, h.raise .invalidInstr⟩

theorem Agree.comparison (h : Agree P m m') (hop : inst.opCode = .comp)
    (hin : OperandIn P inst m.cpu) :
    Agrees P (executeComparison inst m) (executeComparison inst m') := by
  obtain ⟨hword, hrest⟩ := h.operand (Or.inr (Or.inr (Or.inl hop))) hin
  unfold executeComparison
  generalize fetchOperand inst m = r at hword hrest
  generalize fetchOperand inst m' = r' at hword hrest
  obtain ⟨operand, n⟩ := r
  obtain ⟨operand', n'⟩ := r'
  obtain rfl : operand' = operand := hword
  cases operand' with
  | none => exact ⟨rfl, hrest⟩
  | some w =>
    have hac : n'.cpu.ac = n.cpu.ac := hrest.cpu.ac
    exact ⟨rfl, hrest.compared (by rw [hac])⟩

theorem Agree.timer (h : Agree P m m') (hop : inst.opCode = .tti)
    (hin : OperandIn P inst m.cpu) :
    Agrees P (executeTimerInterval inst m) (executeTimerInterval inst m') := by
  obtain ⟨hword, hrest⟩ := h.operand (Or.inr (Or.inr (Or.inr (Or.inl hop)))) hin
  unfold executeTimerInterval
  generalize fetchOperand inst m = r at hword hrest
  generalize fetchOperand inst m' = r' at hword hrest
  obtain ⟨operand, n⟩ := r
  obtain ⟨operand', n'⟩ := r'
  obtain rfl : operand' = operand := hword
  cases operand' with
  | none => exact ⟨rfl, hrest⟩
  | some w => exact ⟨rfl, hrest.setCpu ⟨hrest.cpu.ac, hrest.cpu.psw, hrest.cpu.rb, hrest.cpu.rl,
      hrest.cpu.rx, hrest.cpu.sp⟩⟩

theorem Agree.stack (h : Agree P m m')
    (hsp : Accessible m.cpu m.cpu.sp → translate m.cpu m.cpu.sp ∈ P) :
    Agrees P (executeStackManipulation inst m) (executeStackManipulation inst m') := by
  have hac : m'.cpu.ac = m.cpu.ac := h.cpu.ac
  have hspeq : m'.cpu.sp = m.cpu.sp := h.cpu.sp
  unfold executeStackManipulation
  cases inst.opCode
  case psh =>
    dsimp only
    have hguard : m'.cpu.sp - 1 < m'.cpu.rx ↔ m.cpu.sp - 1 < m.cpu.rx := by rw [hspeq, h.cpu.rx]
    have hdown : ProgramKept { m'.cpu with sp := m'.cpu.sp - 1 } { m.cpu with sp := m.cpu.sp - 1 } :=
      ⟨h.cpu.ac, h.cpu.psw, h.cpu.rb, h.cpu.rl, h.cpu.rx, congrArg (· - 1) hspeq⟩
    by_cases hfull : m.cpu.sp - 1 < m.cpu.rx
    · rw [if_pos hfull, if_pos (hguard.mpr hfull)]
      exact h.fail .invalidAddr
    · rw [if_neg hfull, if_neg (mt hguard.mp hfull)]
      exact (h.setCpu hdown).written (congrArg (· - 1) hspeq) hac
  case pop =>
    have hlimit : m'.cpu.rl ≤ m'.cpu.sp + m'.cpu.rb ↔ m.cpu.rl ≤ m.cpu.sp + m.cpu.rb := by
      rw [hspeq, h.cpu.rl, h.cpu.rb]
    dsimp only
    by_cases hend : m.cpu.rl ≤ m.cpu.sp + m.cpu.rb
    · rw [if_pos hend, if_pos (hlimit.mpr hend)]
      exact h.fail .invalidAddr
    · rw [if_neg hend, if_neg (mt hlimit.mp hend), hspeq, h.read hsp, hac]
      exact ⟨rfl, (h.setCpu (h.cpu.sp_set (m.cpu.sp + 1))).loaded rfl⟩
  all_goals exact h.fail .invalidInstr

theorem Agree.returned (h : Agree P m m')
    (hsp : Accessible m.cpu m.cpu.sp → translate m.cpu m.cpu.sp ∈ P) :
    Agrees P (executeReturn m) (executeReturn m') := by
  unfold executeReturn
  rw [h.cpu.sp, h.read hsp]
  cases readMemory m.cpu.sp m with
  | error status => exact h.fail .invalidAddr
  | ok w => exact ⟨rfl, (h.setCpu (h.cpu.sp_set (m.cpu.sp + 1))).setCpu
      ((h.cpu.sp_set (m.cpu.sp + 1)).psw_set (fun p => { p with pc := wordToInt w }))⟩

theorem Agree.changeMode (h : Agree P m m') :
    Agrees P (executeChangeMode inst m) (executeChangeMode inst m') := by
  unfold executeChangeMode
  split_ifs
  · exact ⟨rfl, h.setCpu (h.cpu.psw_set (fun p => { p with mode := .user }))⟩
  · exact ⟨rfl, h.setCpu (h.cpu.psw_set (fun p => { p with mode := .kernel }))⟩
  · exact h.fail .invalidInstr

theorem Agree.interrupts (h : Agree P m m') :
    Agrees P (executeInterruptsChange inst m) (executeInterruptsChange inst m') := by
  unfold executeInterruptsChange
  cases inst.opCode
  case hab => exact ⟨rfl, h.setCpu (h.cpu.psw_set (fun p => { p with interruptEnable := .enabled }))⟩
  case dhab =>
    exact ⟨rfl, h.setCpu (h.cpu.psw_set (fun p => { p with interruptEnable := .disabled }))⟩
  all_goals exact h.fail .invalidInstr

theorem Agree.device (h : Agree P m m') (d d' : Dma) :
    Agree P { m with dma := d } { m' with dma := d' } := ⟨h.cpu, h.ram⟩

theorem Agree.dma (h : Agree P m m') (hop : ForDma inst.opCode) (hon : inst.opCode ≠ .sdmaon)
    (hin : OperandIn P inst m.cpu) :
    Agrees P (executeDMAInstruction u inst m) (executeDMAInstruction u inst m') := by
  obtain ⟨hword, hrest⟩ := h.operand (Or.inr (Or.inr (Or.inr (Or.inr hop)))) hin
  unfold executeDMAInstruction
  generalize fetchOperand inst m = r at hword hrest
  generalize fetchOperand inst m' = r' at hword hrest
  obtain ⟨operand, n⟩ := r
  obtain ⟨operand', n'⟩ := r'
  obtain rfl : operand' = operand := hword
  have hview := hrest.cpu.view
  dsimp only at hrest hview ⊢
  rcases hop with ho | ho | ho | ho | ho | ho <;> simp only [ho]
  case inr.inr.inr.inr.inl =>
    rw [hview.1, hview.2.1, hview.2.2]
    split_ifs <;> first | exact (hrest.device _ _).fail _ | exact ⟨rfl, hrest.device _ _⟩
  case inr.inr.inr.inr.inr => exact absurd ho hon
  all_goals split_ifs <;> first | exact (hrest.device _ _).fail _ | exact ⟨rfl, hrest.device _ _⟩

/-- Every instruction but a transfer does the same to two machines that agree where it looks. -/
theorem Agree.handler (h : Agree P m m') (hon : inst.opCode ≠ .sdmaon)
    (hin : OperandIn P inst m.cpu) (hsp : Accessible m.cpu m.cpu.sp → translate m.cpu m.cpu.sp ∈ P) :
    Agrees P (Lucario.handler u inst m) (Lucario.handler u inst m') := by
  unfold Lucario.handler
  cases hop : inst.opCode
  case sum | res | mult | divi => exact h.arithmetic (Or.inl (by simp [IsArithmetic, hop])) hin
  case load | str | loadrx | strrx => exact h.movement hin hsp
  case loadrb | strrb | loadrl | strrl | loadsp | strsp => exact h.movement hin hsp
  case comp => exact h.comparison hop hin
  case jmpe | jmpne | jmplt | jmplgt | j => exact h.branching hsp
  case svc => exact ⟨rfl, h.raise .syscall⟩
  case retrn => exact h.returned hsp
  case hab | dhab => exact h.interrupts
  case tti => exact h.timer hop hin
  case chmod => exact h.changeMode
  case psh | pop => exact h.stack hsp
  case invalid => exact h.fail .invalidInstr
  case sdmaon => exact absurd hop hon
  all_goals exact h.dma (by simp [ForDma, hop]) hon hin

/-- The word a PSH pushes is the same on both. -/
theorem Agree.pushed (h : Agree P m m') (hop : inst.opCode = .psh)
    (hs : (Lucario.handler u inst m).1 = .success) :
    Agree (insert (translate m.cpu (m.cpu.sp - 1)) P) (Lucario.handler u inst m).2
      (Lucario.handler u inst m').2 := by
  have pushes : ∀ n : Machine, Lucario.handler u inst n =
      if n.cpu.sp - 1 < n.cpu.rx then failWith .invalidAddr n
      else finishWrite { n with cpu.sp := n.cpu.sp - 1 }
        (writeMemory (n.cpu.sp - 1) n.cpu.ac { n with cpu.sp := n.cpu.sp - 1 }) := by
    intro n
    unfold Lucario.handler executeStackManipulation
    rw [hop]
  have hguard : m'.cpu.sp - 1 < m'.cpu.rx ↔ m.cpu.sp - 1 < m.cpu.rx := by
    rw [h.cpu.sp, h.cpu.rx]
  rw [pushes m] at hs ⊢
  rw [pushes m']
  by_cases hfull : m.cpu.sp - 1 < m.cpu.rx
  · rw [if_pos hfull] at hs
    cases hs
  · rw [if_neg hfull] at hs ⊢
    rw [if_neg (mt hguard.mp hfull)]
    have moved : ProgramKept { m'.cpu with sp := m'.cpu.sp - 1 }
        { m.cpu with sp := m.cpu.sp - 1 } :=
      ⟨h.cpu.ac, h.cpu.psw, h.cpu.rb, h.cpu.rl, h.cpu.rx, congrArg (· - 1) h.cpu.sp⟩
    by_cases hw : Accessible { m.cpu with sp := m.cpu.sp - 1 } (m.cpu.sp - 1) ∧
        isValidInstruction m.cpu.ac
    · have hw' : Accessible { m'.cpu with sp := m'.cpu.sp - 1 } (m'.cpu.sp - 1) ∧
          isValidInstruction m'.cpu.ac := by
        rw [accessible_congr moved.view, h.cpu.sp, h.cpu.ac]
        exact hw
      rw [write_accessible (m := { m with cpu.sp := m.cpu.sp - 1 }) hw.1 hw.2,
        write_accessible (m := { m' with cpu.sp := m'.cpu.sp - 1 }) hw'.1 hw'.2]
      have place : translate { m'.cpu with sp := m'.cpu.sp - 1 } (m'.cpu.sp - 1) =
          translate m.cpu (m.cpu.sp - 1) := by
        rw [translate_congr moved.view, h.cpu.sp]
        rfl
      exact (h.setCpu moved).store place h.cpu.ac
    · obtain ⟨status, he⟩ := write_refused (m := { m with cpu.sp := m.cpu.sp - 1 }) hw
      rw [he] at hs
      cases hs

end

end Lucario.Proofs
