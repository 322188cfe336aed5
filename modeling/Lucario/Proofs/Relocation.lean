import Lucario.Proofs.RunsAlone

namespace Lucario.Proofs

def relocateCpu (d : Int) (c : Cpu) : Cpu := { c with rb := c.rb + d, rl := c.rl + d }

def relocate (d : Int) (m : Machine) : Machine :=
  { m with
    cpu := relocateCpu d m.cpu
    ram := fun x => m.ram (x - d) }

structure Relocatable (d : Int) (c : Cpu) : Prop where
  user : c.psw.mode = .user
  here : 0 ≤ c.rb ∧ c.rl < 2000
  there : 0 ≤ c.rb + d ∧ c.rl + d < 2000

/-- The instructions by which a program learns where it is, and the one that aims the device at an
address the limit register alone guards. -/
def Absolute (op : OpCode) : Prop := op = .loadrb ∨ op = .loadrl ∨ op = .sdmam

section

variable {d : Int} {c : Cpu} {m : Machine} {inst : Instruction} {u : Unspecified}

theorem Relocatable.of_view {c' : Cpu} (h : Relocatable d c) (hv : SameView c' c) :
    Relocatable d c' := by
  obtain ⟨hmode, hb, hl⟩ := hv
  refine ⟨hmode.trans h.user, ?_, ?_⟩
  · rw [hb, hl]
    exact h.here
  · rw [hb, hl]
    exact h.there

theorem relocated_accessible (h : Relocatable d c) (a : Int) :
    Accessible (relocateCpu d c) a ↔ Accessible c a := by
  have user : (relocateCpu d c).psw.mode = .user := h.user
  have hhere := h.here
  have hthere := h.there
  rw [accessible_user h.user, accessible_user user]
  dsimp only [relocateCpu]
  omega

theorem relocated_translate (h : Relocatable d c) (a : Int) :
    translate (relocateCpu d c) a = translate c a + d := by
  have user : (relocateCpu d c).psw.mode = .user := h.user
  rw [translate_user h.user, translate_user user]
  dsimp only [relocateCpu]
  omega

/-- What a user program is refused, the base and limit registers refuse it. -/
theorem refused_physical (h : Relocatable d c) {a : Int} (ha : ¬ Accessible c a) :
    getPhysicalAddress c a = .error .protection := by
  have hhere := h.here
  rw [accessible_user h.user] at ha
  have outside : isProtectionViolation c (translate c a) := by
    rw [translate_user h.user]
    refine ⟨by rw [h.user]; decide, ?_⟩
    omega
  exact if_pos outside

theorem relocated_physical (h : Relocatable d c) (a : Int) :
    getPhysicalAddress (relocateCpu d c) a = (getPhysicalAddress c a).map (· + d) := by
  by_cases ha : Accessible c a
  · rw [physical_of_accessible ha, physical_of_accessible ((relocated_accessible h a).mpr ha),
      relocated_translate h]
    rfl
  · have hthere : Relocatable (-d) (relocateCpu d c) := by
      refine ⟨h.user, h.there, ?_⟩
      dsimp only [relocateCpu]
      rw [Int.add_neg_cancel_right, Int.add_neg_cancel_right]
      exact h.here
    rw [refused_physical h ha, refused_physical hthere (mt (relocated_accessible h a).mp ha)]
    rfl

theorem relocated_read (h : Relocatable d m.cpu) (a : Int) :
    readMemory a (relocate d m) = readMemory a m := by
  rw [readMemory, relocate, relocated_physical h, readMemory]
  cases getPhysicalAddress m.cpu a with
  | error status => rfl
  | ok x => exact congrArg (fun y => Except.ok (m.ram y)) (Int.add_sub_cancel x d)

theorem relocated_store (x v : Int) (m : Machine) :
    storeRam (x + d) v (relocate d m) = relocate d (storeRam x v m) := by
  have words : Function.update (fun y => m.ram (y - d)) (x + d) v =
      fun y => Function.update m.ram x v (y - d) := by
    funext y
    by_cases hy : y = x + d
    · rw [hy, Function.update_self, Int.add_sub_cancel, Function.update_self]
    · rw [Function.update_of_ne hy, Function.update_of_ne (by omega)]
  unfold storeRam relocate
  dsimp only
  rw [words]

theorem relocated_write (h : Relocatable d m.cpu) (a v : Int) :
    writeMemory a v (relocate d m) = (writeMemory a v m).map (relocate d) := by
  have physical : getPhysicalAddress (relocate d m).cpu a =
      (getPhysicalAddress m.cpu a).map (· + d) := relocated_physical h a
  unfold writeMemory
  by_cases hv : isValidInstruction v
  · rw [if_neg (not_not.mpr hv), if_neg (not_not.mpr hv), physical]
    cases getPhysicalAddress m.cpu a with
    | error status => rfl
    | ok x => exact congrArg Except.ok (relocated_store x v m)
  · rw [if_pos hv, if_pos hv]
    rfl

theorem relocated_finish (m : Machine) (r : Except MemoryStatus Machine) :
    finishWrite (relocate d m) (r.map (relocate d)) =
      ((finishWrite m r).1, relocate d (finishWrite m r).2) := by
  cases r <;> rfl

theorem relocated_operand (h : Relocatable d m.cpu) (inst : Instruction) :
    fetchOperand inst (relocate d m) =
      ((fetchOperand inst m).1, relocate d (fetchOperand inst m).2) := by
  have address : calculateEffectiveAddress (relocate d m).cpu inst =
      calculateEffectiveAddress m.cpu inst := rfl
  unfold fetchOperand
  cases inst.direction with
  | immediate => rfl
  | direct | indexed =>
    dsimp only
    rw [address, relocated_read h]
    cases readMemory (calculateEffectiveAddress m.cpu inst) m <;> rfl
  | invalid => rfl

theorem relocated_overflow (v : Int) (m : Machine) :
    raiseOnOverflow v (relocate d m) = relocate d (raiseOnOverflow v m) := by
  unfold raiseOnOverflow
  rw [show (relocate d m).cpu.psw = m.cpu.psw from rfl]
  split_ifs <;> rfl

theorem relocated_arithmetic (h : Relocatable d m.cpu) :
    Carries (relocate d) (executeArithmetic inst) m := by
  unfold Carries executeArithmetic
  rw [relocated_operand h]
  rcases fetchOperand inst m with ⟨operand, n⟩
  cases operand with
  | none => rfl
  | some w =>
    have accumulator : (relocate d n).cpu.ac = n.cpu.ac := rfl
    have stored : ∀ v, storeAccumulator v (relocate d n) = relocate d (storeAccumulator v n) :=
      fun _ => rfl
    dsimp only
    rw [accumulator]
    cases inst.opCode
    case sum | res =>
      dsimp only
      rw [stored, relocated_overflow]
    case mult =>
      dsimp only
      rw [stored]
      split_ifs
      · exact congrArg (Prod.mk _) (relocated_overflow _ { storeAccumulator _ n with
          cpu.psw.conditionCode := .overflow })
      · rw [relocated_overflow]
    case divi =>
      dsimp only
      split_ifs
      · rfl
      · rw [stored, relocated_overflow]
    all_goals rfl

theorem relocated_movement (h : Relocatable d m.cpu) (hpriv : ¬ Privileged inst.opCode)
    (habs : ¬ Absolute inst.opCode) : Carries (relocate d) (executeDataMovement u inst) m := by
  have address : calculateEffectiveAddress (relocate d m).cpu inst =
      calculateEffectiveAddress m.cpu inst := rfl
  have accumulator : (relocate d m).cpu.ac = m.cpu.ac := rfl
  have top : (relocate d m).cpu.sp = m.cpu.sp := rfl
  unfold Carries executeDataMovement
  cases hop : inst.opCode
  case str =>
    dsimp only
    split_ifs
    · rfl
    · rw [address, accumulator, relocated_write h]
      exact relocated_finish m _
  case load =>
    dsimp only
    rw [relocated_operand h]
    rcases fetchOperand inst m with ⟨operand, n⟩
    cases operand <;> rfl
  case strsp =>
    dsimp only
    rw [top, accumulator, relocated_write h]
    exact relocated_finish m _
  case loadsp =>
    dsimp only
    rw [top, accumulator, relocated_read h]
    rfl
  case strrb => exact absurd (Or.inr (Or.inl hop)) hpriv
  case strrl => exact absurd (Or.inr (Or.inr hop)) hpriv
  case loadrb => exact absurd (Or.inl hop) habs
  case loadrl => exact absurd (Or.inr (Or.inl hop)) habs
  all_goals rfl

theorem relocated_branching (h : Relocatable d m.cpu) :
    Carries (relocate d) (executeBranching inst) m := by
  have top : (relocate d m).cpu.sp = m.cpu.sp := rfl
  unfold Carries executeBranching
  rw [top, relocated_read h]
  dsimp only
  split_ifs
  · rfl
  · cases readMemory m.cpu.sp m with
    | error status => rfl
    | ok w =>
      dsimp only
      cases inst.opCode
      case jmpe | jmpne | jmplt | jmplgt =>
        have accumulator : (relocate d m).cpu.ac = m.cpu.ac := rfl
        dsimp only
        rw [accumulator]
        split_ifs <;> rfl
      all_goals rfl

theorem relocated_comparison (h : Relocatable d m.cpu) :
    Carries (relocate d) (executeComparison inst) m := by
  unfold Carries executeComparison
  rw [relocated_operand h]
  rcases fetchOperand inst m with ⟨operand, n⟩
  cases operand <;> rfl

theorem relocated_timer (h : Relocatable d m.cpu) :
    Carries (relocate d) (executeTimerInterval inst) m := by
  unfold Carries executeTimerInterval
  rw [relocated_operand h]
  rcases fetchOperand inst m with ⟨operand, n⟩
  cases operand <;> rfl

theorem relocated_stack (h : Relocatable d m.cpu) :
    Carries (relocate d) (executeStackManipulation inst) m := by
  unfold Carries executeStackManipulation
  cases inst.opCode
  case psh =>
    have moved : { relocate d m with cpu.sp := (relocate d m).cpu.sp - 1 } =
        relocate d { m with cpu.sp := m.cpu.sp - 1 } := rfl
    have full : (relocate d m).cpu.sp - 1 < (relocate d m).cpu.rx ↔ m.cpu.sp - 1 < m.cpu.rx :=
      Iff.rfl
    have hdown : Relocatable d { m.cpu with sp := m.cpu.sp - 1 } := h.of_view ⟨rfl, rfl, rfl⟩
    dsimp only
    by_cases hfull : m.cpu.sp - 1 < m.cpu.rx
    · rw [if_pos hfull, if_pos (full.mpr hfull)]
      rfl
    · rw [if_neg hfull, if_neg (mt full.mp hfull), moved]
      have written := relocated_write (m := { m with cpu.sp := m.cpu.sp - 1 }) hdown
        (m.cpu.sp - 1) m.cpu.ac
      exact (congrArg (finishWrite _) written).trans (relocated_finish _ _)
  case pop =>
    have limit : (relocate d m).cpu.rl ≤ (relocate d m).cpu.sp + (relocate d m).cpu.rb ↔
        m.cpu.rl ≤ m.cpu.sp + m.cpu.rb := by
      dsimp only [relocate, relocateCpu]
      omega
    dsimp only
    by_cases hend : m.cpu.rl ≤ m.cpu.sp + m.cpu.rb
    · rw [if_pos hend, if_pos (limit.mpr hend)]
      rfl
    · rw [if_neg hend, if_neg (mt limit.mp hend), relocated_read h]
      rfl
  all_goals rfl

theorem relocated_return (h : Relocatable d m.cpu) : Carries (relocate d) executeReturn m := by
  have top : (relocate d m).cpu.sp = m.cpu.sp := rfl
  unfold Carries executeReturn
  rw [top, relocated_read h]
  cases readMemory m.cpu.sp m <;> rfl

theorem relocated_dma (h : Relocatable d m.cpu) (hon : inst.opCode ≠ .sdmaon)
    (habs : ¬ Absolute inst.opCode) : Carries (relocate d) (executeDMAInstruction u inst) m := by
  unfold Carries executeDMAInstruction
  rw [relocated_operand h]
  rcases fetchOperand inst m with ⟨operand, n⟩
  dsimp only
  cases hop : inst.opCode
  case sdmap | sdmac | sdmas | sdmaio =>
    dsimp only
    split_ifs <;> rfl
  case sdmam => exact absurd (Or.inr (Or.inr hop)) habs
  case sdmaon => exact absurd hop hon
  all_goals rfl

/-- An instruction that does not ask where its program is does the same wherever that is. -/
theorem relocated_handler (h : Relocatable d m.cpu) (hpriv : ¬ Privileged inst.opCode)
    (hon : inst.opCode ≠ .sdmaon) (habs : ¬ Absolute inst.opCode) :
    Carries (relocate d) (handler u inst) m := by
  have movement : Carries (relocate d) (executeDataMovement u inst) m :=
    relocated_movement h hpriv habs
  have device : Carries (relocate d) (executeDMAInstruction u inst) m := relocated_dma h hon habs
  unfold Carries handler
  cases hop : inst.opCode
  case sum | res | mult | divi => exact relocated_arithmetic h
  case load | str | loadrx | strrx => exact movement
  case loadrb | strrb | loadrl | strrl | loadsp | strsp => exact movement
  case comp => exact relocated_comparison h
  case jmpe | jmpne | jmplt | jmplgt | j => exact relocated_branching h
  case svc => rfl
  case retrn => exact relocated_return h
  case hab | dhab =>
    unfold executeInterruptsChange
    rw [hop]
    rfl
  case tti => exact relocated_timer h
  case chmod => exact absurd (Or.inl hop) hpriv
  case psh | pop => exact relocated_stack h
  case invalid => rfl
  all_goals exact device

theorem relocated_fetched (h : Relocatable d m.cpu) :
    fetched (relocate d m) = (fetched m).map (fun x => (x.1, relocate d x.2)) := by
  have loaded := relocated_read (m := { m with cpu.mar := m.cpu.psw.pc })
    (h.of_view ⟨rfl, rfl, rfl⟩) m.cpu.psw.pc
  have moved : { relocate d m with cpu.mar := (relocate d m).cpu.psw.pc } =
      relocate d { m with cpu.mar := m.cpu.psw.pc } := rfl
  unfold fetched fetch
  dsimp only
  rw [moved]
  dsimp only [relocate, relocateCpu] at loaded ⊢
  rw [loaded]
  cases readMemory m.cpu.psw.pc { m with cpu.mar := m.cpu.psw.pc } <;> rfl

end

end Lucario.Proofs
