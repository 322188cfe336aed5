import Lucario.Proofs.Operands
import Lucario.Proofs.Sessions

namespace Lucario.Proofs

/-- Pending interrupts and the condition code may differ, nothing else. -/
structure Untouched (m n : Machine) : Prop where
  cpu : n.cpu = { m.cpu with psw.conditionCode := n.cpu.psw.conditionCode }
  ram : n.ram = m.ram
  disk : n.disk = m.disk
  dma : n.dma = m.dma
  interruptValue : n.interruptValue = m.interruptValue

def FailsClean (m : Machine) (r : CpuStatus × Machine) : Prop := r.1 = .stop → Untouched m r.2

/-- The device is as a transfer leaves it, and the transfer moves a word onto itself. -/
def TransferIdle (m : Machine) : Prop :=
  m.dma.active = false ∧ m.dma.pending = false ∧
    if isPhysicalAddressValid m.dma.memAddr then
      m.dma.status = 0 ∧ m.ram m.dma.memAddr = m.disk m.dma.track m.dma.cylinder m.dma.sector
    else m.dma.status = 1

/-- The failing instruction does not get to the update it makes too early: LOAD and the DMA
instructions use an operand that could not be fetched, PSH moves the stack pointer before its
store is refused. -/
def FailureHarmless (u : Unspecified) (inst : Instruction) (m : Machine) : Prop :=
  match inst.opCode with
  | .load => operandWord inst m = none → u.data = m.cpu.ac
  | .psh => m.cpu.rx ≤ m.cpu.sp - 1 →
      Accessible m.cpu (m.cpu.sp - 1) ∧ isValidInstruction m.cpu.ac
  | .sdmap | .sdmac | .sdmas | .sdmaio | .sdmam => operandWord inst m = none →
      ¬ OutOfRange m.cpu (wordToInt u.data) inst.opCode →
      ¬ BehindLimit m.cpu (wordToInt u.data) inst.opCode →
      programmed m.cpu (wordToInt u.data) m.dma inst.opCode = m.dma
  | .sdmaon => operandWord inst m = none → TransferIdle m
  | _ => True

section

variable {u : Unspecified} {inst : Instruction} {m n : Machine}

def Clean (m : Machine) (r : InstructionStatus × Machine) : Prop :=
  r.1 = .fail → Untouched m r.2

theorem execute_clean (u : Unspecified) (inst : Instruction) (m : Machine) :
    FailsClean m (execute u inst m) ↔ Clean m (handler u inst m) := by
  unfold FailsClean Clean execute
  cases h : (handler u inst m).1 <;> simp [h, checkStatus]

theorem Untouched.refl (m : Machine) : Untouched m m := ⟨rfl, rfl, rfl, rfl, rfl⟩

theorem Untouched.raise (h : Untouched m n) (code : InterruptCode) :
    Untouched m (raiseInterrupt code n) := ⟨h.cpu, h.ram, h.disk, h.dma, h.interruptValue⟩

theorem Untouched.flagged (h : Untouched m n) (cc : ConditionCode) :
    Untouched m { n with cpu.psw.conditionCode := cc } := by
  refine ⟨?_, h.ram, h.disk, h.dma, h.interruptValue⟩
  rw [h.cpu]

theorem Untouched.ac (h : Untouched m n) : n.cpu.ac = m.cpu.ac := by rw [h.cpu]

theorem Untouched.sp (h : Untouched m n) : n.cpu.sp = m.cpu.sp := by rw [h.cpu]

theorem Clean.done : Clean m (.success, n) := nofun

theorem Clean.failed (code : InterruptCode) : Clean m (failWith code m) :=
  fun _ => (Untouched.refl m).raise code

theorem clean_fail {code : InterruptCode} : Clean m (failWith code n) ↔ Untouched m n := by
  constructor
  · intro h
    obtain ⟨hcpu, hram, hdisk, hdma, hvalue⟩ := h rfl
    exact ⟨hcpu, hram, hdisk, hdma, hvalue⟩
  · exact fun h _ => h.raise code

theorem fetch_untouched (inst : Instruction) (m : Machine) :
    Untouched m (fetchOperand inst m).2 := by
  cases h : operandWord inst m with
  | none =>
    rw [fetch_of_no_operand h]
    exact (Untouched.refl m).raise _
  | some w =>
    rw [fetch_of_operand h]
    exact (Untouched.refl m).flagged _

theorem arithmetic_clean : Clean m (executeArithmetic inst m) := by
  have fetched := fetch_untouched inst m
  unfold executeArithmetic
  generalize fetchOperand inst m = f at fetched ⊢
  obtain ⟨operand, n⟩ := f
  cases operand with
  | none => exact fun _ => fetched
  | some w =>
    dsimp only at fetched ⊢
    cases inst.opCode
    case sum | res | mult => exact .done
    case divi =>
      dsimp only
      split_ifs
      · exact fun _ => (fetched.raise .invalidInstr).flagged .overflow
      · exact .done
    all_goals exact fun _ => fetched.raise _

theorem comparison_clean : Clean m (executeComparison inst m) := by
  have fetched := fetch_untouched inst m
  unfold executeComparison
  generalize fetchOperand inst m = f at fetched ⊢
  obtain ⟨operand, n⟩ := f
  cases operand with
  | none => exact fun _ => fetched
  | some w => exact .done

theorem timer_clean : Clean m (executeTimerInterval inst m) := by
  have fetched := fetch_untouched inst m
  unfold executeTimerInterval
  generalize fetchOperand inst m = f at fetched ⊢
  obtain ⟨operand, n⟩ := f
  cases operand with
  | none => exact fun _ => fetched
  | some w => exact .done

theorem write_clean (a v : Int) : Clean m (finishWrite m (writeMemory a v m)) := by
  by_cases hw : Accessible m.cpu a ∧ isValidInstruction v
  · rw [write_accessible hw.1 hw.2]
    exact .done
  · obtain ⟨status, hs⟩ := write_refused hw
    rw [hs]
    exact .failed _

theorem movement_clean (hload : inst.opCode ≠ .load) : Clean m (executeDataMovement u inst m) := by
  unfold executeDataMovement
  cases hop : inst.opCode
  case load => exact absurd hop hload
  case str =>
    dsimp only
    split_ifs
    · exact .failed _
    · exact write_clean _ _
  case strsp => exact write_clean _ _
  all_goals exact .done

theorem branching_clean : Clean m (executeBranching inst m) := by
  unfold executeBranching
  dsimp only
  split_ifs
  · exact .done
  · cases readMemory m.cpu.sp m with
    | error status => exact .failed _
    | ok w => cases inst.opCode <;> exact .done

theorem return_clean : Clean m (executeReturn m) := by
  unfold executeReturn
  cases readMemory m.cpu.sp m with
  | error status => exact .failed _
  | ok w => exact .done

theorem change_mode_clean : Clean m (executeChangeMode inst m) := by
  unfold executeChangeMode
  split_ifs
  · exact .done
  · exact .done
  · exact .failed _

/-- LOAD stores its operand into AC before it looks whether there is one. -/
theorem load_clean (hop : inst.opCode = .load) :
    Clean m (executeDataMovement u inst m) ↔ (operandWord inst m = none → u.data = m.cpu.ac) := by
  unfold executeDataMovement
  rw [hop]
  cases h : operandWord inst m with
  | some w =>
    rw [fetch_of_operand h]
    exact iff_of_true .done nofun
  | none =>
    rw [fetch_of_no_operand h]
    dsimp only
    rw [clean_fail]
    constructor
    · exact fun hu _ => hu.ac
    · intro hu
      rw [hu rfl]
      exact ((Untouched.refl m).raise _).flagged _

/-- PSH moves the stack pointer before its store can be refused. -/
theorem push_clean (hop : inst.opCode = .psh) :
    Clean m (executeStackManipulation inst m) ↔ (m.cpu.rx ≤ m.cpu.sp - 1 →
      Accessible m.cpu (m.cpu.sp - 1) ∧ isValidInstruction m.cpu.ac) := by
  unfold executeStackManipulation
  rw [hop]
  dsimp only
  split_ifs with hrx
  · exact iff_of_true (.failed _) (fun h => absurd hrx (not_lt.mpr h))
  · by_cases hw : Accessible m.cpu (m.cpu.sp - 1) ∧ isValidInstruction m.cpu.ac
    · rw [write_accessible (m := { m with cpu.sp := m.cpu.sp - 1 }) hw.1 hw.2]
      exact iff_of_true .done (fun _ => hw)
    · obtain ⟨status, hs⟩ := write_refused (m := { m with cpu.sp := m.cpu.sp - 1 }) hw
      rw [hs]
      refine iff_of_false ?_ (fun h => hw (h (not_lt.mp hrx)))
      intro hclean
      have hsp : m.cpu.sp - 1 = m.cpu.sp := (hclean rfl).sp
      omega

theorem pop_clean (hop : inst.opCode = .pop) : Clean m (executeStackManipulation inst m) := by
  unfold executeStackManipulation
  rw [hop]
  dsimp only
  split_ifs
  · exact .failed _
  · exact .done

theorem settled_eq (status : Nat) (d : Dma) :
    settled status { d with pending := true } = d ↔
      d.active = false ∧ d.pending = false ∧ d.status = status := by
  obtain ⟨track, cylinder, sector, direction, address, old, active, pending⟩ := d
  simp [settled]
  tauto

theorem store_sector_eq (t c s : Nat) (v : Int) (m : Machine) :
    (storeSector t c s v m).disk = m.disk ↔ v = m.disk t c s := by
  constructor
  · intro h
    rw [← congrFun (congrFun (congrFun h t) c) s]
    simp [storeSector]
  · rintro rfl
    funext t' c' s'
    simp only [storeSector]
    split_ifs with h
    · rw [h.1, h.2.1, h.2.2]
    · rfl

/-- Whether a change to memory and the device is one. -/
theorem untouched_iff (hm : Untouched m n) (d : Dma) (ram : Int → Int)
    (disk : Nat → Nat → Nat → Int) (code : InterruptCode) :
    Untouched m (raiseInterrupt code { n with dma := d, ram := ram, disk := disk }) ↔
      ram = m.ram ∧ disk = m.disk ∧ d = m.dma := by
  constructor
  · intro h
    exact ⟨h.ram, h.disk, h.dma⟩
  · rintro ⟨hram, hdisk, hdma⟩
    exact ⟨hm.cpu, hram, hdisk, hdma, hm.interruptValue⟩

/-- A transfer leaves no trace only when the device is idle and the words it moves agree. -/
theorem transfer_untouched (hm : Untouched m n) :
    Untouched m (dmaTransfer { n with dma.pending := true }) ↔ TransferIdle m := by
  have idle := fun status => settled_eq status m.dma
  have sector := fun v => store_sector_eq m.dma.track m.dma.cylinder m.dma.sector v m
  rw [dma_transfer_eq]
  unfold TransferIdle
  dsimp only
  rw [hm.dma, hm.ram, hm.disk]
  split_ifs with hv hd
  · refine (untouched_iff hm _ m.ram (storeSector m.dma.track m.dma.cylinder m.dma.sector
      (m.ram m.dma.memAddr) m).disk _).trans ?_
    rw [sector, idle]
    tauto
  · refine (untouched_iff hm _ (Function.update m.ram m.dma.memAddr
      (m.disk m.dma.track m.dma.cylinder m.dma.sector)) m.disk _).trans ?_
    rw [Function.update_eq_self_iff, idle]
    constructor
    · rintro ⟨hword, -, ha, hp, hs⟩
      exact ⟨ha, hp, hs, hword.symm⟩
    · rintro ⟨ha, hp, hs, hword⟩
      exact ⟨hword.symm, rfl, ha, hp, hs⟩
  · refine (untouched_iff hm _ m.ram m.disk _).trans ?_
    rw [idle]
    tauto

theorem harmless_dma (hop : ForDma inst.opCode) :
    FailureHarmless u inst m ↔ (operandWord inst m = none →
      (inst.opCode = .sdmaon → TransferIdle m) ∧
      (inst.opCode ≠ .sdmaon → ¬ OutOfRange m.cpu (wordToInt u.data) inst.opCode →
        ¬ BehindLimit m.cpu (wordToInt u.data) inst.opCode →
        programmed m.cpu (wordToInt u.data) m.dma inst.opCode = m.dma)) := by
  unfold FailureHarmless
  rcases hop with h | h | h | h | h | h <;> simp [h]

theorem programmed_congr {c d : Cpu} (h : SameView c d) (v : Int) (dma : Dma) (op : OpCode) :
    programmed c v dma op = programmed d v dma op := by
  cases op <;> simp only [programmed, requested_congr h]

/-- A DMA instruction acts on the operand it did not get before it fails. -/
theorem dma_clean (hop : ForDma inst.opCode) :
    Clean m (executeDMAInstruction u inst m) ↔ FailureHarmless u inst m := by
  have fetched := fetch_untouched inst m
  have view := (fetch_operand_steady inst m).view
  have done := fun operand n (hf : fetchOperand inst m = (operand, n)) =>
    dma_execute_eq u inst hf hop rfl
  rw [harmless_dma hop, ← operand_of_fetch]
  generalize fetchOperand inst m = f at fetched view done ⊢
  obtain ⟨operand, n⟩ := f
  dsimp only at fetched view ⊢
  rw [← out_of_range_congr view, ← behind_limit_congr view, ← programmed_congr view]
  rcases done operand n rfl with ⟨hout, -, he⟩ | ⟨hbehind, -, he⟩ | ⟨hin, hfront, k, hset, hon, he⟩ <;>
    rw [he]
  · refine iff_of_true (clean_fail.mpr fetched) (fun hnone => ⟨fun h => ?_, fun _ hin => ?_⟩)
    · rw [h] at hout
      exact hout.elim
    · subst hnone
      exact absurd hout hin
  · refine iff_of_true (clean_fail.mpr fetched) (fun hnone => ⟨fun h => ?_, fun _ _ hfront => ?_⟩)
    · rw [h] at hbehind
      cases hbehind.1
    · subst hnone
      exact absurd hbehind hfront
  · cases operand with
    | some w => exact iff_of_true .done nofun
    | none =>
      rw [Option.isNone_none, if_pos rfl, clean_fail]
      by_cases ho : inst.opCode = .sdmaon
      · rw [hon ho, transfer_untouched fetched]
        exact ⟨fun h _ => ⟨fun _ => h, fun hne => absurd ho hne⟩, fun h => (h rfl).1 ho⟩
      · rw [hset ho, fetched.dma]
        constructor
        · intro h _
          exact ⟨fun h' => absurd h' ho, fun _ _ _ => h.dma⟩
        · intro h
          exact ⟨fetched.cpu, fetched.ram, fetched.disk, (h rfl).2 ho hin hfront,
            fetched.interruptValue⟩

/-- An instruction fails without effect exactly when `FailureHarmless` holds. -/
theorem failed_untouched (u : Unspecified) (inst : Instruction) (m : Machine) :
    FailsClean m (execute u inst m) ↔ FailureHarmless u inst m := by
  rw [execute_clean]
  by_cases hdma : ForDma inst.opCode
  · rw [dma_handler u m hdma]
    exact dma_clean hdma
  unfold FailureHarmless handler
  cases hop : inst.opCode
  case load => exact load_clean hop
  case psh => exact push_clean hop
  case pop => exact iff_of_true (pop_clean hop) trivial
  case sum | res | mult | divi => exact iff_of_true arithmetic_clean trivial
  case str | loadrx | strrx | loadrb | strrb | loadrl | strrl | loadsp | strsp =>
    exact iff_of_true (movement_clean (by simp [hop])) trivial
  case comp => exact iff_of_true comparison_clean trivial
  case jmpe | jmpne | jmplt | jmplgt | j => exact iff_of_true branching_clean trivial
  case svc => exact iff_of_true .done trivial
  case retrn => exact iff_of_true return_clean trivial
  case hab | dhab =>
    unfold executeInterruptsChange
    rw [hop]
    exact iff_of_true .done trivial
  case tti => exact iff_of_true timer_clean trivial
  case chmod => exact iff_of_true change_mode_clean trivial
  case invalid => exact iff_of_true (.failed _) trivial
  all_goals exact absurd (by simp [ForDma, hop]) hdma

end

def pastLimit : Machine :=
  { (powerOn zeroKeys).hw with cpu := { Cpu.zero with rb := 300, rl := 384, sp := 90 } }

/-- PSH fails there, with the stack pointer moved. -/
theorem not_failed_untouched :
    ¬ ∀ (u : Unspecified) (inst : Instruction) (m : Machine), FailsClean m (execute u inst m) := by
  intro clean
  have kept := (clean zeros ⟨.psh, .direct, 0⟩ pastLimit (by decide)).sp
  exact absurd kept (by decide)

end Lucario.Proofs
