import Lucario.Lib.Footprint
import Lucario.Proofs.Unnoticed

namespace Lucario.Proofs

open Footprint

structure Steady (c d : Cpu) : Prop where
  view : SameView d c
  enable : d.psw.interruptEnable = c.psw.interruptEnable
  sp : d.sp = c.sp

def Fatal (c : InterruptCode) : Prop := c = .invalidInstr ∨ c = .invalidAddr

def StoredAt (c : Cpu) (a v : Int) (x w : Int) : Prop :=
  Accessible c a ∧ isValidInstruction v ∧ x = translate c a ∧ w = v

theorem StoredAt.of_view {c d : Cpu} {a v x w : Int} (h : StoredAt c a v x w)
    (hv : SameView c d) : StoredAt d a v x w := by
  obtain ⟨ha, hvalid, hx, hw⟩ := h
  exact ⟨(accessible_congr hv a).mp ha, hvalid, hx.trans (translate_congr hv a), hw⟩

/-- What an instruction may store: the accumulator where its program may write, or in a transfer
the word on the disk at the address the device was programmed with. -/
def InstructionStores (inst : Instruction) (m : Machine) (x w : Int) : Prop :=
  (∃ a, StoredAt m.cpu a m.cpu.ac x w) ∨
    inst.opCode = .sdmaon ∧ m.dma.ioDirection ≠ 1 ∧ x = m.dma.memAddr ∧
      w = m.disk m.dma.track m.dma.cylinder m.dma.sector

inductive Available (m : Machine) : Int → Prop
  | memory (a : Int) : Available m (m.ram a)
  | converted (v : Int) : Available m (intToWord v).1
  | ac : Available m m.cpu.ac
  | rx : Available m m.cpu.rx
  | rb : Available m m.cpu.rb
  | rl : Available m m.cpu.rl

/-- What an instruction may make of the register file. -/
inductive RegisterEffect (u : Unspecified) (inst : Instruction) (m : Machine) : Cpu → Prop
  | flags (cc : ConditionCode) : RegisterEffect u inst m { m.cpu with psw.conditionCode := cc }
  | accumulator {v : Int} (h : Available m v) (cc : ConditionCode) :
      RegisterEffect u inst m { m.cpu with ac := v, psw.conditionCode := cc }
  | unfetched (hop : inst.opCode = .load) (h : (fetchOperand inst m).1 = none)
      (cc : ConditionCode) :
      RegisterEffect u inst m { m.cpu with ac := u.data, psw.conditionCode := cc }
  | index : RegisterEffect u inst m { m.cpu with rx := m.cpu.ac }
  | base (hop : inst.opCode = .strrb) : RegisterEffect u inst m { m.cpu with rb := m.cpu.ac }
  | limit (hop : inst.opCode = .strrl) : RegisterEffect u inst m { m.cpu with rl := m.cpu.ac }
  | jumped (pc : Int) : RegisterEffect u inst m { m.cpu with psw.pc := pc }
  | pushed (h : m.cpu.rx ≤ m.cpu.sp - 1) :
      RegisterEffect u inst m { m.cpu with sp := m.cpu.sp - 1 }
  | popped {v : Int} (h : m.cpu.sp + m.cpu.rb < m.cpu.rl) (hv : Available m v)
      (cc : ConditionCode) : RegisterEffect u inst m
        { m.cpu with ac := v, sp := m.cpu.sp + 1, psw.conditionCode := cc }
  | returned (h : Accessible m.cpu m.cpu.sp) (pc : Int) :
      RegisterEffect u inst m { m.cpu with sp := m.cpu.sp + 1, psw.pc := pc }
  | interrupts (hop : inst.opCode = .hab ∨ inst.opCode = .dhab) (state : InterruptionState) :
      RegisterEffect u inst m { m.cpu with psw.interruptEnable := state }
  | timer (hop : inst.opCode = .tti) (limit : Nat) (cc : ConditionCode) :
      RegisterEffect u inst m { m.cpu with timerLimit := limit, psw.conditionCode := cc }
  | mode (hop : inst.opCode = .chmod) (mode : OpMode) :
      RegisterEffect u inst m { m.cpu with psw.mode := mode }

/-- What one instruction does: it has one of the effects above on the registers, stores what it
may, reports a failure as a fatal interrupt, and but for LOAD and the DMA instructions raises no
second interrupt. -/
structure Performed (u : Unspecified) (inst : Instruction) (m : Machine)
    (r : InstructionStatus × Machine) : Prop where
  registers : RegisterEffect u inst m r.2.cpu
  memory : Changes (InstructionStores inst m) m.ram r.2.ram
  reported : r.1 = .fail → ∃ c, Fatal c ∧ c ∈ r.2.interruptBitmap
  raises : inst.opCode ≠ .load → ¬ ForDma inst.opCode →
    r.2.interruptBitmap = m.interruptBitmap ∨
      ∃ c, r.2.interruptBitmap = insert c m.interruptBitmap

section

variable {u : Unspecified} {inst : Instruction} {m : Machine} {c : Cpu}

theorem RegisterEffect.same : RegisterEffect u inst m m.cpu := .flags m.cpu.psw.conditionCode

theorem Performed.done (h : RegisterEffect u inst m c) :
    Performed u inst m (.success, { m with cpu := c }) :=
  ⟨h, Changes.refl _, nofun, fun _ _ => Or.inl rfl⟩

theorem Performed.raised (h : RegisterEffect u inst m c) (code : InterruptCode) :
    Performed u inst m (.success, raiseInterrupt code { m with cpu := c }) :=
  ⟨h, Changes.refl _, nofun, fun _ _ => Or.inr ⟨code, rfl⟩⟩

theorem Performed.overflowed (h : RegisterEffect u inst m c) (v : Int) :
    Performed u inst m (.success, raiseOnOverflow v { m with cpu := c }) := by
  unfold raiseOnOverflow
  split_ifs
  · exact ⟨h, Changes.refl _, nofun, fun _ _ => Or.inr ⟨.overflow, rfl⟩⟩
  · exact .done h

theorem Performed.failed {code : InterruptCode} (hc : Fatal code) (h : RegisterEffect u inst m c) :
    Performed u inst m (.fail, raiseInterrupt code { m with cpu := c }) :=
  ⟨h, Changes.refl _, fun _ => ⟨code, hc, Finset.mem_insert_self _ _⟩,
    fun _ _ => Or.inr ⟨code, rfl⟩⟩

/-- A store of the accumulator goes through or fails. -/
theorem Performed.written (h : RegisterEffect u inst m c) (hview : SameView c m.cpu) (a : Int) :
    Performed u inst m
      (finishWrite { m with cpu := c } (writeMemory a m.cpu.ac { m with cpu := c })) := by
  by_cases hw : Accessible c a ∧ isValidInstruction m.cpu.ac
  · rw [write_accessible hw.1 hw.2]
    have stored : StoredAt c a m.cpu.ac (translate c a) m.cpu.ac := ⟨hw.1, hw.2, rfl, rfl⟩
    exact ⟨h, Changes.update (Or.inl ⟨a, stored.of_view hview⟩), nofun,
      fun _ _ => Or.inl rfl⟩
  · obtain ⟨status, hs⟩ := write_refused (m := { m with cpu := c }) hw
    rw [hs]
    exact .failed (Or.inr rfl) h

theorem available_read (a : Int) : Available m ((readMemory a m).toOption.getD m.cpu.ac) := by
  rw [read_or_default]
  split_ifs
  · exact .memory _
  · exact .ac

/-- An operand is found or its absence is reported. -/
theorem fetch_operand_found (inst : Instruction) (m : Machine) :
    (∃ w cc, Available m w ∧
      fetchOperand inst m = (some w, { m with cpu.psw.conditionCode := cc })) ∨
    ∃ code, Fatal code ∧ fetchOperand inst m = (none, raiseInterrupt code m) := by
  unfold fetchOperand
  cases inst.direction with
  | immediate => exact Or.inl ⟨_, _, .converted _, rfl⟩
  | direct | indexed =>
    dsimp only
    by_cases ha : Accessible m.cpu (calculateEffectiveAddress m.cpu inst)
    · rw [read_accessible ha]
      exact Or.inl ⟨_, m.cpu.psw.conditionCode, .memory _, rfl⟩
    · obtain ⟨status, hs⟩ := read_inaccessible ha
      rw [hs]
      exact Or.inr ⟨_, Or.inr rfl, rfl⟩
  | invalid => exact Or.inr ⟨_, Or.inl rfl, rfl⟩

theorem fetch_operand_steady (inst : Instruction) (m : Machine) :
    Steady m.cpu (fetchOperand inst m).2.cpu := by
  rcases fetch_operand_found inst m with ⟨w, cc, -, hf⟩ | ⟨code, -, hf⟩ <;> rw [hf] <;>
    exact ⟨⟨rfl, rfl, rfl⟩, rfl, rfl⟩

theorem arithmetic_performed : Performed u inst m (executeArithmetic inst m) := by
  unfold executeArithmetic
  rcases fetch_operand_found inst m with ⟨w, cc, -, hf⟩ | ⟨code, hcode, hf⟩ <;> rw [hf]
  · have stored : ∀ v result, Performed u inst m (.success, raiseOnOverflow result
        (storeAccumulator v { m with cpu.psw.conditionCode := cc })) :=
      fun v result => .overflowed (.accumulator (.converted v) _) result
    dsimp only
    cases inst.opCode
    case sum | res => exact stored _ _
    case mult =>
      dsimp only
      split_ifs
      · exact .overflowed (.accumulator (.converted _) .overflow) _
      · exact stored _ _
    case divi =>
      dsimp only
      split_ifs
      · exact .failed (Or.inl rfl) (.flags .overflow)
      · exact stored _ _
    all_goals exact .failed (Or.inl rfl) (.flags cc)
  · exact .failed hcode .same

theorem comparison_performed : Performed u inst m (executeComparison inst m) := by
  unfold executeComparison
  rcases fetch_operand_found inst m with ⟨w, cc, -, hf⟩ | ⟨code, hcode, hf⟩ <;> rw [hf]
  · exact .done (.flags _)
  · exact .failed hcode .same

theorem timer_performed (hop : inst.opCode = .tti) :
    Performed u inst m (executeTimerInterval inst m) := by
  unfold executeTimerInterval
  rcases fetch_operand_found inst m with ⟨w, cc, -, hf⟩ | ⟨code, hcode, hf⟩ <;> rw [hf]
  · exact .done (.timer hop _ cc)
  · exact .failed hcode .same

theorem branching_performed : Performed u inst m (executeBranching inst m) := by
  unfold executeBranching
  dsimp only
  split_ifs
  · exact .done (.jumped _)
  · cases readMemory m.cpu.sp m with
    | error status => exact .failed (Or.inr rfl) .same
    | ok w =>
      dsimp only
      cases inst.opCode
      case jmpe | jmpne | jmplt | jmplgt =>
        dsimp only
        split_ifs
        · exact .done (.jumped _)
        · exact .done .same
      all_goals exact .raised .same _

theorem movement_performed : Performed u inst m (executeDataMovement u inst m) := by
  unfold executeDataMovement
  cases hop : inst.opCode
  case str =>
    dsimp only
    split_ifs
    · exact .failed (Or.inl rfl) .same
    · exact .written .same ⟨rfl, rfl, rfl⟩ _
  case load =>
    dsimp only
    rcases fetch_operand_found inst m with ⟨w, cc, hw, hf⟩ | ⟨code, -, hf⟩ <;> rw [hf]
    · exact .done (.accumulator hw _)
    · exact ⟨.unfetched hop (by rw [hf]) _, Changes.refl _,
        fun _ => ⟨.invalidAddr, Or.inr rfl, Finset.mem_insert_self _ _⟩, fun hne => absurd hop hne⟩
  case strsp => exact .written .same ⟨rfl, rfl, rfl⟩ _
  case strrx => exact .done .index
  case strrb => exact .done (.base hop)
  case strrl => exact .done (.limit hop)
  case loadrx => exact .done (.accumulator .rx _)
  case loadrb => exact .done (.accumulator .rb _)
  case loadrl => exact .done (.accumulator .rl _)
  case loadsp => exact .done (.accumulator (available_read _) _)
  all_goals exact .raised .same _

theorem stack_performed : Performed u inst m (executeStackManipulation inst m) := by
  unfold executeStackManipulation
  cases inst.opCode
  case psh =>
    dsimp only
    split_ifs with hrx
    · exact .failed (Or.inr rfl) .same
    · exact .written (.pushed (not_lt.mp hrx)) ⟨rfl, rfl, rfl⟩ _
  case pop =>
    dsimp only
    split_ifs with hrl
    · exact .failed (Or.inr rfl) .same
    · exact .done (.popped (not_le.mp hrl) (available_read _) _)
  all_goals exact .failed (Or.inl rfl) .same

theorem return_performed : Performed u inst m (executeReturn m) := by
  unfold executeReturn
  by_cases ha : Accessible m.cpu m.cpu.sp
  · rw [read_accessible ha]
    exact .done (.returned ha _)
  · obtain ⟨status, hs⟩ := read_inaccessible ha
    rw [hs]
    exact .failed (Or.inr rfl) .same

theorem change_mode_performed (hop : inst.opCode = .chmod) :
    Performed u inst m (executeChangeMode inst m) := by
  unfold executeChangeMode
  split_ifs
  · exact .done (.mode hop _)
  · exact .done (.mode hop _)
  · exact .failed (Or.inl rfl) .same

def settled (status : Nat) (d : Dma) : Dma :=
  { d with status := status, active := false, pending := false }

theorem dma_transfer_eq (m : Machine) : dmaTransfer m =
    if isPhysicalAddressValid m.dma.memAddr then
      if m.dma.ioDirection = 1 then
        raiseInterrupt .ioDone { storeSector m.dma.track m.dma.cylinder m.dma.sector
          (m.ram m.dma.memAddr) m with dma := settled 0 m.dma }
      else
        raiseInterrupt .ioDone { storeRam m.dma.memAddr
          (m.disk m.dma.track m.dma.cylinder m.dma.sector) m with dma := settled 0 m.dma }
    else raiseInterrupt .invalidAddr { m with dma := settled 1 m.dma } := by
  unfold dmaTransfer
  dsimp only
  by_cases hv : isPhysicalAddressValid m.dma.memAddr
  · by_cases hd : m.dma.ioDirection = 1
    · rw [if_pos hv, if_pos hd, if_pos hd, dmaReadMemory, if_neg (not_not.mpr hv)]
      rfl
    · rw [if_pos hv, if_neg hd, if_neg hd, dmaWriteMemory, if_neg (not_not.mpr hv)]
      rfl
  · by_cases hd : m.dma.ioDirection = 1
    · rw [if_neg hv, if_pos hd, dmaReadMemory, if_pos hv]
      rfl
    · rw [if_neg hv, if_neg hd, dmaWriteMemory, if_pos hv]
      rfl

theorem dma_handler (u : Unspecified) {inst : Instruction} (m : Machine)
    (hop : ForDma inst.opCode) : handler u inst m = executeDMAInstruction u inst m := by
  unfold handler
  rcases hop with h | h | h | h | h | h <;> rw [h]

def requestedAddr (cpu : Cpu) (v : Int) : Int := if cpu.psw.mode = .kernel then v else cpu.rb + v

def OutOfRange (cpu : Cpu) (v : Int) : OpCode → Prop
  | .sdmap => v < 0 ∨ diskTracks ≤ v
  | .sdmac => v < 0 ∨ diskCylinders ≤ v
  | .sdmas => v < 0 ∨ diskSectors ≤ v
  | .sdmaio => v ≠ 0 ∧ v ≠ 1
  | .sdmam =>
    ¬ (cpu.psw.mode ≠ .kernel ∧ cpu.rl < requestedAddr cpu v) ∧
      (requestedAddr cpu v < 0 ∨ ramSize ≤ requestedAddr cpu v)
  | _ => False

def programmed (cpu : Cpu) (v : Int) (d : Dma) : OpCode → Dma
  | .sdmap => { d with track := toUInt8 v }
  | .sdmac => { d with cylinder := toUInt8 v }
  | .sdmas => { d with sector := toUInt8 v }
  | .sdmaio => { d with ioDirection := toUInt8 v }
  | .sdmam => { d with memAddr := requestedAddr cpu v }
  | .sdmaon => { d with pending := true }
  | _ => d

/-- SDMAM refuses an address behind the limit register before it looks at its range. -/
def BehindLimit (cpu : Cpu) (v : Int) (op : OpCode) : Prop :=
  op = .sdmam ∧ cpu.psw.mode ≠ .kernel ∧ cpu.rl < requestedAddr cpu v

/-- What a DMA instruction does with its operand, whether it was fetched or not. -/
theorem dma_execute_eq (u : Unspecified) (inst : Instruction) {operand : Option Int} {n : Machine}
    (hf : fetchOperand inst m = (operand, n)) (hop : ForDma inst.opCode) {v : Int}
    (hv : wordToInt (operand.getD u.data) = v) :
    (OutOfRange n.cpu v inst.opCode ∧ ¬ BehindLimit n.cpu v inst.opCode ∧
      executeDMAInstruction u inst m = failWith .invalidInstr n) ∨
    (BehindLimit n.cpu v inst.opCode ∧ ¬ OutOfRange n.cpu v inst.opCode ∧
      executeDMAInstruction u inst m = failWith .invalidAddr n) ∨
    (¬ OutOfRange n.cpu v inst.opCode ∧ ¬ BehindLimit n.cpu v inst.opCode ∧ ∃ k,
      (inst.opCode ≠ .sdmaon → k = { n with dma := programmed n.cpu v n.dma inst.opCode }) ∧
      (inst.opCode = .sdmaon → k = dmaTransfer { n with dma.pending := true }) ∧
      executeDMAInstruction u inst m =
        if operand.isNone then failWith .invalidAddr k else (.success, k)) := by
  unfold executeDMAInstruction
  rw [hf]
  dsimp only
  rw [hv]
  rcases hop with h | h | h | h | h | h <;> rw [h] <;>
    dsimp only [OutOfRange, BehindLimit, programmed]
  case inr.inr.inr.inr.inl =>
    have hreq : (if n.cpu.psw.mode = .kernel then v else n.cpu.rb + v) = requestedAddr n.cpu v :=
      rfl
    rw [hreq]
    by_cases hr : n.cpu.psw.mode ≠ .kernel ∧ n.cpu.rl < requestedAddr n.cpu v
    · refine Or.inr (Or.inl ⟨⟨rfl, hr⟩, fun ho => ho.1 hr, ?_⟩)
      rw [if_pos hr]
    · by_cases ho : requestedAddr n.cpu v < 0 ∨ ramSize ≤ requestedAddr n.cpu v
      · refine Or.inl ⟨⟨hr, ho⟩, fun hb => hr hb.2, ?_⟩
        rw [if_neg hr, if_pos ho]
      · refine Or.inr (Or.inr ⟨fun hn => ho hn.2, fun hb => hr hb.2, _, fun _ => rfl,
          fun hon => absurd hon (by decide), ?_⟩)
        rw [if_neg hr, if_neg ho]
  case inr.inr.inr.inr.inr =>
    exact Or.inr (Or.inr ⟨not_false, fun hb => absurd hb.1 (by decide), _, fun hon => absurd rfl hon,
      fun _ => rfl, rfl⟩)
  all_goals
    split
    · rename_i ho
      exact Or.inl ⟨ho, fun hb => absurd hb.1 (by decide), rfl⟩
    · rename_i ho
      exact Or.inr (Or.inr ⟨ho, fun hb => absurd hb.1 (by decide), _, fun _ => rfl,
        fun hon => absurd hon (by decide), rfl⟩)

/-- A DMA instruction touches no register but the flags, and memory only in a transfer. -/
theorem dma_performed (hop : ForDma inst.opCode) :
    Performed u inst m (executeDMAInstruction u inst m) := by
  have found : ∃ operand cc codes, fetchOperand inst m =
      (operand, { m with cpu.psw.conditionCode := cc, interruptBitmap := codes }) := by
    rcases fetch_operand_found inst m with ⟨w, cc, -, hf⟩ | ⟨code, -, hf⟩
    · exact ⟨some w, cc, m.interruptBitmap, hf⟩
    · exact ⟨none, m.cpu.psw.conditionCode, _, hf⟩
  obtain ⟨operand, cc, codes, hf⟩ := found
  have refused : ∀ code n, Fatal code → n.cpu = { m.cpu with psw.conditionCode := cc } →
      Changes (InstructionStores inst m) m.ram n.ram →
      Performed u inst m (failWith code n) := by
    intro code n hcode hcpu hram
    exact ⟨hcpu ▸ .flags cc, hram, fun _ => ⟨code, hcode, Finset.mem_insert_self _ _⟩,
      fun _ hdma => absurd hop hdma⟩
  rcases dma_execute_eq u inst hf hop rfl with ⟨-, -, he⟩ | ⟨-, -, he⟩ | ⟨-, -, k, hset, hon, he⟩ <;>
    rw [he]
  · exact refused _ _ (Or.inl rfl) rfl (Changes.refl _)
  · exact refused _ _ (Or.inr rfl) rfl (Changes.refl _)
  · have effect : k.cpu = { m.cpu with psw.conditionCode := cc } ∧
        Changes (InstructionStores inst m) m.ram k.ram := by
      by_cases hon' : inst.opCode = .sdmaon
      · rw [hon hon', dma_transfer_eq]
        split_ifs with hv hd
        · exact ⟨rfl, Changes.refl _⟩
        · exact ⟨rfl, Changes.update (Or.inr ⟨hon', hd, rfl, rfl⟩)⟩
        · exact ⟨rfl, Changes.refl _⟩
      · rw [hset hon']
        exact ⟨rfl, Changes.refl _⟩
    split_ifs
    · exact refused _ _ (Or.inr rfl) effect.1 effect.2
    · exact ⟨effect.1 ▸ .flags cc, effect.2, nofun,
        fun _ hdma => absurd hop hdma⟩

/-- What every instruction does. -/
theorem handler_performed (u : Unspecified) (inst : Instruction) (m : Machine) :
    Performed u inst m (handler u inst m) := by
  unfold handler
  cases hop : inst.opCode
  case sum | res | mult | divi => exact arithmetic_performed
  case load | str | loadrx | strrx => exact movement_performed
  case loadrb | strrb | loadrl | strrl | loadsp | strsp => exact movement_performed
  case comp => exact comparison_performed
  case jmpe | jmpne | jmplt | jmplgt | j => exact branching_performed
  case svc => exact .raised .same _
  case retrn => exact return_performed
  case hab | dhab =>
    unfold executeInterruptsChange
    rw [hop]
    exact .done (.interrupts (by simp [hop]) _)
  case tti => exact timer_performed hop
  case chmod => exact change_mode_performed hop
  case psh | pop => exact stack_performed
  case invalid => exact .failed (Or.inl rfl) .same
  all_goals exact dma_performed (by simp [ForDma, hop])

end

def StackMoved (c d : Cpu) : Prop :=
  d.sp = c.sp ∨ d.sp = c.sp - 1 ∧ c.rx ≤ c.sp - 1 ∨
    d.sp = c.sp + 1 ∧ (Accessible c c.sp ∨ c.sp + c.rb < c.rl)

def Privileged (op : OpCode) : Prop := op = .chmod ∨ op = .strrb ∨ op = .strrl

/-- Only the privileged instructions change how memory is seen, and the stack pointer moves by
at most one word. -/
theorem handler_view (u : Unspecified) (inst : Instruction) (m : Machine)
    (hop : ¬ Privileged inst.opCode) :
    SameView (handler u inst m).2.cpu m.cpu ∧ StackMoved m.cpu (handler u inst m).2.cpu := by
  have registers := (handler_performed u inst m).registers
  generalize (handler u inst m).2.cpu = c at registers ⊢
  cases registers with
  | base h => exact absurd (Or.inr (Or.inl h)) hop
  | limit h => exact absurd (Or.inr (Or.inr h)) hop
  | mode h => exact absurd (Or.inl h) hop
  | pushed h => exact ⟨⟨rfl, rfl, rfl⟩, Or.inr (Or.inl ⟨rfl, h⟩)⟩
  | popped h => exact ⟨⟨rfl, rfl, rfl⟩, Or.inr (Or.inr ⟨rfl, Or.inr h⟩)⟩
  | returned h => exact ⟨⟨rfl, rfl, rfl⟩, Or.inr (Or.inr ⟨rfl, Or.inl h⟩)⟩
  | _ => exact ⟨⟨rfl, rfl, rfl⟩, Or.inl rfl⟩

def Elevates (inst : Instruction) : Prop :=
  inst.opCode = .chmod ∧ inst.value = 1 ∨ inst.opCode = .strrb ∨ inst.opCode = .strrl

theorem not_elevates {inst : Instruction} (hop : ¬ Privileged inst.opCode) : ¬ Elevates inst := by
  rintro (⟨hchmod, -⟩ | hbounds)
  · exact hop (Or.inl hchmod)
  · exact hop (Or.inr hbounds)

/-- In user mode a CHMOD that does not ask for kernel mode changes nothing. -/
theorem change_mode_user {inst : Instruction} {m : Machine} (hm : m.cpu.psw.mode = .user)
    (hvalue : inst.value ≠ 1) : (executeChangeMode inst m).2.cpu = m.cpu := by
  have same : { m.cpu with psw.mode := .user } = m.cpu := by rw [← hm]
  unfold executeChangeMode
  split_ifs
  · exact same
  · rfl

theorem handler_view_user (u : Unspecified) {inst : Instruction} {m : Machine}
    (hm : m.cpu.psw.mode = .user) (hop : ¬ Elevates inst) :
    SameView (handler u inst m).2.cpu m.cpu ∧ StackMoved m.cpu (handler u inst m).2.cpu := by
  by_cases hchmod : inst.opCode = .chmod
  · have dispatched : handler u inst m = executeChangeMode inst m := by
      rw [handler, hchmod]
    have kept := change_mode_user hm (fun hvalue => hop (Or.inl ⟨hchmod, hvalue⟩))
    rw [dispatched, kept]
    exact ⟨⟨rfl, rfl, rfl⟩, Or.inl rfl⟩
  · refine handler_view u inst m ?_
    rintro (h | h)
    · exact hchmod h
    · exact hop (Or.inr h)

/-- Only HAB and DHAB touch the interrupt-enable flag. -/
theorem handler_enable (u : Unspecified) (inst : Instruction) (m : Machine)
    (hhab : inst.opCode ≠ .hab) (hdhab : inst.opCode ≠ .dhab) :
    (handler u inst m).2.cpu.psw.interruptEnable = m.cpu.psw.interruptEnable := by
  have registers := (handler_performed u inst m).registers
  generalize (handler u inst m).2.cpu = c at registers ⊢
  cases registers with
  | interrupts h => exact absurd h (by simp [hhab, hdhab])
  | _ => rfl

end Lucario.Proofs
