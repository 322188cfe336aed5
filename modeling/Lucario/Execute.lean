import Lucario.Dma

namespace Lucario

/-- `InstructionStatus_t`. -/
inductive InstructionStatus where
  | success | fail
  deriving DecidableEq, Repr

/-- `CPUStatus_t`. -/
inductive CpuStatus where
  | ok | stop
  deriving DecidableEq, Repr

def checkStatus : InstructionStatus → CpuStatus
  | .fail => .stop
  | .success => .ok

/-- A failing handler raises one last interrupt and reports the failure. -/
def failWith (code : InterruptCode) (m : Machine) : InstructionStatus × Machine :=
  (.fail, raiseInterrupt code m)

/-- `none` is `INSTR_EXEC_FAIL`, on which the caller's variable keeps what it held. -/
def fetchOperand (inst : Instruction) (m : Machine) : Option Int × Machine :=
  match inst.direction with
  | .immediate =>
    let (w, cc) := intToWord (toInt32 inst.value)
    (some w, { m with cpu.psw.conditionCode := cc })
  | .direct | .indexed =>
    match readMemory (calculateEffectiveAddress m.cpu inst) m with
    | .ok w => (some w, m)
    | .error _ => (none, raiseInterrupt .invalidAddr m)
  | .invalid => (none, raiseInterrupt .invalidInstr m)

/-- `CPU.AC = intToWord(v, &CPU.PSW)`. -/
def storeAccumulator (v : Int) (m : Machine) : Machine :=
  let (w, cc) := intToWord v
  { m with cpu.ac := w, cpu.psw.conditionCode := cc }

def raiseOnOverflow (result : Int) (m : Machine) : Machine :=
  if m.cpu.psw.conditionCode = .overflow then raiseInterruptRelated .overflow result m else m

def executeArithmetic (inst : Instruction) (m : Machine) : InstructionStatus × Machine :=
  match fetchOperand inst m with
  | (none, m) => (.fail, m)
  | (some operandValue, m) =>
    let accumulatorValue := wordToInt m.cpu.ac
    let operandIntValue := wordToInt operandValue
    match inst.opCode with
    | .sum =>
      let result := accumulatorValue + operandIntValue
      (.success, raiseOnOverflow result (storeAccumulator (toInt32 result) m))
    | .res =>
      let result := accumulatorValue - operandIntValue
      (.success, raiseOnOverflow result (storeAccumulator (toInt32 result) m))
    | .mult =>
      let result := accumulatorValue * operandIntValue
      let m := storeAccumulator (toInt32 (result.tmod (maxMagnitude + 1))) m
      let m := if maxMagnitude < result ∨ result < -maxMagnitude then
        { m with cpu.psw.conditionCode := .overflow } else m
      (.success, raiseOnOverflow result m)
    | .divi =>
      if operandIntValue = 0 then
        (.fail, { raiseInterrupt .invalidInstr m with cpu.psw.conditionCode := .overflow })
      else
        let result := accumulatorValue.tdiv operandIntValue
        (.success, raiseOnOverflow result (storeAccumulator (toInt32 result) m))
    | _ => failWith .invalidInstr m

def executeInterruptsChange (inst : Instruction) (m : Machine) : InstructionStatus × Machine :=
  match inst.opCode with
  | .hab => (.success, { m with cpu.psw.interruptEnable := .enabled })
  | .dhab => (.success, { m with cpu.psw.interruptEnable := .disabled })
  | _ => failWith .invalidInstr m

/-- The common end of a store: a refused write becomes `IC_INVALID_ADDR`. -/
def finishWrite (m : Machine) : Except MemoryStatus Machine → InstructionStatus × Machine
  | .ok m => (.success, m)
  | .error _ => failWith .invalidAddr m

def executeDataMovement (u : Unspecified) (inst : Instruction) (m : Machine) :
    InstructionStatus × Machine :=
  match inst.opCode with
  | .str =>
    if inst.direction = .immediate then failWith .invalidInstr m
    else finishWrite m (writeMemory (calculateEffectiveAddress m.cpu inst) m.cpu.ac m)
  | .load =>
    match fetchOperand inst m with
    | (some data, m) => (.success, updatePSWFlags { m with cpu.ac := data })
    | (none, m) => failWith .invalidAddr (updatePSWFlags { m with cpu.ac := u.data })
  | .strrx => (.success, { m with cpu.rx := m.cpu.ac })
  | .strrb => (.success, { m with cpu.rb := m.cpu.ac })
  | .strrl => (.success, { m with cpu.rl := m.cpu.ac })
  | .strsp => finishWrite m (writeMemory m.cpu.sp m.cpu.ac m)
  | .loadrx => (.success, updatePSWFlags { m with cpu.ac := m.cpu.rx })
  | .loadrb => (.success, updatePSWFlags { m with cpu.ac := m.cpu.rb })
  | .loadrl => (.success, updatePSWFlags { m with cpu.ac := m.cpu.rl })
  | .loadsp =>
    let data := (readMemory m.cpu.sp m).toOption.getD m.cpu.ac
    (.success, updatePSWFlags { m with cpu.ac := data })
  | _ => (.success, raiseInterrupt .invalidInstr m)

def executeBranching (inst : Instruction) (m : Machine) : InstructionStatus × Machine :=
  let taken := { m with cpu.psw.pc := calculateEffectiveAddress m.cpu inst }
  if inst.opCode = .j then (.success, taken)
  else
    match readMemory m.cpu.sp m with
    | .error _ => failWith .invalidAddr m
    | .ok stackValue =>
      let acInt := wordToInt m.cpu.ac
      let stackInt := wordToInt stackValue
      match inst.opCode with
      | .jmpe => (.success, if acInt = stackInt then taken else m)
      | .jmpne => (.success, if acInt ≠ stackInt then taken else m)
      | .jmplt => (.success, if acInt < stackInt then taken else m)
      | .jmplgt => (.success, if stackInt < acInt then taken else m)
      | _ => (.success, raiseInterrupt .invalidInstr m)

def executeComparison (inst : Instruction) (m : Machine) : InstructionStatus × Machine :=
  match fetchOperand inst m with
  | (none, m) => (.fail, m)
  | (some operandValue, m) =>
    let result := wordToInt m.cpu.ac - wordToInt operandValue
    let magnitude := if 0 ≤ result then result else -result
    let cc : ConditionCode :=
      if maxMagnitude < magnitude then .overflow
      else if result = 0 then .zero
      else if result < 0 then .neg
      else .pos
    (.success, { m with cpu.psw.conditionCode := cc })

/-- The operand is decoded even when it could not be fetched: `data` is then uninitialised. -/
def executeDMAInstruction (u : Unspecified) (inst : Instruction) (m : Machine) :
    InstructionStatus × Machine :=
  let (operand, m) := fetchOperand inst m
  let intData := wordToInt (operand.getD u.data)
  let finish (m : Machine) : InstructionStatus × Machine :=
    if operand.isNone then failWith .invalidAddr m else (.success, m)
  match inst.opCode with
  | .sdmap =>
    if intData < 0 ∨ diskTracks ≤ intData then failWith .invalidInstr m
    else finish { m with dma.track := toUInt8 intData }
  | .sdmac =>
    if intData < 0 ∨ diskCylinders ≤ intData then failWith .invalidInstr m
    else finish { m with dma.cylinder := toUInt8 intData }
  | .sdmas =>
    if intData < 0 ∨ diskSectors ≤ intData then failWith .invalidInstr m
    else finish { m with dma.sector := toUInt8 intData }
  | .sdmaio =>
    if intData ≠ 0 ∧ intData ≠ 1 then failWith .invalidInstr m
    else finish { m with dma.ioDirection := toUInt8 intData }
  | .sdmam =>
    let physicalAddr := if m.cpu.psw.mode = .kernel then intData else m.cpu.rb + intData
    if m.cpu.psw.mode ≠ .kernel ∧ m.cpu.rl < physicalAddr then failWith .invalidAddr m
    else if physicalAddr < 0 ∨ ramSize ≤ physicalAddr then failWith .invalidInstr m
    else finish { m with dma.memAddr := physicalAddr }
  | .sdmaon => finish (dmaTransfer { m with dma.pending := true })
  | _ => failWith .invalidInstr m

def executeStackManipulation (inst : Instruction) (m : Machine) : InstructionStatus × Machine :=
  match inst.opCode with
  | .psh =>
    if m.cpu.sp - 1 < m.cpu.rx then failWith .invalidAddr m
    else
      let m := { m with cpu.sp := m.cpu.sp - 1 }
      finishWrite m (writeMemory m.cpu.sp m.cpu.ac m)
  | .pop =>
    if m.cpu.rl ≤ m.cpu.sp + m.cpu.rb then failWith .invalidAddr m
    else
      let data := (readMemory m.cpu.sp m).toOption.getD m.cpu.ac
      (.success, updatePSWFlags { m with cpu.ac := data, cpu.sp := m.cpu.sp + 1 })
  | _ => failWith .invalidInstr m

def executeSystemCall (m : Machine) : InstructionStatus × Machine :=
  (.success, raiseInterrupt .syscall m)

def executeReturn (m : Machine) : InstructionStatus × Machine :=
  match readMemory m.cpu.sp m with
  | .error _ => failWith .invalidAddr m
  | .ok returnAddress =>
    (.success, { m with cpu.psw.pc := wordToInt returnAddress, cpu.sp := m.cpu.sp + 1 })

/-- The `OP_TTI` branch of `execute`. -/
def executeTimerInterval (inst : Instruction) (m : Machine) : InstructionStatus × Machine :=
  match fetchOperand inst m with
  | (some interval, m) => (.success, { m with cpu.timerLimit := toUInt64 (wordToInt interval) })
  | (none, m) => (.fail, m)

/-- The `OP_CHMOD` branch of `execute`. -/
def executeChangeMode (inst : Instruction) (m : Machine) : InstructionStatus × Machine :=
  if inst.value = 0 then (.success, { m with cpu.psw.mode := .user })
  else if inst.value = 1 then (.success, { m with cpu.psw.mode := .kernel })
  else failWith .invalidInstr m

/-- The handler `execute` dispatches an opcode to. -/
def handler (u : Unspecified) (inst : Instruction) (m : Machine) : InstructionStatus × Machine :=
  match inst.opCode with
  | .sum | .res | .mult | .divi => executeArithmetic inst m
  | .load | .str | .loadrx | .strrx => executeDataMovement u inst m
  | .comp => executeComparison inst m
  | .jmpe | .jmpne | .jmplt | .jmplgt => executeBranching inst m
  | .svc => executeSystemCall m
  | .retrn => executeReturn m
  | .hab | .dhab => executeInterruptsChange inst m
  | .tti => executeTimerInterval inst m
  | .chmod => executeChangeMode inst m
  | .loadrb | .strrb | .loadrl | .strrl | .loadsp | .strsp => executeDataMovement u inst m
  | .psh | .pop => executeStackManipulation inst m
  | .j => executeBranching inst m
  | .sdmap | .sdmac | .sdmas | .sdmaio | .sdmam | .sdmaon => executeDMAInstruction u inst m
  | .invalid => failWith .invalidInstr m

def execute (u : Unspecified) (inst : Instruction) (m : Machine) : CpuStatus × Machine :=
  let (status, m) := handler u inst m
  (checkStatus status, m)

/-- A failed fetch raises nothing in the bitmap, it only stops the step. -/
def fetch (m : Machine) : CpuStatus × Machine :=
  let m := { m with cpu.mar := m.cpu.psw.pc }
  match readMemory m.cpu.mar m with
  | .error _ => (.stop, m)
  | .ok w => (.ok, { m with cpu.mdr := w, cpu.ir := w, cpu.psw.pc := m.cpu.psw.pc + 1 })

end Lucario
