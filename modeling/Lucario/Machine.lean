import Lucario.Word
import Mathlib.Data.Finset.Basic

namespace Lucario

/-- `OpMode_t`. -/
inductive OpMode where
  | user | kernel
  deriving DecidableEq, Repr

/-- The integer behind the enumerator. -/
def OpMode.toWord : OpMode → Int
  | .user => 0
  | .kernel => 1

def OpMode.ofWord : Int → Option OpMode
  | 0 => some .user
  | 1 => some .kernel
  | _ => none

/-- `InterruptionState_t`. -/
inductive InterruptionState where
  | disabled | enabled
  deriving DecidableEq, Repr

/-- `AddressingMode_t`; `invalid` stands for every digit that names no mode. -/
inductive AddressingMode where
  | direct | immediate | indexed | invalid
  deriving DecidableEq, Repr

def AddressingMode.ofInt : Int → AddressingMode
  | 0 => .direct
  | 1 => .immediate
  | 2 => .indexed
  | _ => .invalid

/-- `OpCode_t`; `invalid` stands for every opcode field outside 0 to 33. -/
inductive OpCode where
  | sum | res | mult | divi | load | str | loadrx | strrx | comp | jmpe | jmpne | jmplt | jmplgt
  | svc | retrn | hab | dhab | tti | chmod | loadrb | strrb | loadrl | strrl | loadsp | strsp
  | psh | pop | j | sdmap | sdmac | sdmas | sdmaio | sdmam | sdmaon | invalid
  deriving DecidableEq, Repr

def OpCode.ofInt : Int → OpCode
  | 0 => .sum
  | 1 => .res
  | 2 => .mult
  | 3 => .divi
  | 4 => .load
  | 5 => .str
  | 6 => .loadrx
  | 7 => .strrx
  | 8 => .comp
  | 9 => .jmpe
  | 10 => .jmpne
  | 11 => .jmplt
  | 12 => .jmplgt
  | 13 => .svc
  | 14 => .retrn
  | 15 => .hab
  | 16 => .dhab
  | 17 => .tti
  | 18 => .chmod
  | 19 => .loadrb
  | 20 => .strrb
  | 21 => .loadrl
  | 22 => .strrl
  | 23 => .loadsp
  | 24 => .strsp
  | 25 => .psh
  | 26 => .pop
  | 27 => .j
  | 28 => .sdmap
  | 29 => .sdmac
  | 30 => .sdmas
  | 31 => .sdmaio
  | 32 => .sdmam
  | 33 => .sdmaon
  | _ => .invalid

/-- `InterruptCode_t`. -/
inductive InterruptCode where
  | invalidSyscall | invalidIntCode | syscall | timer | ioDone | invalidInstr | invalidAddr
  | underflow | overflow
  deriving DecidableEq, Repr

/-- `PSW_t`. -/
structure Psw where
  conditionCode : ConditionCode
  mode : OpMode
  interruptEnable : InterruptionState
  pc : Int

/-- `CPU_t`. -/
structure Cpu where
  ac : Int
  mar : Int
  mdr : Int
  ir : Int
  rb : Int
  rl : Int
  rx : Int
  sp : Int
  psw : Psw
  timerLimit : Nat
  cyclesCounter : Nat

/-- `(CPU_t){0}`. -/
def Cpu.zero : Cpu where
  ac := 0
  mar := 0
  mdr := 0
  ir := 0
  rb := 0
  rl := 0
  rx := 0
  sp := 0
  psw := ⟨.zero, .user, .disabled, 0⟩
  timerLimit := 0
  cyclesCounter := 0

/-- `Instruction_t`; `value` is a `uint32_t`. -/
structure Instruction where
  opCode : OpCode
  direction : AddressingMode
  value : Int

/-- `DMA_t`. -/
structure Dma where
  track : Nat
  cylinder : Nat
  sector : Nat
  ioDirection : Nat
  memAddr : Int
  status : Nat
  active : Bool
  pending : Bool

/-- `(DMA_t){0}`, what `dmaReset` stores. -/
def dmaReset : Dma := ⟨0, 0, 0, 0, 0, 0, false, false⟩

/-- The hardware globals. `interruptBitmap` is the set of its one bits; RAM and the disk are
functions, and every access is bounds-checked as the source checks it. -/
structure Machine where
  cpu : Cpu
  ram : Int → Int
  disk : Nat → Nat → Nat → Int
  dma : Dma
  interruptBitmap : Finset InterruptCode
  interruptValue : Int

/-- The values that uninitialised locals happen to hold when the source reads them: `data` in
LOAD and in the DMA instructions, `savedPcWord` in the blocking system calls, and the header
fields a malformed program file leaves unset. -/
structure Unspecified where
  data : Int
  savedPcWord : Int
  startPC : Int
  wordCount : Int
  programName : List Char

def raiseInterrupt (code : InterruptCode) (m : Machine) : Machine :=
  { m with interruptBitmap := insert code m.interruptBitmap }

def raiseInterruptRelated (code : InterruptCode) (relatedValue : Int) (m : Machine) : Machine :=
  { m with interruptBitmap := insert code m.interruptBitmap, interruptValue := relatedValue }

def updatePSWFlags (m : Machine) : Machine :=
  { m with cpu.psw.conditionCode :=
      if m.cpu.ac = 0 then .zero else if isNegative m.cpu.ac then .neg else .pos }

/-- `GET_INSTRUCTION_OPCODE` and its companions applied to the instruction register. -/
def decode (cpu : Cpu) : Instruction where
  opCode := OpCode.ofInt (getInstructionOpcode cpu.ir)
  direction := AddressingMode.ofInt (getInstructionMode cpu.ir)
  value := toUInt32 (getInstructionValue cpu.ir)

def calculateEffectiveAddress (cpu : Cpu) (inst : Instruction) : Int :=
  if inst.direction = .indexed then toInt32 (inst.value + wordToInt cpu.ac)
  else toInt32 inst.value

/-- The cycle count and timer comparison at the end of `cpuStep`. -/
def countCycle (m : Machine) : Machine :=
  let cyclesCounter := (m.cpu.cyclesCounter + 1) % 18446744073709551616
  if m.cpu.timerLimit ≤ cyclesCounter ∧ 0 < m.cpu.timerLimit then
    raiseInterrupt .timer { m with cpu.cyclesCounter := 0 }
  else { m with cpu.cyclesCounter := cyclesCounter }

@[simp] theorem mode_of_toWord (mode : OpMode) : OpMode.ofWord mode.toWord = some mode := by
  cases mode <;> rfl

@[simp] theorem condition_code_of_toWord (cc : ConditionCode) :
    ConditionCode.ofWord cc.toWord = some cc := by
  cases cc <;> rfl

theorem mode_valid (mode : OpMode) : isValidInstruction mode.toWord := by
  cases mode <;> exact valid_of_range (by decide) (by decide)

theorem condition_code_valid (cc : ConditionCode) : isValidInstruction cc.toWord := by
  cases cc <;> exact valid_of_range (by decide) (by decide)

end Lucario
