import Lucario.Execute
import Lucario.Syscalls

namespace Lucario

def internalPush (value : Int) (m : Machine) : Machine :=
  let m := { m with cpu.sp := m.cpu.sp - 1 }
  orUnchanged (writeMemory m.cpu.sp value m) m

/-- The word at the stack pointer, 0 when it cannot be read, and the machine above it. -/
def internalPop (m : Machine) : Int × Machine :=
  ((readMemory m.cpu.sp m).toOption.getD 0, { m with cpu.sp := m.cpu.sp + 1 })

def saveContext (m : Machine) : Machine :=
  let m := internalPush m.cpu.rx m
  let m := internalPush m.cpu.rl m
  let m := internalPush m.cpu.rb m
  let m := internalPush m.cpu.psw.mode.toWord m
  let m := internalPush m.cpu.psw.conditionCode.toWord m
  let m := internalPush m.cpu.psw.pc m
  internalPush m.cpu.ac m

/-- The casts of the popped words to the enumerations read a word that names no enumerator as the
first one; after a `saveContext` they meet no such word. -/
def restoreContext (codeHandled : InterruptCode) (m : Machine) : Machine :=
  let (savedAC, m) := internalPop m
  let m := if codeHandled ≠ .overflow ∧ codeHandled ≠ .underflow then
    { m with cpu.ac := savedAC } else m
  let (pc, m) := internalPop m
  let m := { m with cpu.psw.pc := pc }
  let (cc, m) := internalPop m
  let m := { m with cpu.psw.conditionCode := (ConditionCode.ofWord cc).getD .zero }
  let (mode, m) := internalPop m
  let m := { m with cpu.psw.mode := (OpMode.ofWord mode).getD .user }
  let (rb, m) := internalPop m
  let m := { m with cpu.rb := rb }
  let (rl, m) := internalPop m
  let m := { m with cpu.rl := rl }
  let (rx, m) := internalPop m
  { m with cpu.rx := rx }

/-- The priority chain of `checkInterrupts`. -/
def codeToHandle (interruptBitmap : Finset InterruptCode) : InterruptCode :=
  if .invalidInstr ∈ interruptBitmap then .invalidInstr
  else if .invalidAddr ∈ interruptBitmap then .invalidAddr
  else if .overflow ∈ interruptBitmap then .overflow
  else if .underflow ∈ interruptBitmap then .underflow
  else if .syscall ∈ interruptBitmap then .syscall
  else if .timer ∈ interruptBitmap then .timer
  else if .ioDone ∈ interruptBitmap then .ioDone
  else if .invalidSyscall ∈ interruptBitmap then .invalidSyscall
  else .invalidIntCode

def System.setYield (s : System) : System := { s with kernel := { s.kernel with osYield := true } }

def handleInterrupt (u : Unspecified) (code : InterruptCode) (s : System) : Bool × System :=
  match code with
  | .invalidInstr => (false, s)
  | .invalidAddr => (false, s)
  | .overflow =>
    (true, { s with hw :=
      storeAccumulator (toInt32 (s.hw.interruptValue.tmod (maxMagnitude + 1))) s.hw })
  | .underflow => (true, { s with hw := storeAccumulator 0 s.hw })
  | .timer => (true, s.setYield)
  | .ioDone => (true, s)
  | .syscall =>
    match handleSyscall u s with
    | (.halt, s) => (false, s)
    | (.block, s) => (true, s.setYield)
    | (_, s) => (true, s)
  | .invalidSyscall => (true, s)
  | .invalidIntCode => (true, s)

def System.setInterruptEnable (e : InterruptionState) (s : System) : System :=
  { s with hw := { s.hw with cpu.psw.interruptEnable := e } }

def checkInterrupts (u : Unspecified) (s : System) : Bool × System :=
  if s.hw.interruptBitmap = ∅ ∨ s.hw.cpu.psw.interruptEnable = .disabled then (true, s)
  else
    let code := codeToHandle s.hw.interruptBitmap
    let s := s.setInterruptEnable .disabled
    let s := { s with hw := saveContext s.hw }
    let (status, s) := handleInterrupt u code s
    let s := { s with hw := { s.hw with interruptBitmap := s.hw.interruptBitmap.erase code } }
    let s := if status then { s with hw := restoreContext code s.hw } else s
    (status, s.setInterruptEnable .enabled)

def cpuStep (u : Unspecified) (s : System) : Bool × System :=
  match fetch s.hw with
  | (.stop, hw) => (false, { s with hw := hw })
  | (.ok, hw) =>
    let (_, hw) := execute u (decode hw.cpu) hw
    checkInterrupts u { s with hw := countCycle hw }

end Lucario
