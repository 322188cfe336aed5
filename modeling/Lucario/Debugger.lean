import Lucario.Core

namespace Lucario

@[simp] def defaultStackSize : Int := 100

/-- `LoadStatus_t`. -/
inductive LoadStatus where
  | success | fileError | memoryError
  deriving DecidableEq, Repr

/-- `ProgramInfo_t programInfo = {0}`: here a malformed header leaves zeros. -/
def zeroProgramInfo : Unspecified := ⟨0, 0, 0, 0, []⟩

/-- The header `loadProgram` reads. -/
def programInfo (file : List Char) : Header × List Char := readHeader zeroProgramInfo file

/-- The loop of `loadProgram` from word `i` on, `count` words before its end; a refused word ends
it, and the words before it stay. -/
def loadWords : Nat → Int → List Char → Machine → LoadStatus × Machine
  | 0, _, _, m => (.success, m)
  | count + 1, i, file, m =>
    let (instruction, file) := readProgramWord file
    match writeMemory (osReservedSize + i) instruction m with
    | .error _ => (.memoryError, m)
    | .ok m => loadWords count (i + 1) file m

/-- The stack `loadProgram` leaves above the program. -/
def stackMemory (wordCount : Int) : Int :=
  if defaultStackSize < ramSize - osReservedSize - wordCount then defaultStackSize
  else ramSize - osReservedSize - wordCount

/-- The registers `loadProgram` sets once the program is in memory. Sums beyond `int`, which C leaves
undefined, are not wrapped. -/
def startRegisters (header : Header) (cpu : Cpu) : Cpu :=
  { cpu with
    rb := osReservedSize
    rl := osReservedSize + stackMemory header.wordCount + header.wordCount
    rx := header.wordCount
    sp := header.wordCount + stackMemory header.wordCount
    psw := ⟨cpu.psw.conditionCode, .user, .enabled, header.startPC - 1⟩
    timerLimit := 16
    cyclesCounter := 0 }

def loadProgram (host : Host) (filePath : List Char) (m : Machine) : LoadStatus × Machine :=
  match host filePath with
  | none => (.fileError, m)
  | some file =>
    let (header, file) := programInfo file
    let m := { m with cpu.psw.mode := .kernel }
    if ramSize < osReservedSize + minStackSize + header.wordCount then (.fileError, m)
    else
      match loadWords header.wordCount.toNat 0 file m with
      | (.success, m) => (.success, { m with cpu := startRegisters header m.cpu })
      | (status, m) => (status, m)

/-- `handleDebugCommand` up to its loop, and whether it gets there. -/
def startDebugging (host : Host) (argument : List Char) (s : System) : Bool × System :=
  let hw := cpuReset s.hw
  if argument = [] then (false, { s with hw := hw })
  else
    match loadProgram host argument hw with
    | (.success, hw) => (true, { s with hw := hw })
    | (_, hw) => (false, { s with hw := hw })

/-- The system with the console thread possibly at the prompt of `handleDebugCommand`. -/
structure Console where
  system : System
  debugging : Bool

/-- The worker thread goes on while the debugger is open; the other console commands wait until
it is closed. -/
inductive ConsoleEvent where
  | kernel (e : Event)
  | debug (host : Host) (argument : List Char)
  | step (u : Unspecified)
  | quit

def consoleNext (c : Console) : ConsoleEvent → Console
  | .kernel (.worker u) => { c with system := workerIteration u c.system }
  | .kernel e => if c.debugging then c else { c with system := next c.system e }
  | .debug host argument =>
    if c.debugging then c
    else
      let (debugging, s) := startDebugging host argument c.system
      ⟨s, debugging⟩
  | .step u =>
    if c.debugging then
      let (active, s) := cpuStep u c.system
      ⟨s, active⟩
    else c
  | .quit => { c with debugging := false }

/-- The console prompt of a freshly started system. -/
def consoleBoot (keyboard : Nat → Int) : Console := ⟨boot keyboard, false⟩

end Lucario
