import Lucario.Memory
import Lucario.Stdio

namespace Lucario

/-- `ProcessState`. -/
inductive ProcessState where
  | new | ready | executing | blocked | blockedIo | finished
  deriving DecidableEq, Repr

/-- `PCB_t`. -/
structure Pcb where
  pid : Int
  state : ProcessState
  context : Cpu
  programName : List Char
  startBlock : Int
  blockCount : Int
  sleepTics : Int

/-- The kernel globals. The arrays are functions of the C index, in range or not, so that an
index is never adjusted on the way. -/
structure Kernel where
  processTable : Int → Pcb
  currentActiveProcess : Int
  osYield : Bool
  nextPid : Int
  freePartitions : Int → Bool

/-- `FileMeta_t`. -/
structure FileMeta where
  filePath : List Char
  programName : List Char
  startTrack : Nat
  startCylinder : Nat
  startSector : Nat
  wordCount : Int
  startPC : Int

/-- The first `catalogCount` entries of the catalog and the first free sector. -/
structure Vfs where
  diskCatalog : List FileMeta
  freeTrack : Nat
  freeCylinder : Nat
  freeSector : Nat

/-- The monitor: whether it is open, its history, the lines `monitorPrint` has shown on it, and
the integers `scanf` will deliver, in order. -/
structure Monitor where
  active : Bool
  history : Nat → List Char
  historyCount : Nat
  printed : List (List Char)
  keyboard : Nat → Int

structure System where
  hw : Machine
  kernel : Kernel
  vfs : Vfs
  monitor : Monitor

/-- `PROCESS_TABLE[i]` rewritten by `f`. -/
def Kernel.modifyProcess (i : Int) (f : Pcb → Pcb) (k : Kernel) : Kernel :=
  { k with processTable := Function.update k.processTable i (f (k.processTable i)) }

def System.modifyProcess (i : Int) (f : Pcb → Pcb) (s : System) : System :=
  { s with kernel := s.kernel.modifyProcess i f }

def maxHistoryLines : Nat := 100
def maxLineLength : Nat := 256

/-- The `strcpy` loop that drops the oldest of `count` lines. -/
def shiftHistory (count : Nat) (history : Nat → List Char) : Nat → List Char :=
  (List.range' 1 (count - 1)).foldl (fun h i => Function.update h (i - 1) (h i)) history

def monitorSaveHistory (message : List Char) (mon : Monitor) : Monitor :=
  let line := message.take (maxLineLength - 1)
  if mon.historyCount < maxHistoryLines then
    { mon with
      history := Function.update mon.history mon.historyCount line
      historyCount := mon.historyCount + 1 }
  else
    { mon with
      history := Function.update (shiftHistory maxHistoryLines mon.history)
        (maxHistoryLines - 1) line }

def monitorPrint (message : List Char) (mon : Monitor) : Monitor :=
  let mon := monitorSaveHistory message mon
  if mon.active then { mon with printed := mon.printed ++ [message] } else mon

/-- `"[PID %02d - %s] "`. -/
def processTag (p : Pcb) : List Char :=
  "[PID ".toList ++ showInt2 p.pid ++ " - ".toList ++ p.programName ++ "] ".toList

def outputMessage (p : Pcb) (value : Int) : List Char :=
  snprintf256 (processTag p ++ "Output: ".toList ++ showInt value)

def truncationMessage (p : Pcb) : List Char :=
  snprintf256 ("\x1b[31m".toList ++ processTag p ++
    "[ERROR] Input exceeds architecture limits (7 digits). Truncating...\x1b[0m".toList)

def inputMessage (p : Pcb) (value : Int) : List Char :=
  snprintf256 ("\x1b[33m".toList ++ processTag p ++ "Request input:\x1b[0m ".toList ++
    showInt value)

def sleepErrorMessage (p : Pcb) (sleepTics : Int) : List Char :=
  snprintf256 ("\x1b[31m".toList ++ processTag p ++ "[ERROR] Invalid sleep duration (".toList ++
    showInt sleepTics ++ " tics). Killing the process...\x1b[0m".toList)

end Lucario
