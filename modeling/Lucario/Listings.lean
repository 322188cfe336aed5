import Lucario.Core

namespace Lucario

def stateToString : ProcessState → List Char
  | .new => "NEW".toList
  | .ready => "READY".toList
  | .executing => "EXECUTING".toList
  | .blocked => "BLOCKED".toList
  | .blockedIo => "BLOCKED_IO".toList
  | .finished => "FINISHED".toList

/-- `%-4d` and `%-10s`. -/
def leftAligned (width : Nat) (text : List Char) : List Char :=
  text ++ List.replicate (width - text.length) ' '

/-- `%02d`, `%03d` and so on up to `%08d`. -/
def zeroPadded (width : Nat) (n : Int) : List Char :=
  let digits := Nat.toDigits 10 n.natAbs
  if n < 0 then '-' :: List.replicate (width - 1 - digits.length) '0' ++ digits
  else List.replicate (width - digits.length) '0' ++ digits

/-- The processes the loop of `printProcessStatus` does not skip. -/
def listedProcesses (k : Kernel) : List Pcb :=
  ((List.range maxProcesses).map (fun (i : Nat) => k.processTable i)).filter
    (fun p => p.state ≠ .finished)

def memPercentage (p : Pcb) : Int := (p.blockCount * partitionSize * 100).tdiv ramSize

def processRow (p : Pcb) : List Char :=
  ' ' :: leftAligned 4 (showInt p.pid) ++ " | ".toList ++
    leftAligned 10 (stateToString p.state) ++ " | ".toList ++
    leftAligned 10 (showInt (memPercentage p)) ++ " | ".toList ++ p.programName ++ ['\n']

/-- What `printProcessStatus` prints. -/
def printProcessStatus (k : Kernel) : List Char :=
  "\n\x1b[34m------------------- PROCESS STATUS (ps) ------------------\x1b[0m\n\n".toList ++
    " PID  | STATE      | MEMORY (%) | PROGRAM NAME\n".toList ++
    "----------------------------------------------------------\n".toList ++
    (listedProcesses k).flatMap processRow ++
    (if listedProcesses k = [] then
      "           No active processes at the moment\n".toList else []) ++
    "----------------------------------------------------------\n\n".toList

/-- `occupiedBlocks` at the end of the loop of `printMemoryStatus`. -/
def occupiedBlocks (free : Int → Bool) : Int :=
  (List.range maxProcesses).countP (fun (i : Nat) => ! free i)

def usagePercentage (free : Int → Bool) : Int :=
  (occupiedBlocks free * 100).tdiv maxProcesses

def blockRow (free : Int → Bool) (i : Int) : List Char :=
  let rb := getBaseRegister i
  " BLK ".toList ++ showInt2 i ++ " | [".toList ++ zeroPadded 4 rb ++ " - ".toList ++
    zeroPadded 4 (getLimitRegister rb 1) ++ "] | ".toList ++
    (if free i then "  \x1b[32mFREE\x1b[0m".toList else "\x1b[31mOCCUPIED\x1b[0m".toList) ++ ['\n']

/-- What `printMemoryStatus` prints. -/
def printMemoryStatus (free : Int → Bool) : List Char :=
  "\n\x1b[34m----- MEMORY STATUS (memstat) -----\x1b[0m\n\n".toList ++
    " BLOCK  | RANGE (RB-RL) |  STATUS\n".toList ++
    "-----------------------------------\n".toList ++
    (List.range maxProcesses).flatMap (fun (i : Nat) => blockRow free i) ++
    "-----------------------------------\n".toList ++
    "       Total RAM Usage: ".toList ++ showInt (usagePercentage free) ++ "%\n\n".toList

/-- The banner, a text in UTF-8. -/
def printReplInit : List Char :=
  "\x1b[2J\x1b[H\n".toList ++
    "  █     █  █  █▀▀▀  █▀▀█  █▀▀█  ▀█▀  █▀▀█     █▀▀█ █▀▀▀  █▀▀█   █   \n".toList ++
    "  █     █  █  █     █▀▀█  █▀▀▄   █   █  █     █▀▀▄ █▀▀▀  █▀▀▀   █   \n".toList ++
    "  █     █  █  █     █  █  █  █   █   █  █     █  █ █     █      █   \n".toList ++
    "  ▀▀▀▀  ▀▀▀▀  ▀▀▀▀  ▀  ▀  ▀  ▀  ▀▀▀  ▀▀▀▀     ▀  ▀ ▀▀▀▀  ▀      ▀▀▀▀\n".toList ++
    "\n  Use \x1b[1mhelp\x1b[0m for the full command list.\n\n".toList

def printFullRegisters (cpu : Cpu) : List Char :=
  "\n\x1b[1;33m================= CPU STATE =================\x1b[0m\n".toList ++
    " PC:     ".toList ++ zeroPadded 5 cpu.psw.pc ++ " | AC:  ".toList ++ zeroPadded 8 cpu.ac ++
    " (".toList ++ showInt (wordToInt cpu.ac) ++ ")\n".toList ++
    " IR:  ".toList ++ zeroPadded 8 cpu.ir ++
    " | OP:  ".toList ++ zeroPadded 2 (getInstructionOpcode cpu.ir) ++
    " | MD: ".toList ++ showInt (getInstructionMode cpu.ir) ++
    " | VAL: ".toList ++ zeroPadded 5 (getInstructionValue cpu.ir) ++ ['\n'] ++
    " MDR: ".toList ++ zeroPadded 8 cpu.mdr ++ " | MAR: ".toList ++ zeroPadded 5 cpu.mar ++
    "\n---------------------------------------------\n".toList ++
    " RB:  ".toList ++ zeroPadded 8 cpu.rb ++ " | RL:  ".toList ++ zeroPadded 8 cpu.rl ++
    "\n SP:  ".toList ++ zeroPadded 8 cpu.sp ++ " | RX:  ".toList ++ zeroPadded 8 cpu.rx ++
    "\n Int: ".toList ++
    (if cpu.psw.interruptEnable = .enabled then "ON ".toList else "OFF".toList) ++
    "      | CC:  ".toList ++ showInt cpu.psw.conditionCode.toWord ++ " | PSW Mode: ".toList ++
    (if cpu.psw.mode = .kernel then "KERNEL".toList else "USER".toList) ++
    "\n\x1b[1;33m=============================================\x1b[0m\n\n".toList

/-- The command, and the line below it. -/
def helpEntry (command text : String) : List Char :=
  "  \x1b[1m".toList ++ command.toList ++ "\x1b[0m\n  ".toList ++ text.toList ++ "\n\n".toList

def printHelpList : List Char :=
  "\n\x1b[35mAVAILABLE COMMANDS:\x1b[0m\n\n".toList ++
    helpEntry "run <file1> [file2]..." "Executes up to 20 programs in Normal Mode." ++
    helpEntry "debug <file>" "Executes a single program in Debug Mode with step-by-step control." ++
    helpEntry "ps" "Displays all active processes (PID, state, memory, name)." ++
    helpEntry "memstat" "Shows physical memory content and current usage percentage." ++
    helpEntry "diskstat" "Shows physical disk content and current programs saved." ++
    helpEntry "monitor" "Opens a secondary terminal for program Input/Output." ++
    helpEntry "list" "Lists all files available in the current directory." ++
    helpEntry "restart" "Reboots the Lucario System." ++
    helpEntry "shutdown" "Safely shuts down the system and exits the simulator." ++
    helpEntry "help" "Displays this manual with all available commands."

/-- What `readdir` tells of an entry; `directory` is `d_type == DT_DIR`. -/
structure Dirent where
  name : List Char
  directory : Bool

/-- What `printFilesList` prints of the entries of the current directory, `none` if it cannot be
opened. -/
def printFilesList : Option (List Dirent) → List Char
  | none => "\x1b[1;31mError: Could not open directory\x1b[0m".toList
  | some entries =>
    (entries.filter (fun dir => dir.name ≠ ".".toList ∧ dir.name ≠ "..".toList ∧
      ! dir.directory)).flatMap (fun dir => "  ".toList ++ dir.name ++ ['\n'])

end Lucario
