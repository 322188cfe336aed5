import Lucario.ConsoleLoop
import Lucario.DiskStatus
import Lucario.Listings

namespace Lucario

/-- Where the console thread stands: at the prompt of `consoleStart`, in the loop of
`handleRunCommand` before its next argument, in the loops of `handleDebugCommand` and
`startMonitorSession`, or at the end. -/
inductive Desk where
  | prompt
  | loading (next argCount : Nat)
  | debugger
  | monitor
  | closed
  deriving DecidableEq, Repr

/-- What `getchar` gives in turn, `none` at an end of file. -/
abbrev Input := List (Option Char)

/-- The shell with what the console thread is doing, what it can read and what it has said. -/
structure Terminal where
  shell : Shell
  desk : Desk
  stdin : Input
  output : List Char

/-- An iteration of the worker thread, input for the console thread, and its next step. The numbers
that `scanf` reads for a process come from elsewhere, and what the terminal drops when `monitor`
changes its mode counts as never typed. -/
inductive TerminalEvent where
  | worker (u : Unspecified)
  | typed (input : Input)
  | console (host : Host) (u : Unspecified) (wild : Nat → List Char)
      (directory : Option (List Dirent))

/-- `fgets` on `stdin` with a buffer of `room + 1` characters; none while it waits, and no
character for its NULL. -/
def fgetsStdin : Nat → Input → Option (List Char × Input)
  | 0, stdin => some ([], stdin)
  | _ + 1, [] => none
  | _ + 1, none :: stdin => some ([], stdin)
  | room + 1, some c :: stdin =>
    if c = '\n' then some ([c], stdin)
    else
      match fgetsStdin room stdin with
      | none => none
      | some (line, stdin) => some (c :: line, stdin)

def consoleBufferSize : Nat := 512

def Terminal.setSystem (s : System) (t : Terminal) : Terminal :=
  { t with shell := { t.shell with system := s } }

def Terminal.print (text : List Char) (t : Terminal) : Terminal :=
  { t with output := t.output ++ text }

def promptText : List Char := "\x1b[35mLUCARIO\x1b[0m > ".toList

def debugPromptText : List Char := "\x1b[32mDEBUG > \x1b[0m".toList

/-- Back at the head of the loop of `consoleStart`. -/
def Terminal.toPrompt (t : Terminal) : Terminal := { t with desk := .prompt }.print promptText

/-- Back at the head of the loop of `handleDebugCommand`. -/
def Terminal.toDebugger (t : Terminal) : Terminal :=
  { t with desk := .debugger }.print debugPromptText

def loadingText : List Char := "Loading processes into OS...\n".toList

def completedText : List Char := "\n\x1b[32mProcess loading phase completed\x1b[0m\n".toList

/-- The report of `handleRunCommand` on one argument. -/
def runReport (status : OsStatus) (name : List Char) : List Char :=
  match status with
  | .success => " -> \x1b[32m[QUEUED]\x1b[0m Process '".toList ++ name ++
      "' created successfully.\n".toList
  | .maxProcesses => " -> \x1b[1;31m[ERROR]\x1b[0m Process table is full. Could not load '".toList ++
      name ++ "'.\n".toList
  | .disk => " -> \x1b[1;31m[ERROR]\x1b[0m File '".toList ++ name ++
      "' not found or Virtual Disk is full.\n".toList
  | .memory => " -> \x1b[1;31m[ERROR]\x1b[0m Not enough contiguous RAM blocks to load '".toList ++
      name ++ "'.\n".toList

/-- What `handleLoadCommand` and the head of `handleDebugCommand` say. -/
def loadReport (debugging : Bool) (argument : List Char) : List Char :=
  if debugging then "File '".toList ++ argument ++ "' loaded successfully\n".toList ++
    "Executing in Debug Mode...\n".toList
  else if argument = [] then errorText "Missing filename"
  else errorText "Loading file failed"

/-- What `handleDebugCommand` prints in front of its loop. -/
def debuggerText (cpu : Cpu) : List Char :=
  "\n\x1b[32mDEBUGGER COMMANDS:\x1b[0m\n".toList ++
    "  \x1b[1mstep\x1b[0m (or ENTER) : Execute next instruction.\n".toList ++
    "  \x1b[1mregs\x1b[0m            : View all registers detailed.\n".toList ++
    "  \x1b[1mquit\x1b[0m            : Exit debugger (stops execution).\n".toList ++
    printFullRegisters cpu

def stepReport (currentPC : Int) (cpu : Cpu) : List Char :=
  " -> Executed Addr: \x1b[33m".toList ++ zeroPadded 3 currentPC ++
    "\x1b[0m | Instr: \x1b[33m".toList ++ zeroPadded 8 cpu.ir ++
    "\x1b[0m | Result AC: \x1b[33m".toList ++ zeroPadded 8 cpu.ac ++ "\x1b[0m\n".toList

/-- What `startMonitorSession` shows when it opens. -/
def monitorText (mon : Monitor) : List Char :=
  "\x1b[s\x1b[?1049h\x1b[2J\x1b[H".toList ++
    "\x1b[34m--- MONITOR MODE (Press ESC to return to console) ---\x1b[0m\n\n".toList ++
    (List.range mon.historyCount).flatMap (fun i => mon.history i ++ ['\n'])

def monitorEndText : List Char := "\x1b[?1049l\x1b[u".toList

/-- A handler as far as it gets without reading anything or leaving the processor. -/
def Handler.start (host : Host) (text : Nat → List Char) (directory : Option (List Dirent))
    (t : Terminal) : Handler → Terminal
  | .handleRunCommand argCount => { t with desk := .loading 0 argCount }.print loadingText
  | .handleDebugCommand =>
    let (debugging, s) := startDebugging host (text 0) t.shell.system
    let t := (t.setSystem s).print (loadReport debugging (text 0))
    if debugging then (t.print (debuggerText s.hw.cpu)).toDebugger else t.toPrompt
  | .handleRestartCommand =>
    ((t.setSystem (Lucario.handleRestartCommand t.shell.system)).print printReplInit).toPrompt
  | .startMonitorSession =>
    let s := t.shell.system
    let t := t.setSystem { s with monitor := { s.monitor with active := true } }
    { t with desk := .monitor }.print (monitorText s.monitor)
  | .printProcessStatus => (t.print (Lucario.printProcessStatus t.shell.system.kernel)).toPrompt
  | .printMemoryStatus =>
    (t.print (Lucario.printMemoryStatus t.shell.system.kernel.freePartitions)).toPrompt
  | .printDiskStatus => (t.print (Lucario.printDiskStatus t.shell.system.vfs)).toPrompt
  | .printFilesList => (t.print (Lucario.printFilesList directory)).toPrompt
  | .printHelpList => (t.print Lucario.printHelpList).toPrompt

/-- The loop of `consoleStart` on the line in its buffer. -/
def promptLine (host : Host) (wild : Nat → List Char) (directory : Option (List Dirent))
    (line : List Char) (t : Terminal) : Terminal :=
  let (status, l) := parseInput (storeLine line t.shell.buffer) t.shell.argument
  let t := { t with shell := { t.shell with buffer := l.input, argument := l.args } }
  if status = .empty then t.toPrompt
  else
    let (text, d) := dispatch l.command l.argCount
    let t := t.print text
    match d with
    | .skip => t.toPrompt
    | .leave => { t with desk := .closed }
    | .call h => h.start host (slotText wild l.input l.args) directory t

/-- `cmd` in `handleDebugCommand`, from the line in `debugBuf`. -/
def debugCommand (line : List Char) : List Char :=
  let debugBuf := storeLine line []
  let newline := ((cString debugBuf).takeWhile (fun c => c ≠ '\n')).length
  cString (trimWhitespace (debugBuf.set newline '\x00'))

def haltedText : List Char := "\x1b[31mPROGRAM HALTED\x1b[0m\n".toList

/-- The loop of `handleDebugCommand` on a command. -/
def debugLine (u : Unspecified) (cmd : List Char) (t : Terminal) : Terminal :=
  if cmd = [] ∨ cmd = "step".toList then
    let (active, s) := cpuStep u t.shell.system
    let t' := (t.setSystem s).print (stepReport t.shell.system.hw.cpu.psw.pc s.hw.cpu)
    if active then t'.toDebugger else (t'.print haltedText).toPrompt
  else if cmd = "regs".toList then
    (t.print (printFullRegisters t.shell.system.hw.cpu)).toDebugger
  else if cmd = "quit".toList then (t.print "Exiting debugger...\n".toList).toPrompt
  else (t.print "Unknown debug command. Use: step, regs, quit.\n".toList).toDebugger

/-- The loop of `handleRunCommand` on its next argument. -/
def loadNext (host : Host) (u : Unspecified) (wild : Nat → List Char) (next argCount : Nat)
    (t : Terminal) : Terminal :=
  let name := slotText wild t.shell.buffer t.shell.argument next
  let (status, s) := createProcess host u name t.shell.system
  let t := (t.setSystem s).print (runReport status name)
  if next + 1 < argCount then { t with desk := .loading (next + 1) argCount }
  else (t.print completedText).toPrompt

/-- The loop of `startMonitorSession` on what `getchar` returns: only the escape key does anything,
for nothing is ever put into `inputBuffer` that could be erased. -/
def monitorKey (key : Option Char) (t : Terminal) : Terminal :=
  if key = some '\x1b' then
    let s := t.shell.system
    ((t.setSystem { s with monitor := { s.monitor with active := false } }).print
      monitorEndText).toPrompt
  else t

/-- The next step of the console thread, if it need not wait for input. -/
def terminalStep (host : Host) (u : Unspecified) (wild : Nat → List Char)
    (directory : Option (List Dirent)) (t : Terminal) : Terminal :=
  match t.desk with
  | .prompt =>
    match fgetsStdin (consoleBufferSize - 1) t.stdin with
    | none => t
    | some ([], stdin) => { t with stdin := stdin, desk := .closed }
    | some (line, stdin) => promptLine host wild directory line { t with stdin := stdin }
  | .loading next argCount => loadNext host u wild next argCount t
  | .debugger =>
    match fgetsStdin (consoleBufferSize - 1) t.stdin with
    | none => t
    | some ([], stdin) => { t with stdin := stdin }.toPrompt
    | some (line, stdin) => debugLine u (debugCommand line) { t with stdin := stdin }
  | .monitor =>
    match t.stdin with
    | [] => t
    | key :: stdin => monitorKey key { t with stdin := stdin }
  | .closed => t

def terminalNext (t : Terminal) : TerminalEvent → Terminal
  | .worker u => t.setSystem (workerIteration u t.shell.system)
  | .typed input => { t with stdin := t.stdin ++ input }
  | .console host u wild directory => terminalStep host u wild directory t

/-- The console of a freshly started system, waiting at its first prompt. -/
def terminalBoot (keyboard : Nat → Int) : Terminal :=
  ⟨⟨boot keyboard, [], fun _ => none⟩, .prompt, [], printReplInit ++ promptText⟩

end Lucario
