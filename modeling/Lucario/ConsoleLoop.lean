import Lucario.CommandLine
import Lucario.Debugger

namespace Lucario

/-- The handlers `consoleStart` calls. -/
inductive Handler where
  | handleRunCommand (argCount : Nat)
  | handleDebugCommand
  | handleRestartCommand
  | printFilesList
  | printHelpList
  | startMonitorSession
  | printProcessStatus
  | printMemoryStatus
  | printDiskStatus
  deriving DecidableEq, Repr

/-- What a round of `consoleStart` comes to: `continue`, a call or `return`. -/
inductive Dispatch where
  | skip
  | call (h : Handler)
  | leave
  deriving DecidableEq, Repr

def errorText (message : String) : List Char :=
  "\x1b[1;31mError: ".toList ++ message.toList ++ "\x1b[0m\n".toList

/-- The branch of a command that takes no arguments. -/
def withoutArguments (message : String) (d : Dispatch) (argCount : Nat) : List Char × Dispatch :=
  if 0 < argCount then (errorText message, .skip) else ([], d)

/-- The chain of commands in `consoleStart`, with what it prints before any call. -/
def dispatch (command : List Char) (argCount : Nat) : List Char × Dispatch :=
  if command = "run".toList then
    if maxProcesses < argCount then (errorText "Too many arguments for 'run' command", .skip)
    else if argCount = 0 then (errorText "Missing program file(s) to execute", .skip)
    else ([], .call (.handleRunCommand argCount))
  else if command = "debug".toList then
    -- the error is reported, and the command runs all the same
    (if 1 < argCount then errorText "Too many arguments for 'debug' command"
      else if argCount = 0 then errorText "Missing program file(s) to execute"
      else [],
      .call .handleDebugCommand)
  else if command = "shutdown".toList then
    withoutArguments "The 'shutdown' command does not accept arguments" .leave argCount
  else if command = "restart".toList then
    withoutArguments "The 'restart' command does not accept arguments"
      (.call .handleRestartCommand) argCount
  else if command = "list".toList then
    withoutArguments "The 'list' command does not accept arguments" (.call .printFilesList)
      argCount
  else if command = "help".toList then
    withoutArguments "Too many arguments for 'help' command" (.call .printHelpList) argCount
  else if command = "monitor".toList then
    withoutArguments "Too many arguments for 'monitor' command" (.call .startMonitorSession)
      argCount
  else if command = "ps".toList then
    withoutArguments "Too many arguments for 'ps' command" (.call .printProcessStatus) argCount
  else if command = "memstat".toList then
    withoutArguments "Too many arguments for 'memstat' command" (.call .printMemoryStatus) argCount
  else if command = "diskstat".toList then
    withoutArguments "Too many arguments for 'diskstat' command" (.call .printDiskStatus) argCount
  else ("\x1b[1;31mUnknown command:\x1b[0m ".toList ++ command ++ ['\n'], .skip)

/-- Which loop reads the next line. -/
inductive Prompt where
  | console | debugger | monitor | closed
  deriving DecidableEq, Repr

/-- The system with the locals of `consoleStart` that outlive a round. -/
structure Shell where
  system : System
  buffer : List Char
  argument : Nat → Option Nat

/-- `fgets` into `buffer`. -/
def storeLine (line buffer : List Char) : List Char :=
  line ++ '\x00' :: buffer.drop (line.length + 1)

/-- The string of a slot; one that was never filled points anywhere. -/
def slotText (wild : Nat → List Char) (buffer : List Char) (argument : Nat → Option Nat)
    (slot : Nat) : List Char :=
  match argument slot with
  | some p => stringAt buffer p
  | none => wild slot

/-- The argument slots a handler reads. -/
def Handler.slots : Handler → List Nat
  | .handleRunCommand argCount => List.range argCount
  | .handleDebugCommand => [0]
  | _ => []

/-- A handler up to its own prompt; the listings only print. -/
def Handler.perform (host : Host) (u : Nat → Unspecified) (text : Nat → List Char) (s : System) :
    Handler → Prompt × System
  | .handleRunCommand argCount =>
    (.console, (List.range argCount).foldl
      (fun s i => (createProcess host (u i) (text i) s).2) s)
  | .handleDebugCommand =>
    let (debugging, s) := startDebugging host (text 0) s
    (if debugging then .debugger else .console, s)
  | .handleRestartCommand => (.console, Lucario.handleRestartCommand s)
  | .startMonitorSession => (.monitor, { s with monitor := { s.monitor with active := true } })
  | _ => (.console, s)

/-- One round of `consoleStart`. -/
def consoleRound (host : Host) (u : Nat → Unspecified) (wild : Nat → List Char)
    (line : List Char) (sh : Shell) : Prompt × Shell :=
  let (status, l) := parseInput (storeLine line sh.buffer) sh.argument
  let sh := { sh with buffer := l.input, argument := l.args }
  if status = .empty then (.console, sh)
  else
    match (dispatch l.command l.argCount).2 with
    | .skip => (.console, sh)
    | .leave => (.closed, sh)
    | .call h =>
      let (prompt, s) := h.perform host u (slotText wild l.input l.args) sh.system
      (prompt, { sh with system := s })

/-- The argument slots a round reads. -/
def slotsRead (line : List Char) (sh : Shell) : List Nat :=
  let (status, l) := parseInput (storeLine line sh.buffer) sh.argument
  if status = .empty then []
  else
    match (dispatch l.command l.argCount).2 with
    | .call h => h.slots
    | _ => []

end Lucario
