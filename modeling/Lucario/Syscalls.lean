import Lucario.System

namespace Lucario

/-- `SyscallStatus_t`. -/
inductive SyscallStatus where
  | success | unknown | halt | block
  deriving DecidableEq, Repr

/-- The tail that the print and read calls share when the monitor is closed: block the process
and step the saved PC back, so that the call is made again. -/
def retryAfterMonitor (u : Unspecified) (s : System) : System :=
  let s := s.modifyProcess s.kernel.currentActiveProcess (fun p => { p with state := .blockedIo })
  let savedPcWord := (readMemory (s.hw.cpu.sp + 1) s.hw).toOption.getD u.savedPcWord
  let savedPc := wordToInt savedPcWord
  let (w, cc) := intToWord (savedPc - 1)
  let hw := { s.hw with cpu.psw.conditionCode := cc }
  { s with hw := orUnchanged (writeMemory (hw.cpu.sp + 1) w hw) hw }

/-- The read call with the monitor open; `scanf` is repeated until it yields an integer. -/
def readFromMonitor (s : System) : System :=
  let p := s.kernel.processTable s.kernel.currentActiveProcess
  let userInput := s.monitor.keyboard 0
  let mon := { s.monitor with keyboard := fun i => s.monitor.keyboard (i + 1) }
  let mon := if maxMagnitude < userInput ∨ userInput < -maxMagnitude then
    monitorSaveHistory (truncationMessage p) mon else mon
  let mon := monitorSaveHistory (inputMessage p (toInt32 userInput)) mon
  let (w, cc) := intToWord (toInt32 userInput)
  let hw := { s.hw with cpu.psw.conditionCode := cc }
  { s with hw := orUnchanged (writeMemory hw.cpu.sp w hw) hw, monitor := mon }

def handleSyscall (u : Unspecified) (s : System) : SyscallStatus × System :=
  let p := s.kernel.processTable s.kernel.currentActiveProcess
  let param := readMemory (s.hw.cpu.sp + 7) s.hw
  match wordToInt s.hw.cpu.ac with
  | 1 => (.halt, s)
  | 2 =>
    match param with
    | .error _ => (.halt, s)
    | .ok w =>
      if s.monitor.active then
        (.success,
          { s with monitor := monitorPrint (outputMessage p (wordToInt w)) s.monitor })
      else (.block, retryAfterMonitor u s)
  | 3 => if s.monitor.active then (.success, readFromMonitor s) else (.block, retryAfterMonitor u s)
  | 4 =>
    match param with
    | .error _ => (.halt, s)
    | .ok w =>
      let sleepTics := wordToInt w
      if sleepTics < 0 then
        (.halt, { s with monitor := monitorPrint (sleepErrorMessage p sleepTics) s.monitor })
      else if sleepTics = 0 then (.success, s)
      else
        (.block, s.modifyProcess s.kernel.currentActiveProcess
          (fun p => { p with sleepTics := sleepTics, state := .blocked }))
  | _ => (.unknown, s)

end Lucario
