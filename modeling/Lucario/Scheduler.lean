import Lucario.System

namespace Lucario

/-- The first loop of `schedulerTick` at one index. -/
def wakeSleeper (p : Pcb) : Pcb :=
  if p.state = .blocked ∧ 0 < p.sleepTics then
    let sleepTics := p.sleepTics - 1
    if sleepTics = 0 then { p with sleepTics := sleepTics, state := .ready }
    else { p with sleepTics := sleepTics }
  else p

/-- The second loop of `schedulerTick` at one index. -/
def unblockIo (p : Pcb) : Pcb :=
  if p.state = .blockedIo then { p with state := .ready } else p

/-- A loop over the process table that treats every index alike. -/
def forEachProcess (f : Pcb → Pcb) (k : Kernel) : Kernel :=
  { k with processTable := fun i =>
      if 0 ≤ i ∧ i < maxProcesses then f (k.processTable i) else k.processTable i }

/-- The save of the outgoing context, and EXECUTING back to READY. -/
def saveOutgoing (cpu : Cpu) (k : Kernel) : Kernel :=
  if k.currentActiveProcess ≠ -1 then
    k.modifyProcess k.currentActiveProcess (fun p =>
      { p with
        context := cpu
        state := if p.state = .executing then .ready else p.state })
  else k

/-- `schedulerTick` up to the scan for the next process. -/
def beforeScan (s : System) : Kernel :=
  let k := forEachProcess wakeSleeper s.kernel
  let k := if s.monitor.active then forEachProcess unblockIo k else k
  saveOutgoing s.hw.cpu k

/-- The indices the scan visits, in order. -/
def scanOrder (currentActiveProcess : Int) : List Int :=
  let startIndex :=
    if currentActiveProcess = -1 then 0 else (currentActiveProcess + 1).tmod maxProcesses
  (List.range maxProcesses).map (fun (i : Nat) => (startIndex + i).tmod maxProcesses)

def findNext (k : Kernel) : Option Int :=
  (scanOrder k.currentActiveProcess).find? (fun i => (k.processTable i).state = .ready)

def schedulerTick (s : System) : System :=
  let k := beforeScan s
  match findNext k with
  | some nextProcess =>
    { s with
      hw.cpu := (k.processTable nextProcess).context
      kernel := { k with currentActiveProcess := nextProcess }.modifyProcess nextProcess
        (fun p => { p with state := .executing }) }
  | none => { s with kernel := { k with currentActiveProcess := -1 } }

end Lucario
