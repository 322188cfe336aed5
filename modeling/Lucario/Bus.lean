import Lucario.Execute
import Lucario.Vfs

namespace Lucario

/-- The threads that take `BUS_LOCK`. -/
inductive BusThread where
  | processor | device | console
  deriving DecidableEq, Repr

/-- Where the CPU thread stands in an SDMAON, up to its waiting loop. -/
inductive ProcessorPhase where
  | elsewhere | lock | request | signal | unlock | spin
  deriving DecidableEq, Repr

/-- The access to RAM of a transfer, with the word a transfer from the disk has read there. -/
inductive DmaAccess where
  | read
  | write (data : Int)

/-- What the access returned: the word, if it was a read. -/
abbrev DmaResult := Except MemoryStatus (Option Int)

/-- Where the DMA thread stands in the loop of `dmaInit`. From `enter` to `leave` it is in
`dmaReadMemory` or `dmaWriteMemory`, which take the lock once more. -/
inductive DevicePhase where
  | lock | test | waiting | woken | start | choose
  | release (access : DmaAccess) | enter (access : DmaAccess) | access (access : DmaAccess)
  | leave (result : DmaResult) | relock (result : DmaResult) | store (result : DmaResult)
  | report (failed : Bool) | complete | unlock

/-- What the console thread does to RAM and the disk while it creates a process. -/
inductive ConsoleAct where
  | readSector (track cylinder sector : Nat)
  | writeSector (track cylinder sector : Nat) (data : Int)
  | writeWord (physAddr data : Int)

/-- Where the console thread stands in a `dmaWriteMemory`. -/
inductive ConsolePhase where
  | idle
  | enter (physAddr data : Int)
  | access (physAddr data : Int)
  | leave

/-- The three threads on the bus. `locals` and `inst` are those of the CPU thread's last call of
`executeDMAInstruction` and `fetchFailed` what its `fetchOperand` has returned; `seen` is what the
console has read from the disk. -/
structure Bus where
  hw : Machine
  holder : Option BusThread
  processor : ProcessorPhase
  locals : Unspecified
  inst : Instruction
  fetchFailed : Bool
  device : DevicePhase
  console : ConsolePhase
  seen : List Int

/-- `pthread_mutex_lock` does not return while another thread holds the lock. -/
def Bus.acquire (b : Bus) (thread : BusThread) (entered : Bus → Bus) : Bus :=
  if b.holder = none then entered { b with holder := some thread } else b

/-- A sector access, which takes no lock. A read that fails leaves the caller a zero. -/
def performAct (act : ConsoleAct) (hw : Machine) (seen : List Int) : Machine × List Int :=
  match act with
  | .readSector track cylinder sector =>
    (hw, seen ++ [(readSector track cylinder sector hw).getD 0])
  | .writeSector track cylinder sector data =>
    ((writeSector track cylinder sector data hw).getD hw, seen)
  | .writeWord physAddr data => (orUnchanged (dmaWriteMemory physAddr data hw) hw, seen)

/-- The CPU thread takes an instruction. Of SDMAON this is the part before the lock. Any other
instruction is one step here, whoever holds the lock: `readMemory` and `writeMemory` take it around
the only access to RAM that such an instruction makes, so that what the code orders by the lock is
some of what these steps may do in any order. -/
def beginInstruction (u : Unspecified) (inst : Instruction) (b : Bus) : Bus :=
  if b.processor ≠ .elsewhere then b
  else if inst.opCode = .sdmaon then
    let (operand, hw) := fetchOperand inst b.hw
    { b with
      hw := hw
      processor := .lock
      locals := u
      inst := inst
      fetchFailed := operand.isNone }
  else { b with hw := (handler u inst b.hw).2 }

/-- What follows the waiting loop of `executeDMAInstruction`. -/
def checkFetched (fetchFailed : Bool) (m : Machine) : Machine :=
  if fetchFailed then raiseInterrupt .invalidAddr m else m

/-- One step of the CPU thread in the SDMAON branch of `executeDMAInstruction`. -/
def processorStep (b : Bus) : Bus :=
  match b.processor with
  | .elsewhere => b
  | .lock => b.acquire .processor (fun b => { b with processor := .request })
  | .request => { b with hw.dma.pending := true, processor := .signal }
  | .signal =>
    { b with
      device := match b.device with
        | .waiting => .woken
        | phase => phase
      processor := .unlock }
  | .unlock => { b with holder := none, processor := .spin }
  | .spin =>
    if b.hw.dma.pending then b
    else { b with hw := checkFetched b.fetchFailed b.hw, processor := .elsewhere }

/-- One step of the DMA thread in the loop of `dmaInit`. A step touches at most one thing that
another thread uses meanwhile. -/
def deviceStep (b : Bus) : Bus :=
  let d := b.hw.dma
  match b.device with
  | .lock | .woken => b.acquire .device (fun b => { b with device := .test })
  | .test =>
    if d.pending then { b with device := .start }
    else { b with holder := none, device := .waiting }
  | .waiting => b
  | .start => { b with hw.dma.status := 0, hw.dma.active := true, device := .choose }
  | .choose =>
    if d.ioDirection = 1 then { b with device := .release .read }
    else { b with device := .release (.write (b.hw.disk d.track d.cylinder d.sector)) }
  | .release access => { b with holder := none, device := .enter access }
  | .enter access => b.acquire .device (fun b => { b with device := .access access })
  | .access .read =>
    { b with device := .leave ((dmaReadMemory d.memAddr b.hw).map some) }
  | .access (.write data) =>
    match dmaWriteMemory d.memAddr data b.hw with
    | .ok hw => { b with hw := hw, device := .leave (.ok none) }
    | .error status => { b with device := .leave (.error status) }
  | .leave result => { b with holder := none, device := .relock result }
  | .relock result => b.acquire .device (fun b => { b with device := .store result })
  | .store (.ok (some data)) =>
    { b with hw := storeSector d.track d.cylinder d.sector data b.hw, device := .report false }
  | .store (.ok none) => { b with device := .report false }
  | .store (.error _) => { b with device := .report true }
  | .report failed =>
    let hw := if failed then raiseInterrupt .invalidAddr { b.hw with dma.status := 1 }
      else raiseInterrupt .ioDone b.hw
    { b with hw := { hw with dma.active := false }, device := .complete }
  | .complete => { b with hw.dma.pending := false, device := .unlock }
  | .unlock => { b with holder := none, device := .lock }

/-- The console thread starts something. -/
def beginAct (act : ConsoleAct) (b : Bus) : Bus :=
  match b.console, act with
  | .idle, .writeWord physAddr data => { b with console := .enter physAddr data }
  | .idle, act =>
    let (hw, seen) := performAct act b.hw b.seen
    { b with hw := hw, seen := seen }
  | _, _ => b

def consoleStep (b : Bus) : Bus :=
  match b.console with
  | .idle => b
  | .enter physAddr data =>
    b.acquire .console (fun b => { b with console := .access physAddr data })
  | .access physAddr data =>
    { b with hw := (performAct (.writeWord physAddr data) b.hw b.seen).1, console := .leave }
  | .leave => { b with holder := none, console := .idle }

inductive BusEvent where
  | instruction (u : Unspecified) (inst : Instruction)
  | processor
  | device
  | spurious
  | act (act : ConsoleAct)
  | console

/-- The threads take their steps in any order; `pthread_cond_wait` may return with no signal. -/
def busNext (b : Bus) : BusEvent → Bus
  | .instruction u inst => beginInstruction u inst b
  | .processor => processorStep b
  | .device => deviceStep b
  | .spurious =>
    match b.device with
    | .waiting => { b with device := .woken }
    | _ => b
  | .act act => beginAct act b
  | .console => consoleStep b

/-- The bus when the DMA thread enters its loop, the registers of the device reset. -/
def busStart (hw : Machine) : Bus where
  hw := { hw with dma := dmaReset }
  holder := none
  processor := .elsewhere
  locals := ⟨0, 0, 0, 0, []⟩
  inst := ⟨.invalid, .invalid, 0⟩
  fetchFailed := false
  device := .lock
  console := .idle
  seen := []

end Lucario
