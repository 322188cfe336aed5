import Lucario.Interrupts
import Lucario.Partitions
import Lucario.Scheduler
import Lucario.Vfs

namespace Lucario

/-- `OSStatus_t`, as far as `createProcess` returns it. -/
inductive OsStatus where
  | success | maxProcesses | memory | disk
  deriving DecidableEq, Repr

/-- The coordinates of the reading loop of `createProcess`. -/
structure SectorCursor where
  track : Nat
  cylinder : Nat
  sector : Nat

/-- The carry of `createProcess` over its `uint8_t` coordinates. -/
def SectorCursor.advance (c : SectorCursor) : SectorCursor :=
  let sector := (c.sector + 1) % 256
  if diskSectors ≤ sector then
    let cylinder := (c.cylinder + 1) % 256
    if diskCylinders ≤ cylinder then ⟨(c.track + 1) % 256, 0, 0⟩
    else ⟨c.track, cylinder, 0⟩
  else ⟨c.track, c.cylinder, sector⟩

/-- The loop of `createProcess` from word `i` on, `count` words before its end. -/
def loadImage (rb : Int) : Nat → Int → SectorCursor → Machine → Machine
  | 0, _, _, m => m
  | count + 1, i, c, m =>
    let data := (readSector c.track c.cylinder c.sector m).getD 0
    loadImage rb count (i + 1) c.advance (orUnchanged (dmaWriteMemory (rb + i) data m) m)

/-- The index of the first finished slot, -1 when there is none. -/
def getFreePCBIndex (k : Kernel) : Int :=
  match (List.range maxProcesses).find?
    (fun (i : Nat) => (k.processTable i).state = .finished) with
  | some i => i
  | none => -1

/-- The context `createProcess` builds in the PCB. -/
def initialContext (entry : FileMeta) (rb requiredBlocks : Int) : Cpu :=
  { Cpu.zero with
    rb := rb
    rl := getLimitRegister rb requiredBlocks
    rx := entry.wordCount
    sp := requiredBlocks * partitionSize - 1
    psw := ⟨.zero, .user, .enabled, entry.startPC - 1⟩
    timerLimit := 2 }

def System.setState (i : Int) (state : ProcessState) (s : System) : System :=
  s.modifyProcess i (fun p => { p with state := state })

def createProcess (host : Host) (u : Unspecified) (progName : List Char) (s : System) :
    OsStatus × System :=
  let pcbIndex := getFreePCBIndex s.kernel
  if pcbIndex = -1 then (.maxProcesses, s)
  else
    let s := s.setState pcbIndex .new
    let (status, s) :=
      if vfsFileExists progName s.vfs then (.success, s) else vfsLoadToDisk host u progName s
    if status ≠ .success then (.disk, s.setState pcbIndex .finished)
    else
      match vfsGetMetadata progName s.vfs with
      | none => (.disk, s.setState pcbIndex .finished)
      | some entry =>
        let requiredBlocks := calculateRequiredBlocks entry.wordCount
        let (startBlock, free) := allocateMemory requiredBlocks s.kernel.freePartitions
        let s := { s with kernel := { s.kernel with freePartitions := free } }
        if startBlock = -1 then (.memory, s.setState pcbIndex .finished)
        else
          let rb := getBaseRegister startBlock
          let cursor := ⟨entry.startTrack, entry.startCylinder, entry.startSector⟩
          let s := { s with hw := loadImage rb entry.wordCount.toNat 0 cursor s.hw }
          let s := s.modifyProcess pcbIndex (fun _ =>
            { pid := s.kernel.nextPid
              state := .ready
              context := initialContext entry rb requiredBlocks
              programName := strncpy255 entry.programName
              startBlock := startBlock
              blockCount := requiredBlocks
              sleepTics := 0 })
          (.success, { s with kernel := { s.kernel with nextPid := s.kernel.nextPid + 1 } })

def initOS (s : System) : System :=
  { s with kernel := { forEachProcess (fun p => { p with state := .finished, pid := -1 }) s.kernel with
      freePartitions := setPartitions true 0 maxProcesses s.kernel.freePartitions
      nextPid := 1
      currentActiveProcess := -1 } }

def cpuReset (m : Machine) : Machine :=
  { m with cpu := Cpu.zero, interruptBitmap := ∅, interruptValue := 0 }

def handleRestartCommand (s : System) : System :=
  initOS { s with
    hw := memoryReset (cpuReset s.hw)
    kernel := { s.kernel with osYield := false } }

/-- The first step of a termination in `cpuThreadWorker`. -/
def releaseMemory (s : System) : System :=
  let p := s.kernel.processTable s.kernel.currentActiveProcess
  { s with kernel := { s.kernel with freePartitions :=
    (freeMemory p.startBlock p.blockCount s.kernel.freePartitions).getD s.kernel.freePartitions } }

/-- The second step of a termination in `cpuThreadWorker`. -/
def markFinished (s : System) : System :=
  let s := s.setState s.kernel.currentActiveProcess .finished
  { s with kernel := { s.kernel with osYield := false } }

/-- One iteration of `cpuThreadWorker` up to its `schedulerTick`, and whether it makes one. -/
def workerStep (u : Unspecified) (s : System) : Bool × System :=
  if s.kernel.currentActiveProcess ≠ -1 then
    match cpuStep u s with
    | (false, s) => (true, markFinished (releaseMemory s))
    | (true, s) =>
      if s.kernel.osYield then (true, { s with kernel := { s.kernel with osYield := false } })
      else (false, s)
  else (true, s)

def workerIteration (u : Unspecified) (s : System) : System :=
  match workerStep u s with
  | (true, s) => schedulerTick s
  | (false, s) => s

/-- What can happen between two observations of the system, each taken as one step. -/
inductive Event where
  | create (host : Host) (u : Unspecified) (progName : List Char)
  | worker (u : Unspecified)
  | monitor (active : Bool)
  | restart

def next (s : System) : Event → System
  | .create host u progName => (createProcess host u progName s).2
  | .worker u => workerIteration u s
  | .monitor active => { s with monitor := { s.monitor with active := active } }
  | .restart => handleRestartCommand s

/-- The globals as the loader leaves them, with what will be typed on the keyboard. -/
def powerOn (keyboard : Nat → Int) : System where
  hw := {
    cpu := Cpu.zero
    ram := fun _ => 0
    disk := fun _ _ _ => 0
    dma := dmaReset
    interruptBitmap := ∅
    interruptValue := 0 }
  kernel := {
    processTable := fun _ => ⟨0, .new, Cpu.zero, [], 0, 0, 0⟩
    currentActiveProcess := -1
    osYield := false
    nextPid := 1
    freePartitions := fun _ => false }
  vfs := Vfs.empty
  monitor := ⟨false, fun _ => [], 0, [], keyboard⟩

/-- The system `main` hands to the worker thread and the console. -/
def boot (keyboard : Nat → Int) : System := initOS (powerOn keyboard)

end Lucario
