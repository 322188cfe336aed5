import Lucario.Core

namespace Lucario

/-- Where the worker thread stands in the loop of `cpuThreadWorker`: at its head, or in a
termination before `freeMemory`, before the slot is marked as finished, before the tick. -/
inductive WorkerPhase where
  | running | stopped | released | finished
  deriving DecidableEq, Repr

/-- The system with the worker thread possibly in the middle of an iteration. -/
structure Threads where
  system : System
  phase : WorkerPhase

/-- The next step of the worker thread; a termination takes four. -/
def workerAdvance (u : Unspecified) (t : Threads) : Threads :=
  match t.phase with
  | .running =>
    if t.system.kernel.currentActiveProcess ≠ -1 then
      match cpuStep u t.system with
      | (false, s) => ⟨s, .stopped⟩
      | (true, s) =>
        if s.kernel.osYield then
          ⟨schedulerTick { s with kernel := { s.kernel with osYield := false } }, .running⟩
        else ⟨s, .running⟩
    else ⟨schedulerTick t.system, .running⟩
  | .stopped => ⟨releaseMemory t.system, .released⟩
  | .released => ⟨markFinished t.system, .finished⟩
  | .finished => ⟨schedulerTick t.system, .running⟩

/-- The console thread creates processes and opens and closes the monitor meanwhile. -/
inductive ThreadEvent where
  | worker (u : Unspecified)
  | create (host : Host) (u : Unspecified) (progName : List Char)
  | monitor (active : Bool)

def threadNext (t : Threads) : ThreadEvent → Threads
  | .worker u => workerAdvance u t
  | .create host u progName => ⟨(createProcess host u progName t.system).2, t.phase⟩
  | .monitor active =>
    ⟨{ t.system with monitor := { t.system.monitor with active := active } }, t.phase⟩

end Lucario
