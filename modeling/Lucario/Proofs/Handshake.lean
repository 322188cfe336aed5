import Lucario.Bus
import Lucario.Lib.Simulation
import Lucario.Proofs.DmaProgramming
import Lucario.Proofs.Sessions

namespace Lucario.Proofs

/-- The CPU thread is in the critical section of SDMAON. -/
def ProcessorInside : ProcessorPhase → Prop
  | .request | .signal | .unlock => True
  | _ => False

def DeviceInside : DevicePhase → Prop
  | .lock | .waiting | .woken | .enter _ | .relock _ => False
  | _ => True

def ConsoleInside : ConsolePhase → Prop
  | .access _ _ | .leave => True
  | _ => False

def Serving : DevicePhase → Prop
  | .lock | .test | .waiting | .woken | .unlock => False
  | _ => True

def Accessed : DevicePhase → Prop
  | .leave _ | .relock _ | .store _ | .report _ | .complete => True
  | _ => False

/-- What holds between the threads in every state: the lock excludes, the device works only while
the CPU thread waits for it, and a thread that waits for a signal has one coming. -/
structure Coherent (b : Bus) : Prop where
  processor : ProcessorInside b.processor ↔ b.holder = some .processor
  device : DeviceInside b.device ↔ b.holder = some .device
  console : ConsoleInside b.console ↔ b.holder = some .console
  requested : b.hw.dma.pending = true →
    b.processor = .signal ∨ b.processor = .unlock ∨ b.processor = .spin
  request : b.processor = .signal ∨ b.processor = .unlock → b.hw.dma.pending = true
  serving : Serving b.device → b.processor = .spin ∧ b.hw.dma.pending = true
  notified : b.device = .waiting → b.hw.dma.pending = true → b.processor = .signal

section

variable {b : Bus} {u : Unspecified} {inst : Instruction} {m : Machine}

theorem start_coherent (hw : Machine) : Coherent (busStart hw) := by
  refine ⟨?_, ?_, ?_, ?_, ?_, ?_, ?_⟩ <;>
    simp [busStart, ProcessorInside, DeviceInside, ConsoleInside, Serving, dmaReset]

/-- Only SDMAON makes a request. -/
theorem handler_pending (hop : inst.opCode ≠ .sdmaon) :
    (handler u inst m).2.dma.pending = m.dma.pending := by
  by_cases hdma : ForDma inst.opCode
  · have hkept := (fetch_operand_kept inst m).2.2
    rw [dma_handler u m hdma]
    generalize hf : fetchOperand inst m = f at hkept
    obtain ⟨operand, n⟩ := f
    rcases dma_execute_eq u inst hf hdma rfl with ⟨-, -, he⟩ | ⟨-, -, he⟩ | ⟨-, -, k, hset, -, he⟩
    · rw [he, ← hkept]
      rfl
    · rw [he, ← hkept]
      rfl
    · have kept : ∀ (c : Cpu) (v : Int) (d : Dma) (op : OpCode), op ≠ .sdmaon →
          (programmed c v d op).pending = d.pending := by
        intro c v d op hop
        cases op <;> first | rfl | exact absurd rfl hop
      have hk : k.dma.pending = m.dma.pending := by
        rw [hset hop, ← hkept]
        exact kept _ _ _ _ hop
      rw [he]
      split_ifs <;> exact hk
  · rw [handler_dma u m hdma]

theorem fetch_pending : (fetchOperand inst m).2.dma.pending = m.dma.pending :=
  congrArg Dma.pending (fetch_operand_kept inst m).2.2

theorem instruction_coherent (h : Coherent b) : Coherent (beginInstruction u inst b) := by
  unfold beginInstruction
  split_ifs with hp hop
  · exact h
  · have idle : b.processor = .elsewhere := not_not.mp hp
    have quiet : ¬ b.hw.dma.pending = true := fun hreq => by simpa [idle] using h.requested hreq
    have free : ¬ b.holder = some .processor := by
      rw [← h.processor, idle]
      exact id
    have fetched : ¬ (fetchOperand inst b.hw).2.dma.pending = true := by rwa [fetch_pending]
    refine ⟨⟨False.elim, fun hh => absurd hh free⟩, h.device, h.console,
      fun hreq => absurd hreq fetched, ?_, fun hs => ?_, fun _ hreq => absurd hreq fetched⟩
    · simp
    · simpa [idle] using (h.serving hs).1
  · have kept := handler_pending (u := u) (m := b.hw) hop
    exact ⟨h.processor, h.device, h.console, fun hreq => h.requested (kept ▸ hreq),
      fun hp => kept ▸ h.request hp, fun hs => by rw [kept]; exact h.serving hs,
      fun hw hreq => h.notified hw (kept ▸ hreq)⟩

theorem processor_coherent (h : Coherent b) : Coherent (processorStep b) := by
  obtain ⟨hw, holder, processor, locals, inst, failed, device, console, seen⟩ := b
  obtain ⟨hproc, hdev, hcon, hreq, hset, hserve, hnot⟩ := h
  dsimp only at *
  unfold processorStep Bus.acquire
  cases processor with
  | elsewhere => exact ⟨hproc, hdev, hcon, hreq, hset, hserve, hnot⟩
  | lock =>
    dsimp only
    split_ifs with hfree
    · subst hfree
      constructor <;> simp_all [ProcessorInside]
    · exact ⟨hproc, hdev, hcon, hreq, hset, hserve, hnot⟩
  | request => 
    constructor <;> simp_all [ProcessorInside]
  | signal => 
    cases device <;> constructor <;> simp_all [ProcessorInside, DeviceInside, Serving]
  | unlock => constructor <;> simp_all [ProcessorInside]
  | spin =>
    dsimp only
    split_ifs with hpend
    · exact ⟨hproc, hdev, hcon, hreq, hset, hserve, hnot⟩
    · have kept : (checkFetched failed hw).dma = hw.dma := by
        unfold checkFetched
        split_ifs <;> rfl
      constructor <;> simp_all [ProcessorInside]

theorem device_coherent (h : Coherent b) : Coherent (deviceStep b) := by
  obtain ⟨hw, holder, processor, locals, inst, failed, device, console, seen⟩ := b
  obtain ⟨hproc, hdev, hcon, hreq, hset, hserve, hnot⟩ := h
  dsimp only at *
  unfold deviceStep Bus.acquire
  have same : Coherent ⟨hw, holder, processor, locals, inst, failed, device, console, seen⟩ :=
    ⟨hproc, hdev, hcon, hreq, hset, hserve, hnot⟩
  cases device with
  | lock | woken | enter | relock =>
    dsimp only
    split_ifs with hfree
    · subst hfree
      constructor <;> simp_all [DeviceInside, Serving]
    · exact same
  | waiting => exact same
  | test =>
    dsimp only
    split_ifs with hpend
    · have spins : processor = .spin := by
        rcases hreq hpend with hp | hp | hp
        · simp_all [ProcessorInside, DeviceInside]
        · simp_all [ProcessorInside, DeviceInside]
        · exact hp
      constructor <;> simp_all [DeviceInside]
    · constructor <;> simp_all [DeviceInside, Serving]
  | choose =>
    dsimp only
    split_ifs <;> constructor <;> simp_all [DeviceInside, Serving]
  | access access =>
    cases access with
    | read => constructor <;> simp_all [DeviceInside, Serving]
    | write data =>
      dsimp only [dmaWriteMemory]
      by_cases hv : isPhysicalAddressValid hw.dma.memAddr
      · rw [if_neg (not_not.mpr hv)]
        constructor <;> simp_all [DeviceInside, Serving, storeRam]
      · rw [if_pos hv]
        constructor <;> simp_all [DeviceInside, Serving]
  | store result =>
    rcases result with status | data
    · constructor <;> simp_all [DeviceInside, Serving]
    · cases data <;> constructor <;> simp_all [DeviceInside, Serving, storeSector]
  | report failed =>
    cases failed <;> constructor <;> simp_all [DeviceInside, Serving, raiseInterrupt]
  | start | release | leave | complete | unlock =>
    constructor <;> simp_all [DeviceInside, Serving]

/-- The console does not reach the device's registers. -/
theorem perform_dma (act : ConsoleAct) (hw : Machine) (seen : List Int) :
    (performAct act hw seen).1.dma = hw.dma := by
  cases act with
  | readSector track cylinder sector => rfl
  | writeSector track cylinder sector data =>
    dsimp only [performAct, writeSector]
    split_ifs <;> rfl
  | writeWord physAddr data =>
    dsimp only [performAct, dmaWriteMemory]
    split_ifs <;> rfl

theorem act_coherent (h : Coherent b) (act : ConsoleAct) : Coherent (beginAct act b) := by
  obtain ⟨hw, holder, processor, locals, inst, failed, device, console, seen⟩ := b
  have accessed : Coherent ⟨(performAct act hw seen).1, holder, processor, locals, inst, failed,
      device, console, (performAct act hw seen).2⟩ := by
    obtain ⟨hproc, hdev, hcon, hreq, hset, hserve, hnot⟩ := h
    constructor <;> simp_all [perform_dma]
  unfold beginAct
  cases console with
  | idle =>
    cases act with
    | readSector | writeSector => exact accessed
    | writeWord physAddr data =>
      exact ⟨h.processor, h.device, h.console, h.requested, h.request, h.serving, h.notified⟩
  | enter | access | leave => exact h

theorem console_coherent (h : Coherent b) : Coherent (consoleStep b) := by
  obtain ⟨hw, holder, processor, locals, inst, failed, device, console, seen⟩ := b
  have same := h
  obtain ⟨hproc, hdev, hcon, hreq, hset, hserve, hnot⟩ := h
  dsimp only at *
  unfold consoleStep Bus.acquire
  cases console with
  | idle => exact same
  | enter physAddr data =>
    dsimp only
    split_ifs with hfree
    · subst hfree
      constructor <;> simp_all [ConsoleInside]
    · exact same
  | access physAddr data => constructor <;> simp_all [ConsoleInside, perform_dma]
  | leave => constructor <;> simp_all [ConsoleInside]

/-- Whatever thread takes whatever step. -/
theorem bus_next_coherent (h : Coherent b) (e : BusEvent) : Coherent (busNext b e) := by
  cases e with
  | instruction u inst => exact instruction_coherent h
  | processor => exact processor_coherent h
  | device => exact device_coherent h
  | spurious =>
    obtain ⟨hw, holder, processor, locals, inst, failed, device, console, seen⟩ := b
    unfold busNext
    cases device with
    | waiting =>
      obtain ⟨hproc, hdev, hcon, hreq, hset, hserve, hnot⟩ := h
      constructor <;> simp_all [DeviceInside, Serving]
    | _ => exact h
  | act act => exact act_coherent h act
  | console => exact console_coherent h

end

/-- What happens on a bus whose instructions are never interrupted, SDMAON included. -/
inductive AtomicEvent where
  | instruction (u : Unspecified) (inst : Instruction)
  | act (act : ConsoleAct)

def AtomicEvent.IsInstruction : AtomicEvent → Bool
  | .instruction _ _ => true
  | .act _ => false

def atomicNext (a : Machine × List Int) : AtomicEvent → Machine × List Int
  | .instruction u inst => ((handler u inst a.1).2, a.2)
  | .act act => performAct act a.1 a.2

/-- Where each instruction and each act takes effect: an SDMAON when the device makes its access to
RAM, a write to RAM inside the critical section. -/
def takesEffect (b : Bus) : BusEvent → List AtomicEvent
  | .instruction u inst =>
    if b.processor = .elsewhere ∧ inst.opCode ≠ .sdmaon then [.instruction u inst] else []
  | .device =>
    match b.device with
    | .access _ => [.instruction b.locals b.inst]
    | _ => []
  | .act act =>
    match b.console, act with
    | .idle, .writeWord _ _ => []
    | .idle, act => [.act act]
    | _, _ => []
  | .console =>
    match b.console with
    | .access physAddr data => [.act (.writeWord physAddr data)]
    | _ => []
  | _ => []

/-- The instructions and acts that the two threads begin. -/
def begun (b : Bus) : BusEvent → List AtomicEvent
  | .instruction u inst => if b.processor = .elsewhere then [.instruction u inst] else []
  | .act act =>
    match b.console with
    | .idle => [.act act]
    | _ => []
  | _ => []

def reported (failed : Bool) (hw : Machine) : Machine :=
  let hw := if failed then raiseInterrupt .invalidAddr { hw with dma.status := 1 }
    else raiseInterrupt .ioDone hw
  { hw with dma.active := false, dma.pending := false }

def completed : DevicePhase → Machine → Machine
  | .leave result, hw | .relock result, hw | .store result, hw =>
    match result with
    | .ok (some data) =>
      reported false (storeSector hw.dma.track hw.dma.cylinder hw.dma.sector data hw)
    | .ok none => reported false hw
    | .error _ => reported true hw
  | .report failed, hw => reported failed hw
  | .complete, hw => { hw with dma.pending := false }
  | _, hw => hw

def requestedAccess (hw : Machine) : DmaAccess :=
  if hw.dma.ioDirection = 1 then .read
  else .write (hw.disk hw.dma.track hw.dma.cylinder hw.dma.sector)

def About (access : DmaAccess) : DevicePhase → Prop
  | .release a | .enter a | .access a => a = access
  | _ => False

def InTransfer : DevicePhase → Prop
  | .release _ | .enter _ | .access _ | .leave _ | .relock _ | .store _ => True
  | _ => False

def Cleared : DevicePhase → Prop
  | .choose | .release _ | .enter _ | .access _ => True
  | _ => False

def NamesSector : ConsoleAct → Nat → Nat → Nat → Prop
  | .readSector track cylinder sector, t, c, s => track = t ∧ cylinder = c ∧ sector = s
  | .writeSector track cylinder sector _, t, c, s => track = t ∧ cylinder = c ∧ sector = s
  | .writeWord _ _, _, _, _ => False

def sectorStored (track cylinder sector : Nat) (data : Int) (disk : Nat → Nat → Nat → Int) :
    Nat → Nat → Nat → Int :=
  fun t c s => if t = track ∧ c = cylinder ∧ s = sector then data else disk t c s

/-- Between the moment the DMA thread decides on an access and the one it stores what it has read
the console leaves the sector alone. -/
def SparesSector (b : Bus) : BusEvent → Prop
  | .act act => InTransfer b.device →
      ¬ NamesSector act b.hw.dma.track b.hw.dma.cylinder b.hw.dma.sector
  | _ => True

/-- The CPU thread has fetched for an SDMAON that the atomic bus, in `m`, has still to execute. -/
structure Requested (b : Bus) (m : Machine) : Prop where
  opCode : b.inst.opCode = .sdmaon
  access : ∀ access, About access b.device → access = requestedAccess b.hw
  cleared : Cleared b.device → b.hw.dma.status = 0
  failed : b.fetchFailed = (fetchOperand b.inst m).1.isNone
  machine : ∃ status active pending, b.hw = { (fetchOperand b.inst m).2 with
    dma := { m.dma with status := status, active := active, pending := pending } }

/-- The machine of the atomic bus, seen from the real one, and what that bus has still to execute
of what the CPU thread has begun. -/
inductive Linked (b : Bus) : List AtomicEvent → Machine → Prop where
  | idle (hp : b.processor = .elsewhere) : Linked b [] b.hw
  | requested {m : Machine} (hp : b.processor ≠ .elsewhere)
      (hnot : b.processor = .spin → b.hw.dma.pending = true ∧ ¬ Accessed b.device)
      (h : Requested b m) : Linked b [.instruction b.locals b.inst] m
  | served (hp : b.processor = .spin) (hdone : b.hw.dma.pending = true → Accessed b.device) :
      Linked b [] (checkFetched b.fetchFailed (completed b.device b.hw))

section

variable {b : Bus} {u : Unspecified} {inst : Instruction} {m : Machine} {owed : List AtomicEvent}

/-- SDMAON as one step, around its transfer. -/
theorem sdmaon_handler (hop : inst.opCode = .sdmaon) : (handler u inst m).2 =
    checkFetched (fetchOperand inst m).1.isNone
      (dmaTransfer { (fetchOperand inst m).2 with dma.pending := true }) := by
  have hdma : ForDma inst.opCode := by simp [ForDma, hop]
  rw [dma_handler u m hdma]
  generalize hf : fetchOperand inst m = f
  obtain ⟨operand, n⟩ := f
  rcases dma_execute_eq u inst hf hdma rfl with ⟨hout, -⟩ | ⟨hbehind, -⟩ | ⟨-, -, k, -, hon, he⟩
  · simp [OutOfRange, hop] at hout
  · simp [BehindLimit, hop] at hbehind
  · rw [he, hon hop, checkFetched]
    split_ifs <;> rfl

/-- After the access, the rest of the loop makes it the transfer of the atomic bus. -/
theorem access_completes {n : Machine} {status : Nat} {active pending : Bool}
    (hhw : b.hw = { n with
      dma := { n.dma with status := status, active := active, pending := pending } })
    (hdev : b.device = .access (requestedAccess b.hw)) (hstatus : b.hw.dma.status = 0) :
    completed (deviceStep b).device (deviceStep b).hw =
      dmaTransfer { n with dma.pending := true } := by
  obtain ⟨hw, holder, processor, locals, inst, failed, device, console, seen⟩ := b
  dsimp only at hhw hdev hstatus
  subst hhw
  obtain rfl : status = 0 := hstatus
  rw [dma_transfer_eq]
  unfold deviceStep
  rw [hdev]
  dsimp only [requestedAccess]
  by_cases hdir : n.dma.ioDirection = 1
  · rw [if_pos hdir, if_pos hdir]
    dsimp only [dmaReadMemory]
    by_cases hv : isPhysicalAddressValid n.dma.memAddr
    · rw [if_neg (not_not.mpr hv), if_pos hv, if_pos hdir]
      rfl
    · rw [if_pos hv, if_neg hv]
      rfl
  · rw [if_neg hdir, if_neg hdir]
    dsimp only [dmaWriteMemory]
    by_cases hv : isPhysicalAddressValid n.dma.memAddr
    · rw [if_neg (not_not.mpr hv), if_pos hv, if_neg hdir]
      rfl
    · rw [if_pos hv, if_neg hv]
      rfl

/-- The further steps of the DMA thread do what is left to be done. -/
theorem served_step (hacc : Accessed b.device) :
    completed (deviceStep b).device (deviceStep b).hw = completed b.device b.hw := by
  obtain ⟨hw, holder, processor, locals, inst, failed, device, console, seen⟩ := b
  unfold deviceStep Bus.acquire
  cases device with
  | leave => rfl
  | relock =>
    dsimp only
    split_ifs <;> rfl
  | store result =>
    rcases result with status | data
    · rfl
    · cases data <;> rfl
  | report failed =>
    cases failed <;> rfl
  | complete => rfl
  | _ => exact absurd hacc id

/-- What an act does to RAM and the disk and what it reads, each a function of its own. One that
names another sector is indifferent to the content of this one. -/
theorem perform_eq (act : ConsoleAct) : ∃ (ram : (Int → Int) → Int → Int)
    (disk : (Nat → Nat → Nat → Int) → Nat → Nat → Nat → Int)
    (read : (Nat → Nat → Nat → Int) → List Int),
    (∀ hw seen, performAct act hw seen =
      ({ hw with ram := ram hw.ram, disk := disk hw.disk }, seen ++ read hw.disk)) ∧
    ∀ t c s, ¬ NamesSector act t c s → ∀ d, disk d t c s = d t c s ∧ ∀ v,
      disk (sectorStored t c s v d) = sectorStored t c s v (disk d) ∧
      read (sectorStored t c s v d) = read d := by
  cases act with
  | readSector track cylinder sector =>
    refine ⟨id, id, fun d => [if ¬ isSector track cylinder sector then 0 else
      d track cylinder sector], fun hw seen => ?_, fun t c s h d => ⟨rfl, fun v => ⟨rfl, ?_⟩⟩⟩
    · dsimp only [performAct, readSector, id]
      split_ifs <;> rfl
    · have hne : ¬ (track = t ∧ cylinder = c ∧ sector = s) := h
      simp only [sectorStored, if_neg hne]
  | writeSector track cylinder sector data =>
    refine ⟨id, fun disk => if ¬ isSector track cylinder sector then disk else
      sectorStored track cylinder sector data disk, fun _ => [], fun hw seen => ?_,
      fun t c s h d => ⟨?_, fun v => ⟨?_, rfl⟩⟩⟩
    · dsimp only [performAct, writeSector, id]
      split_ifs
      · simp only [List.append_nil]
        rfl
      · simp
    · have hne : ¬ (t = track ∧ c = cylinder ∧ s = sector) :=
        fun ⟨h1, h2, h3⟩ => h ⟨h1.symm, h2.symm, h3.symm⟩
      dsimp only
      split_ifs
      · rw [sectorStored, if_neg hne]
      · rfl
    · dsimp only
      split_ifs
      · funext x y z
        simp only [sectorStored]
        split_ifs with h1 h2
        · exact absurd ⟨h1.1.symm.trans h2.1, h1.2.1.symm.trans h2.2.1, h1.2.2.symm.trans h2.2.2⟩ h
        · rfl
        · rfl
        · rfl
      · rfl
  | writeWord physAddr data =>
    refine ⟨fun ram => if ¬ isPhysicalAddressValid physAddr then ram else
      Function.update ram physAddr data, id, fun _ => [], fun hw seen => ?_,
      fun t c s _ d => ⟨rfl, fun v => ⟨rfl, rfl⟩⟩⟩
    dsimp only [performAct, dmaWriteMemory, id]
    split_ifs <;> simp [storeRam, orUnchanged, Except.toOption]

/-- Whether an operand can be fetched does not depend on what memory holds, and neither does what
the attempt leaves. -/
theorem fetch_elsewhere (inst : Instruction) (m : Machine) (ram : Int → Int)
    (disk : Nat → Nat → Nat → Int) :
    (fetchOperand inst { m with ram := ram, disk := disk }).1.isNone =
        (fetchOperand inst m).1.isNone ∧
      (fetchOperand inst { m with ram := ram, disk := disk }).2 =
        { (fetchOperand inst m).2 with ram := ram, disk := disk } := by
  unfold fetchOperand
  cases inst.direction with
  | immediate => exact ⟨rfl, rfl⟩
  | invalid => exact ⟨rfl, rfl⟩
  | direct | indexed =>
    dsimp only
    by_cases ha : Accessible m.cpu (calculateEffectiveAddress m.cpu inst)
    · rw [read_accessible ha, read_accessible (m := { m with ram := ram, disk := disk }) ha]
      exact ⟨rfl, rfl⟩
    · obtain ⟨status, hs⟩ := read_inaccessible ha
      obtain ⟨status', hs'⟩ := read_inaccessible (m := { m with ram := ram, disk := disk }) ha
      rw [hs, hs']
      exact ⟨rfl, rfl⟩

theorem completed_idle (h : ¬ Serving b.device) : completed b.device b.hw = b.hw := by
  cases hd : b.device <;> rw [hd] at h <;> first | rfl | exact absurd trivial h

theorem Coherent.at_rest (h : Coherent b) (hp : b.processor ≠ .spin) : ¬ Serving b.device :=
  fun hs => hp (h.serving hs).1

theorem about_serving {access : DmaAccess} {phase : DevicePhase} (h : About access phase) :
    Serving phase ∧ ¬ Accessed phase := by
  cases phase <;> first | exact ⟨trivial, id⟩ | exact absurd h id

theorem cleared_serving {phase : DevicePhase} (h : Cleared phase) : Serving phase := by
  cases phase <;> first | exact trivial | exact absurd h id

theorem accessed_serving {phase : DevicePhase} (h : Accessed phase) : Serving phase := by
  cases phase <;> first | exact trivial | exact absurd h id

theorem Linked.waiting (h : Linked b owed m) (hp : b.processor ≠ .elsewhere)
    (hs : b.processor ≠ .spin) : Requested b m ∧ owed = [.instruction b.locals b.inst] := by
  cases h with
  | idle hp' => exact absurd hp' hp
  | requested _ _ h => exact ⟨h, rfl⟩
  | served hs' => exact absurd hs' hs

theorem Linked.elsewhere (h : Linked b owed m) (hp : b.processor = .elsewhere) :
    m = b.hw ∧ owed = [] := by
  cases h with
  | idle => exact ⟨rfl, rfl⟩
  | requested hp' => exact absurd hp hp'
  | served hs => rw [hp] at hs; cases hs

/-- While the device is at rest nothing but the machine matters. -/
theorem Requested.at_rest {b' : Bus} (h : Requested b m) (hrest : ¬ Serving b'.device)
    (hinst : b'.inst = b.inst) (hfailed : b'.fetchFailed = b.fetchFailed)
    (hhw : ∃ pending, b'.hw = { b.hw with dma.pending := pending }) : Requested b' m := by
  refine ⟨hinst ▸ h.opCode, fun _ ha => absurd (about_serving ha).1 hrest,
    fun hc => absurd (cleared_serving hc) hrest, by rw [hfailed, hinst, h.failed], ?_⟩
  obtain ⟨status, active, _, hm⟩ := h.machine
  obtain ⟨pending, hhw⟩ := hhw
  refine ⟨status, active, pending, ?_⟩
  rw [hhw, hinst, hm]

/-- The CPU thread begins an instruction: all but SDMAON take effect at once. -/
theorem instruction_linked (hc : Coherent b) (h : Linked b owed m) :
    ∃ owed', Linked (beginInstruction u inst b) owed'
        (Trace.run atomicNext (m, b.seen) (takesEffect b (.instruction u inst))).1 ∧
      takesEffect b (.instruction u inst) ++ owed' = owed ++ begun b (.instruction u inst) := by
  by_cases hp : b.processor = .elsewhere
  · obtain ⟨rfl, rfl⟩ := h.elsewhere hp
    have begins : begun b (.instruction u inst) = [.instruction u inst] := if_pos hp
    by_cases hop : inst.opCode = .sdmaon
    · have rest := hc.at_rest (by rw [hp]; decide)
      have effect : takesEffect b (.instruction u inst) = [] := if_neg (fun h => h.2 hop)
      rw [effect, begins, beginInstruction, if_neg (not_not.mpr hp), if_pos hop]
      refine ⟨_, .requested ProcessorPhase.noConfusion (fun hs => by cases hs)
        ⟨hop, fun _ ha => absurd (about_serving ha).1 rest,
          fun hclear => absurd (cleared_serving hclear) rest, rfl,
          b.hw.dma.status, b.hw.dma.active, b.hw.dma.pending, ?_⟩, rfl⟩
      have kept : (fetchOperand inst b.hw).2.dma = b.hw.dma := (fetch_operand_kept inst b.hw).2.2
      show (fetchOperand inst b.hw).2 = { (fetchOperand inst b.hw).2 with dma := b.hw.dma }
      rw [← kept]
    · have effect : takesEffect b (.instruction u inst) = [.instruction u inst] :=
        if_pos ⟨hp, hop⟩
      rw [effect, begins, beginInstruction, if_neg (not_not.mpr hp), if_neg hop]
      exact ⟨[], .idle hp, rfl⟩
  · have effect : takesEffect b (.instruction u inst) = [] := if_neg (fun h => hp h.1)
    have begins : begun b (.instruction u inst) = [] := if_neg hp
    rw [effect, begins, beginInstruction, if_pos hp]
    exact ⟨owed, h, (List.append_nil _).symm⟩

/-- The handshake of the CPU thread changes nothing but who waits for whom. -/
theorem processor_linked (hc : Coherent b) (h : Linked b owed m) :
    Linked (processorStep b) owed m := by
  unfold processorStep Bus.acquire
  cases hp : b.processor with
  | elsewhere => exact h
  | lock =>
    obtain ⟨asked, rfl⟩ := h.waiting (by rw [hp]; decide) (by rw [hp]; decide)
    have rest := hc.at_rest (by rw [hp]; decide)
    dsimp only
    split_ifs
    · exact .requested ProcessorPhase.noConfusion (fun hs => by cases hs)
        (asked.at_rest rest rfl rfl ⟨_, rfl⟩)
    · exact h
  | request =>
    obtain ⟨asked, rfl⟩ := h.waiting (by rw [hp]; decide) (by rw [hp]; decide)
    exact .requested ProcessorPhase.noConfusion (fun hs => by cases hs)
      (asked.at_rest (hc.at_rest (by rw [hp]; decide)) rfl rfl ⟨true, rfl⟩)
  | signal =>
    obtain ⟨asked, rfl⟩ := h.waiting (by rw [hp]; decide) (by rw [hp]; decide)
    have rest : ¬ Serving (processorStep b).device := by
      rw [processorStep, hp]
      dsimp only
      split
      · exact id
      · exact hc.at_rest (by rw [hp]; decide)
    rw [processorStep, hp] at rest
    exact .requested ProcessorPhase.noConfusion (fun hs => by cases hs)
      (asked.at_rest rest rfl rfl ⟨_, rfl⟩)
  | unlock =>
    obtain ⟨asked, rfl⟩ := h.waiting (by rw [hp]; decide) (by rw [hp]; decide)
    have rest := hc.at_rest (by rw [hp]; decide)
    exact .requested ProcessorPhase.noConfusion
      (fun _ => ⟨hc.request (Or.inr hp), fun ha => rest (accessed_serving ha)⟩)
      (asked.at_rest rest rfl rfl ⟨_, rfl⟩)
  | spin =>
    dsimp only
    split_ifs with hpend
    · exact h
    · cases h with
      | idle hp' => rw [hp] at hp'; cases hp'
      | requested _ hnot => exact absurd (hnot hp).1 hpend
      | served =>
        rw [completed_idle (fun hs => hpend (hc.serving hs).2)]
        exact .idle rfl

/-- The DMA thread has no business with the other threads' variables. -/
theorem device_locals (b : Bus) : (deviceStep b).processor = b.processor ∧
    (deviceStep b).locals = b.locals ∧ (deviceStep b).inst = b.inst ∧
    (deviceStep b).fetchFailed = b.fetchFailed ∧ (deviceStep b).console = b.console ∧
    (deviceStep b).seen = b.seen := by
  unfold deviceStep Bus.acquire
  cases b.device with
  | lock | test | woken | choose | enter | relock =>
    dsimp only
    split_ifs <;> exact ⟨rfl, rfl, rfl, rfl, rfl, rfl⟩
  | access access =>
    cases access with
    | read => exact ⟨rfl, rfl, rfl, rfl, rfl, rfl⟩
    | write data =>
      dsimp only
      split <;> exact ⟨rfl, rfl, rfl, rfl, rfl, rfl⟩
  | store result =>
    rcases result with status | _ | data <;> exact ⟨rfl, rfl, rfl, rfl, rfl, rfl⟩
  | _ => exact ⟨rfl, rfl, rfl, rfl, rfl, rfl⟩

/-- A device at rest leaves the machine alone, and what it does has no effect. -/
theorem device_rests (h : ¬ Serving b.device) : (deviceStep b).hw = b.hw ∧
    takesEffect b .device = [] ∧ ¬ Accessed (deviceStep b).device ∧
    (b.hw.dma.pending = false → ¬ Serving (deviceStep b).device) ∧
    (∀ access, ¬ About access (deviceStep b).device) ∧ ¬ Cleared (deviceStep b).device := by
  obtain ⟨hw, holder, processor, locals, inst, failed, device, console, seen⟩ := b
  unfold deviceStep Bus.acquire takesEffect
  cases device with
  | lock | woken =>
    dsimp only
    split_ifs <;> simp [Accessed, Serving, About, Cleared]
  | test =>
    dsimp only
    split_ifs with hp <;> simp [Accessed, Serving, About, Cleared, hp]
  | waiting | unlock => simp [Accessed, Serving, About, Cleared]
  | _ => exact absurd trivial h

theorem accessed_kept (h : Accessed b.device) : takesEffect b .device = [] ∧
    ((deviceStep b).hw.dma.pending = true → Accessed (deviceStep b).device) := by
  obtain ⟨hw, holder, processor, locals, inst, failed, device, console, seen⟩ := b
  unfold deviceStep Bus.acquire takesEffect
  cases device with
  | leave => simp [Accessed]
  | relock =>
    dsimp only
    split_ifs <;> simp [Accessed]
  | store result =>
    rcases result with status | data
    · simp [Accessed]
    · cases data <;> simp [Accessed]
  | report failed => simp [Accessed]
  | complete => simp
  | _ => exact absurd h id

/-- The access to RAM is where SDMAON takes effect; no other step of the device shows. -/
theorem device_linked (hc : Coherent b) (h : Linked b owed m) :
    ∃ owed', Linked (deviceStep b) owed'
        (Trace.run atomicNext (m, b.seen) (takesEffect b .device)).1 ∧
      takesEffect b .device ++ owed' = owed := by
  obtain ⟨hproc, hlocals, hinst, hff, -, -⟩ := device_locals b
  by_cases hserve : Serving b.device
  swap
  · obtain ⟨hhw, effect, hacc, hrest, habout, hclear⟩ := device_rests hserve
    rw [effect]
    dsimp only [Trace.run, List.foldl_nil, List.nil_append]
    refine ⟨owed, ?_, rfl⟩
    cases h with
    | idle hp =>
      rw [← hhw]
      exact .idle (hproc.trans hp)
    | requested hp hnot h =>
      rw [← hlocals, ← hinst]
      refine .requested (hproc ▸ hp) (fun hs => ⟨?_, hacc⟩) ⟨hinst ▸ h.opCode,
        fun _ ha => absurd ha (habout _), fun hcl => absurd hcl hclear, ?_, ?_⟩
      · rw [hhw]
        exact (hnot (hproc ▸ hs)).1
      · rw [hff, hinst]
        exact h.failed
      · rw [hhw, hinst]
        exact h.machine
    | served hp hdone =>
      have quiet : b.hw.dma.pending = false := by
        by_contra hno
        exact hserve (accessed_serving (hdone (by simpa using hno)))
      rw [completed_idle hserve, ← hhw, ← hff, ← completed_idle (hrest quiet)]
      refine .served (hproc.trans hp) (fun hno => ?_)
      rw [hhw, quiet] at hno
      cases hno
  obtain ⟨hp, hpend⟩ := hc.serving hserve
  have hne : b.processor ≠ .elsewhere := by rw [hp]; decide
  by_cases hacc : Accessed b.device
  · obtain ⟨effect, hdone⟩ := accessed_kept hacc
    rw [effect]
    dsimp only [Trace.run, List.foldl_nil, List.nil_append]
    refine ⟨owed, ?_, rfl⟩
    cases h with
    | idle hp' => exact absurd hp' hne
    | requested _ hnot => exact absurd hacc (hnot hp).2
    | served =>
      rw [← served_step hacc, ← hff]
      exact .served (hproc.trans hp) hdone
  obtain ⟨asked, rfl⟩ : Requested b m ∧ owed = [.instruction b.locals b.inst] := by
    cases h with
    | idle hp' => exact absurd hp' hne
    | requested _ _ h => exact ⟨h, rfl⟩
    | served _ hdone => exact absurd (hdone hpend) hacc
  obtain ⟨hop, haccess, hcleared, hfailed, status, active, pending, hhw⟩ := asked
  cases hd : b.device with
  | start =>
    simp only [takesEffect, deviceStep, hd]
    refine ⟨_, .requested hne (fun _ => ⟨hpend, id⟩) ⟨hop, fun _ => False.elim, fun _ => rfl, hfailed,
      0, true, pending, ?_⟩, rfl⟩
    rw [hhw]
    rfl
  | choose =>
    have hstatus := hcleared (by rw [hd]; trivial)
    simp only [takesEffect, deviceStep, hd]
    split_ifs with hdir
    · refine ⟨_, .requested hne (fun _ => ⟨hpend, id⟩) ⟨hop, ?_, fun _ => hstatus, hfailed, status,
        active, pending, hhw⟩, rfl⟩
      rintro _ rfl
      exact (if_pos hdir).symm
    · refine ⟨_, .requested hne (fun _ => ⟨hpend, id⟩) ⟨hop, ?_, fun _ => hstatus, hfailed, status,
        active, pending, hhw⟩, rfl⟩
      rintro _ rfl
      exact (if_neg hdir).symm
  | release access =>
    have hstatus := hcleared (by rw [hd]; trivial)
    have hrequested := haccess access (by rw [hd]; rfl)
    simp only [takesEffect, deviceStep, hd]
    exact ⟨_, .requested hne (fun _ => ⟨hpend, id⟩) ⟨hop, fun _ ha => ha ▸ hrequested,
      fun _ => hstatus, hfailed, status, active, pending, hhw⟩, rfl⟩
  | enter access =>
    have hstatus := hcleared (by rw [hd]; trivial)
    have hrequested := haccess access (by rw [hd]; rfl)
    simp only [takesEffect, deviceStep, hd, Bus.acquire]
    split_ifs
    · exact ⟨_, .requested hne (fun _ => ⟨hpend, id⟩) ⟨hop, fun _ ha => ha ▸ hrequested,
        fun _ => hstatus, hfailed, status, active, pending, hhw⟩, rfl⟩
    · exact ⟨_, .requested hne (fun _ => ⟨hpend, by rw [hd]; exact id⟩) ⟨hop, haccess, hcleared,
        hfailed, status, active, pending, hhw⟩, rfl⟩
  | access access =>
    have hstatus := hcleared (by rw [hd]; trivial)
    obtain rfl := haccess access (by rw [hd]; rfl)
    have effect : takesEffect b .device = [.instruction b.locals b.inst] := by
      simp only [takesEffect, hd]
    have hdma : (fetchOperand b.inst m).2.dma = m.dma := (fetch_operand_kept b.inst m).2.2
    have completes := access_completes (n := (fetchOperand b.inst m).2) (by rw [hdma]; exact hhw) hd
      hstatus
    have after : Accessed (deviceStep b).device := by
      unfold deviceStep
      rw [hd]
      cases requestedAccess b.hw with
      | read => exact trivial
      | write data =>
        dsimp only
        split <;> exact trivial
    rw [effect]
    dsimp only [Trace.run, List.foldl_cons, List.foldl_nil, atomicNext]
    rw [sdmaon_handler hop, ← completes, ← hfailed, ← hff]
    exact ⟨[], .served (hproc.trans hp) (fun _ => after), rfl⟩
  | lock | test | waiting | woken | unlock =>
    rw [hd] at hserve
    exact hserve.elim
  | leave | relock | store | report | complete =>
    rw [hd] at hacc
    exact absurd trivial hacc

theorem check_fetched_memory (failed : Bool) (hw : Machine) (ram : Int → Int)
    (disk : Nat → Nat → Nat → Int) : checkFetched failed { hw with ram := ram, disk := disk } =
      { checkFetched failed hw with ram := ram, disk := disk } := by
  cases failed <;> rfl

/-- What the device has still to do does not depend on an act that spares its sector. -/
theorem completed_memory {phase : DevicePhase} {hw : Machine} {ram : (Int → Int) → Int → Int}
    {disk : (Nat → Nat → Nat → Int) → Nat → Nat → Nat → Int}
    {read : (Nat → Nat → Nat → Int) → List Int}
    (h : InTransfer phase → ∀ v,
      disk (sectorStored hw.dma.track hw.dma.cylinder hw.dma.sector v hw.disk) =
        sectorStored hw.dma.track hw.dma.cylinder hw.dma.sector v (disk hw.disk) ∧
      read (sectorStored hw.dma.track hw.dma.cylinder hw.dma.sector v hw.disk) = read hw.disk) :
    completed phase { hw with ram := ram hw.ram, disk := disk hw.disk } =
        { completed phase hw with
          ram := ram (completed phase hw).ram, disk := disk (completed phase hw).disk } ∧
      read (completed phase hw).disk = read hw.disk := by
  have settles : ∀ failed, (reported failed hw).disk = hw.disk ∧
      reported failed { hw with ram := ram hw.ram, disk := disk hw.disk } =
        { reported failed hw with
          ram := ram (reported failed hw).ram, disk := disk (reported failed hw).disk } := by
    intro failed
    cases failed <;> exact ⟨rfl, rfl⟩
  have results : ∀ result : DmaResult, (InTransfer phase) →
      phase = .leave result ∨ phase = .relock result ∨ phase = .store result →
      completed phase { hw with ram := ram hw.ram, disk := disk hw.disk } =
        { completed phase hw with
          ram := ram (completed phase hw).ram, disk := disk (completed phase hw).disk } ∧
      read (completed phase hw).disk = read hw.disk := by
    rintro (status | _ | v) hin hphase
    · rcases hphase with rfl | rfl | rfl <;>
        exact ⟨(settles true).2, congrArg read (settles true).1⟩
    · rcases hphase with rfl | rfl | rfl <;>
        exact ⟨(settles false).2, congrArg read (settles false).1⟩
    · obtain ⟨hstore, hread⟩ := h hin v
      have same : disk (reported false (storeSector hw.dma.track hw.dma.cylinder hw.dma.sector v
          hw)).disk = sectorStored hw.dma.track hw.dma.cylinder hw.dma.sector v (disk hw.disk) :=
        hstore
      rcases hphase with rfl | rfl | rfl <;>
      · refine ⟨?_, hread⟩
        dsimp only [completed]
        rw [same]
        rfl
  cases phase with
  | leave result => exact results result trivial (Or.inl rfl)
  | relock result => exact results result trivial (Or.inr (Or.inl rfl))
  | store result => exact results result trivial (Or.inr (Or.inr rfl))
  | report failed => exact ⟨(settles failed).2, congrArg read (settles failed).1⟩
  | _ => exact ⟨rfl, rfl⟩

/-- The console's acts take effect on both buses at the same time. -/
theorem perform_linked (h : Linked b owed m) (act : ConsoleAct) (console : ConsolePhase)
    (hspares : InTransfer b.device →
      ¬ NamesSector act b.hw.dma.track b.hw.dma.cylinder b.hw.dma.sector) :
    Linked { b with
        hw := (performAct act b.hw b.seen).1
        console := console
        seen := (performAct act b.hw b.seen).2 } owed (performAct act m b.seen).1 ∧
      (performAct act m b.seen).2 = (performAct act b.hw b.seen).2 := by
  obtain ⟨ram, disk, read, hperform, hother⟩ := perform_eq act
  simp only [hperform]
  cases h with
  | idle hp => exact ⟨.idle hp, rfl⟩
  | requested hp hnot h =>
    obtain ⟨hop, haccess, hcleared, hfailed, status, active, pending, hhw⟩ := h
    obtain ⟨hfail, hfetch⟩ := fetch_elsewhere b.inst m (ram m.ram) (disk m.disk)
    obtain ⟨hram, hdisk, -⟩ := fetch_operand_kept b.inst m
    have hr : b.hw.ram = m.ram := by
      rw [hhw]
      exact hram
    have hd : b.hw.disk = m.disk := by
      rw [hhw]
      exact hdisk
    refine ⟨.requested hp hnot ⟨hop, ?_, hcleared, hfailed.trans hfail.symm, status, active, pending,
      ?_⟩, by rw [hd]⟩
    · intro access ha
      rw [haccess access ha]
      have hin : InTransfer b.device := by
        dsimp only at ha
        cases hdev : b.device <;> rw [hdev] at ha <;> trivial
      have same := (hother _ _ _ (hspares hin) b.hw.disk).1
      unfold requestedAccess
      dsimp only
      rw [same]
    · dsimp only
      rw [hfetch, hr, hd, hhw]
  | served hp hdone =>
    obtain ⟨hcompleted, hread⟩ := @completed_memory b.device b.hw ram disk read
      (fun hin v => (hother _ _ _ (hspares hin) b.hw.disk).2 v)
    have hmem : (checkFetched b.fetchFailed (completed b.device b.hw)).ram =
        (completed b.device b.hw).ram ∧ (checkFetched b.fetchFailed (completed b.device b.hw)).disk =
        (completed b.device b.hw).disk := by
      cases b.fetchFailed <;> exact ⟨rfl, rfl⟩
    rw [hmem.1, hmem.2, hread]
    refine ⟨?_, rfl⟩
    rw [← check_fetched_memory, ← hcompleted]
    exact .served hp hdone

def owedAct : ConsolePhase → List AtomicEvent
  | .enter physAddr data | .access physAddr data => [.act (.writeWord physAddr data)]
  | .idle | .leave => []

/-- The two buses side by side: they are linked, the console has read the same, and what took effect
on the atomic one is what was begun on the real one, but for what is still owed. -/
structure Abreast (b : Bus) (a : Machine × List Int) (effects begins : List AtomicEvent) : Prop where
  coherent : Coherent b
  linked : ∃ owed, Linked b owed a.1 ∧ effects.filter AtomicEvent.IsInstruction ++ owed =
    begins.filter AtomicEvent.IsInstruction
  seen : a.2 = b.seen
  acts : effects.filter (fun e => !e.IsInstruction) ++ owedAct b.console =
    begins.filter (fun e => !e.IsInstruction)

variable {a : Machine × List Int} {effects begins t g : List AtomicEvent} {b' : Bus} {e : BusEvent}

theorem run_instructions_seen (h : ∀ x ∈ t, x.IsInstruction) :
    (Trace.run atomicNext a t).2 = a.2 := by
  refine Trace.run_invariant (fun c : Machine × List Int => c.2 = a.2) rfl ?_
  intro c x hx hc
  cases x with
  | instruction u inst => exact hc
  | act act => cases h _ hx

theorem filter_instructions (h : ∀ x ∈ t, x.IsInstruction) : t.filter AtomicEvent.IsInstruction = t ∧
    t.filter (fun e => !e.IsInstruction) = [] := by
  refine ⟨List.filter_eq_self.mpr h, List.filter_eq_nil_iff.mpr ?_⟩
  intro x hx
  simp [h x hx]

theorem filter_acts (h : ∀ x ∈ t, x.IsInstruction = false) :
    t.filter AtomicEvent.IsInstruction = [] ∧ t.filter (fun e => !e.IsInstruction) = t := by
  refine ⟨List.filter_eq_nil_iff.mpr ?_, List.filter_eq_self.mpr ?_⟩ <;>
  · intro x hx
    simp [h x hx]

/-- A step of the CPU thread or of the device. -/
theorem Abreast.instructed (h : Abreast b a effects begins) (hc : Coherent b')
    (ht : ∀ x ∈ t, x.IsInstruction) (hg : ∀ x ∈ g, x.IsInstruction)
    (hconsole : b'.console = b.console) (hseen : b'.seen = b.seen)
    (hlinked : ∀ owed, Linked b owed a.1 → ∃ owed',
      Linked b' owed' (Trace.run atomicNext (a.1, b.seen) t).1 ∧ t ++ owed' = owed ++ g) :
    Abreast b' (Trace.run atomicNext a t) (effects ++ t) (begins ++ g) := by
  obtain ⟨owed, linked, hledger⟩ := h.linked
  obtain ⟨owed', linked', hstep⟩ := hlinked owed linked
  refine ⟨hc, ⟨owed', ?_, ?_⟩, ?_, ?_⟩
  · rw [← h.seen] at linked'
    exact linked'
  · rw [List.filter_append, List.filter_append, (filter_instructions ht).1,
      (filter_instructions hg).1, List.append_assoc, hstep, ← List.append_assoc, hledger]
  · rw [run_instructions_seen ht, h.seen, hseen]
  · rw [List.filter_append, List.filter_append, (filter_instructions ht).2,
      (filter_instructions hg).2, List.append_nil, List.append_nil, hconsole]
    exact h.acts

/-- A step of the console thread. -/
theorem Abreast.acted (h : Abreast b a effects begins) (hc : Coherent b')
    (ht : ∀ x ∈ t, x.IsInstruction = false) (hg : ∀ x ∈ g, x.IsInstruction = false)
    (hledger : t ++ owedAct b'.console = owedAct b.console ++ g)
    (hlinked : ∀ owed, Linked b owed a.1 →
      Linked b' owed (Trace.run atomicNext (a.1, b.seen) t).1 ∧
        (Trace.run atomicNext (a.1, b.seen) t).2 = b'.seen) :
    Abreast b' (Trace.run atomicNext a t) (effects ++ t) (begins ++ g) := by
  obtain ⟨owed, linked, hinstructions⟩ := h.linked
  obtain ⟨linked', hseen⟩ := hlinked owed linked
  rw [← h.seen] at linked' hseen
  refine ⟨hc, ⟨owed, linked', ?_⟩, hseen, ?_⟩
  · rw [List.filter_append, List.filter_append, (filter_acts ht).1, (filter_acts hg).1,
      List.append_nil, List.append_nil]
    exact hinstructions
  · rw [List.filter_append, List.filter_append, (filter_acts ht).2, (filter_acts hg).2,
      List.append_assoc, hledger, ← List.append_assoc, h.acts]

/-- The spurious return of a wait does not matter to anybody. -/
theorem woken_linked (hd : b.device = .waiting) (h : Linked b owed m) :
    Linked { b with device := .woken } owed m := by
  cases h with
  | idle hp => exact .idle hp
  | requested hp hnot h =>
    exact .requested hp (fun hs => ⟨(hnot hs).1, id⟩) (h.at_rest id rfl rfl ⟨_, rfl⟩)
  | served hp hdone =>
    rw [hd] at hdone ⊢
    exact .served (b := { b with device := .woken }) hp hdone

theorem instruction_locals (u : Unspecified) (inst : Instruction) (b : Bus) :
    (beginInstruction u inst b).console = b.console ∧
      (beginInstruction u inst b).seen = b.seen := by
  unfold beginInstruction
  split_ifs <;> exact ⟨rfl, rfl⟩

theorem processor_locals (b : Bus) :
    (processorStep b).console = b.console ∧ (processorStep b).seen = b.seen := by
  unfold processorStep Bus.acquire
  cases b.processor with
  | lock | spin =>
    dsimp only
    split_ifs <;> exact ⟨rfl, rfl⟩
  | _ => exact ⟨rfl, rfl⟩

def ByConsole : BusEvent → Bool
  | .act _ | .console => true
  | _ => false

theorem effects_by (b : Bus) (e : BusEvent) :
    (∀ x ∈ takesEffect b e, x.IsInstruction = !ByConsole e) ∧
      ∀ x ∈ begun b e, x.IsInstruction = !ByConsole e := by
  cases e with
  | instruction u inst =>
    simp only [takesEffect, begun]
    constructor <;> split_ifs <;> simp [AtomicEvent.IsInstruction, ByConsole]
  | device =>
    refine ⟨?_, fun x hx => absurd hx List.not_mem_nil⟩
    simp only [takesEffect]
    split <;> simp [AtomicEvent.IsInstruction, ByConsole]
  | act act =>
    simp only [takesEffect, begun]
    constructor <;> split <;> simp [AtomicEvent.IsInstruction, ByConsole]
  | console =>
    refine ⟨?_, fun x hx => absurd hx List.not_mem_nil⟩
    simp only [takesEffect]
    split <;> simp [AtomicEvent.IsInstruction, ByConsole]
  | processor | spurious =>
    exact ⟨fun x hx => absurd hx List.not_mem_nil, fun x hx => absurd hx List.not_mem_nil⟩

theorem act_linked (h : Linked b owed m) {act : ConsoleAct} (hspares : SparesSector b (.act act)) :
    Linked (beginAct act b) owed
        (Trace.run atomicNext (m, b.seen) (takesEffect b (.act act))).1 ∧
      (Trace.run atomicNext (m, b.seen) (takesEffect b (.act act))).2 = (beginAct act b).seen ∧
      takesEffect b (.act act) ++ owedAct (beginAct act b).console =
        owedAct b.console ++ begun b (.act act) := by
  have moved : ∀ console, Linked { b with console := console } owed m := by
    intro console
    cases h with
    | idle hp => exact .idle (b := { b with console := console }) hp
    | requested hp hnot h =>
      exact .requested (b := { b with console := console }) hp hnot
        ⟨h.opCode, h.access, h.cleared, h.failed, h.machine⟩
    | served hp hdone => exact .served (b := { b with console := console }) hp hdone
  unfold beginAct
  cases hcon : b.console with
  | idle =>
    cases act with
    | writeWord physAddr data =>
      simp only [takesEffect, begun, hcon]
      exact ⟨moved _, rfl, rfl⟩
    | readSector | writeSector =>
      obtain ⟨linked, hseen⟩ := perform_linked h _ .idle hspares
      simp only [takesEffect, begun, hcon]
      exact ⟨linked, hseen, rfl⟩
  | enter | access | leave =>
    simp only [takesEffect, begun, hcon]
    exact ⟨h, rfl, rfl⟩

theorem console_linked (h : Linked b owed m) :
    Linked (consoleStep b) owed (Trace.run atomicNext (m, b.seen) (takesEffect b .console)).1 ∧
      (Trace.run atomicNext (m, b.seen) (takesEffect b .console)).2 = (consoleStep b).seen ∧
      takesEffect b .console ++ owedAct (consoleStep b).console = owedAct b.console := by
  unfold consoleStep
  have moved : ∀ holder console, Linked { b with holder := holder, console := console } owed m := by
    intro holder console
    cases h with
    | idle hp => exact .idle (b := { b with holder := holder, console := console }) hp
    | requested hp hnot h =>
      exact .requested (b := { b with holder := holder, console := console }) hp hnot
        ⟨h.opCode, h.access, h.cleared, h.failed, h.machine⟩
    | served hp hdone =>
      exact .served (b := { b with holder := holder, console := console }) hp hdone
  cases hcon : b.console with
  | idle =>
    simp only [takesEffect, hcon]
    exact ⟨h, rfl, rfl⟩
  | enter physAddr data =>
    simp only [takesEffect, hcon, Bus.acquire]
    split_ifs
    · exact ⟨moved _ _, rfl, rfl⟩
    · refine ⟨h, rfl, ?_⟩
      rw [hcon]
      rfl
  | access physAddr data =>
    obtain ⟨linked, hseen⟩ := perform_linked h (.writeWord physAddr data) .leave (fun _ => id)
    simp only [takesEffect, hcon]
    exact ⟨linked, hseen, rfl⟩
  | leave =>
    simp only [takesEffect, hcon]
    exact ⟨moved _ _, rfl, rfl⟩

/-- One event, on both buses. -/
theorem bus_next_abreast (h : Abreast b a effects begins) (hspares : SparesSector b e) :
    Abreast (busNext b e) (Trace.run atomicNext a (takesEffect b e)) (effects ++ takesEffect b e)
      (begins ++ begun b e) := by
  have hc := bus_next_coherent h.coherent e
  obtain ⟨heffects, hbegun⟩ := effects_by b e
  cases e with
  | instruction u inst =>
    obtain ⟨hconsole, hseen⟩ := instruction_locals u inst b
    exact h.instructed hc heffects hbegun hconsole hseen (fun _ => instruction_linked h.coherent)
  | processor =>
    obtain ⟨hconsole, hseen⟩ := processor_locals b
    exact h.instructed hc heffects hbegun hconsole hseen (fun owed linked =>
      ⟨owed, processor_linked h.coherent linked, (List.append_nil _).symm⟩)
  | device =>
    obtain ⟨-, -, -, -, hconsole, hseen⟩ := device_locals b
    refine h.instructed hc heffects hbegun hconsole hseen (fun owed linked => ?_)
    rw [begun, List.append_nil]
    · exact device_linked h.coherent linked
    · exact fun _ _ => BusEvent.noConfusion
    · exact fun _ => BusEvent.noConfusion
  | spurious =>
    have moved : (busNext b .spurious).console = b.console ∧ (busNext b .spurious).seen = b.seen ∧
        ∀ owed, Linked b owed a.1 → Linked (busNext b .spurious) owed a.1 := by
      unfold busNext
      cases hd : b.device with
      | waiting => exact ⟨rfl, rfl, fun _ => woken_linked hd⟩
      | _ => exact ⟨rfl, rfl, fun _ => id⟩
    exact h.instructed hc heffects hbegun moved.1 moved.2.1 (fun owed linked =>
      ⟨owed, moved.2.2 owed linked, (List.append_nil _).symm⟩)
  | act act =>
    obtain ⟨owed, linked, -⟩ := h.linked
    exact h.acted hc heffects hbegun (act_linked linked hspares).2.2
      (fun _ linked => ⟨(act_linked linked hspares).1, (act_linked linked hspares).2.1⟩)
  | console =>
    obtain ⟨owed, linked, -⟩ := h.linked
    refine h.acted hc heffects hbegun ?_
      (fun _ linked => ⟨(console_linked linked).1, (console_linked linked).2.1⟩)
    exact (console_linked linked).2.2.trans (List.append_nil _).symm

theorem start_abreast (hw : Machine) : Abreast (busStart hw) ((busStart hw).hw, []) [] [] :=
  ⟨start_coherent hw, ⟨[], .idle rfl, rfl⟩, rfl, rfl⟩

def effectsBefore (b : Bus) (es : List BusEvent) (i : Nat) : List AtomicEvent :=
  Simulation.shown (fun k => (es[k]?).elim [] (takesEffect (Trace.stateAt busNext b es k))) 0 i

def begunBefore (b : Bus) (es : List BusEvent) (i : Nat) : List AtomicEvent :=
  Simulation.shown (fun k => (es[k]?).elim [] (begun (Trace.stateAt busNext b es k))) 0 i

/-- SDMAON is atomic. However the CPU, DMA and console threads are interleaved, waits ended without
a signal included, every instruction and every access of the console takes effect once and at a
single moment between its begin and its end: whenever the CPU thread is not inside SDMAON, the
machine and all that the console has read are as if they had been executed one after the other,
each transfer at the device's access to RAM. -/
theorem transfer_linearizable (hw : Machine) (es : List BusEvent)
    (hspares : ∀ k e, es[k]? = some e → SparesSector (Trace.stateAt busNext (busStart hw) es k) e)
    {i : Nat} (hi : i ≤ es.length)
    (hp : (Trace.stateAt busNext (busStart hw) es i).processor = .elsewhere) :
    Trace.run atomicNext ((busStart hw).hw, []) (effectsBefore (busStart hw) es i) =
        ((Trace.stateAt busNext (busStart hw) es i).hw,
          (Trace.stateAt busNext (busStart hw) es i).seen) ∧
      (effectsBefore (busStart hw) es i).filter AtomicEvent.IsInstruction =
        (begunBefore (busStart hw) es i).filter AtomicEvent.IsInstruction ∧
      (effectsBefore (busStart hw) es i).filter (fun e => !e.IsInstruction) ++
          owedAct (Trace.stateAt busNext (busStart hw) es i).console =
        (begunBefore (busStart hw) es i).filter (fun e => !e.IsInstruction) := by
  have abreast := @Trace.stateAt_window_index _ _ busNext (busStart hw) es
    (fun k b => Abreast b (Trace.run atomicNext ((busStart hw).hw, [])
      (effectsBefore (busStart hw) es k)) (effectsBefore (busStart hw) es k)
      (begunBefore (busStart hw) es k)) 0 i (Nat.zero_le i) hi (start_abreast hw) (by
        intro k e _ hk he h
        have effect : effectsBefore (busStart hw) es (k + 1) = effectsBefore (busStart hw) es k ++
            takesEffect (Trace.stateAt busNext (busStart hw) es k) e := by
          rw [effectsBefore, Simulation.shown_succ _ (Nat.zero_le k), he]
          rfl
        have begins : begunBefore (busStart hw) es (k + 1) = begunBefore (busStart hw) es k ++
            begun (Trace.stateAt busNext (busStart hw) es k) e := by
          rw [begunBefore, Simulation.shown_succ _ (Nat.zero_le k), he]
          rfl
        rw [effect, begins, Trace.run, List.foldl_append]
        exact bus_next_abreast h (hspares k e he))
  obtain ⟨-, ⟨owed, linked, hledger⟩, hseen, hacts⟩ := abreast
  obtain ⟨hm, rfl⟩ := linked.elsewhere hp
  exact ⟨Prod.ext hm hseen, (List.append_nil _).symm.trans hledger, hacts⟩

/-- A transfer from the disk during which the console writes elsewhere, and waits for the lock. -/
def transferAmongWrites : List BusEvent :=
  [.instruction ⟨0, 0, 0, 0, []⟩ ⟨.sdmaon, .immediate, 0⟩, .device, .device, .processor,
    .act (.writeWord 5 7), .console, .processor, .processor, .processor, .device, .device, .device,
    .device, .device, .console, .device, .console, .console] ++
    List.replicate 7 .device ++ [.processor]

theorem transfer_linearizable_among_writes :
    (Trace.run atomicNext ((busStart { (powerOn zeroKeys).hw with disk := fun _ _ _ => 42 }).hw, [])
      (effectsBefore (busStart { (powerOn zeroKeys).hw with disk := fun _ _ _ => 42 })
        transferAmongWrites 26)).1.ram 0 = 42 := by
  have spares : ∀ k e, transferAmongWrites[k]? = some e → SparesSector (Trace.stateAt busNext
      (busStart { (powerOn zeroKeys).hw with disk := fun _ _ _ => 42 }) transferAmongWrites k) e := by
    intro k e he
    have hk : k < 26 := (List.getElem?_eq_some_iff.mp he).1
    interval_cases k <;> cases he <;> first | trivial | exact fun _ => id
  rw [(transfer_linearizable _ _ spares (i := 26) (by decide) (by decide +kernel)).1]
  decide +kernel

end

end Lucario.Proofs
