import Lucario.Proofs.Scheduling

namespace Lucario.Proofs

/-- The instruction a processor step gets to execute and the machine it executes it on. -/
def fetched (m : Machine) : Option (Instruction × Machine) :=
  match fetch m with
  | (.ok, n) => some (decode n.cpu, n)
  | (.stop, _) => none

def afterInstruction (u : Unspecified) (inst : Instruction) (m : Machine) : Machine :=
  countCycle (handler u inst m).2

theorem cpu_step_fetched {s : System} {inst : Instruction} {m : Machine} (u : Unspecified)
    (h : fetched s.hw = some (inst, m)) :
    cpuStep u s = checkInterrupts u { s with hw := afterInstruction u inst m } := by
  unfold fetched at h
  unfold cpuStep
  generalize fetch s.hw = r at h ⊢
  obtain ⟨status, n⟩ := r
  cases status with
  | ok =>
    obtain ⟨rfl, rfl⟩ := Prod.mk.inj (Option.some.inj h)
    rfl
  | stop => cases h

/-- A failed fetch ends the process without touching what is pending. -/
theorem cpu_step_unfetched {s : System} (u : Unspecified) (h : fetched s.hw = none) :
    cpuStep u s = (false, { s with hw := { s.hw with cpu.mar := s.hw.cpu.psw.pc } }) := by
  unfold fetched fetch at h
  unfold cpuStep fetch
  dsimp only at h ⊢
  generalize readMemory s.hw.cpu.psw.pc { s.hw with cpu.mar := s.hw.cpu.psw.pc } = r at h ⊢
  cases r with
  | ok w => cases h
  | error status => rfl

theorem fetched_machine {m n : Machine} {inst : Instruction} (h : fetched m = some (inst, n)) :
    ∃ w, m.ram (translate m.cpu m.cpu.psw.pc) = w ∧ Accessible m.cpu m.cpu.psw.pc ∧
      n = { m with cpu := { m.cpu with
        mar := m.cpu.psw.pc, mdr := w, ir := w, psw.pc := m.cpu.psw.pc + 1 } } ∧
      inst = decode n.cpu := by
  unfold fetched fetch at h
  dsimp only at h
  have hread := read_congr { m with cpu.mar := m.cpu.psw.pc } m ⟨rfl, rfl, rfl⟩ rfl m.cpu.psw.pc
  rw [hread] at h
  by_cases ha : Accessible m.cpu m.cpu.psw.pc
  · rw [read_accessible ha] at h
    obtain ⟨hi, hn⟩ := Prod.mk.inj (Option.some.inj h)
    refine ⟨_, rfl, ha, hn.symm, ?_⟩
    rw [← hi, ← hn]
  · obtain ⟨status, hs⟩ := read_inaccessible ha
    rw [hs] at h
    cases h

theorem count_cycle_cpu (m : Machine) :
    ∃ y, (countCycle m).cpu = { m.cpu with cyclesCounter := y } := by
  unfold countCycle
  dsimp only
  split_ifs
  · exact ⟨_, rfl⟩
  · exact ⟨_, rfl⟩

theorem restore_machine (code : InterruptCode) (m : Machine) :
    restoreContext code m = { m with cpu := (restoreContext code m).cpu } := by
  unfold restoreContext internalPop
  dsimp only
  split_ifs <;> rfl

/-- Leaving a handler rewrites the registers and takes the interrupt, and nothing else, off the
pending set. -/
theorem leave_machine (code : InterruptCode) (status : Bool) (s : System) :
    ∃ cpu, (leave code status s).hw =
      { s.hw with cpu := cpu, interruptBitmap := s.hw.interruptBitmap.erase code } := by
  cases status with
  | false => exact ⟨_, rfl⟩
  | true =>
    have restored := restore_machine code
      { s.hw with interruptBitmap := s.hw.interruptBitmap.erase code }
    refine ⟨(leave code true s).hw.cpu, ?_⟩
    simp only [leave, if_true]
    rw [restored]

/-- Handling an interrupt takes it, and nothing else, off the pending set. -/
theorem check_interrupts_bitmap (u : Unspecified) {s : System} (hp : s.hw.interruptBitmap ≠ ∅)
    (he : s.hw.cpu.psw.interruptEnable = .enabled) :
    (checkInterrupts u s).2.hw.interruptBitmap =
      s.hw.interruptBitmap.erase (codeToHandle s.hw.interruptBitmap) := by
  have handled := handle_interrupt_handled u (codeToHandle s.hw.interruptBitmap) (entered s)
    (interrupted s.hw) rfl
  rw [check_interrupts_taken u hp he]
  generalize handleInterrupt u (codeToHandle s.hw.interruptBitmap) (entered s) = r at handled ⊢
  obtain ⟨cpu, hleft⟩ := leave_machine (codeToHandle s.hw.interruptBitmap) r.1 r.2
  rw [hleft, handled.rest.2.2.1]
  rfl

/-- The instruction an event executes, with the machine it executes it on. -/
def executed (s : System) : Event → Option (Unspecified × Instruction × Machine)
  | .worker u =>
    if s.kernel.currentActiveProcess = -1 then none
    else (fetched s.hw).map (fun x => (u, x.1, x.2))
  | _ => none

def runningPid (s : System) : Int := (s.kernel.processTable s.kernel.currentActiveProcess).pid

theorem executed_worker {s : System} {e : Event} {u : Unspecified} {inst : Instruction}
    {m : Machine} (h : executed s e = some (u, inst, m)) :
    e = .worker u ∧ s.kernel.currentActiveProcess ≠ -1 ∧ fetched s.hw = some (inst, m) := by
  cases e with
  | worker u' =>
    rw [executed] at h
    split_ifs at h with hc
    obtain ⟨x, hx, he⟩ := Option.map_eq_some_iff.mp h
    obtain ⟨rfl, hx'⟩ := Prod.mk.inj he
    obtain ⟨rfl, rfl⟩ := Prod.mk.inj hx'
    exact ⟨rfl, hc, hx⟩
  | create host u progName => cases h
  | monitor active => cases h
  | restart => cases h

theorem executed_of_fetched {s : System} {u : Unspecified} {inst : Instruction} {m : Machine}
    (hc : s.kernel.currentActiveProcess ≠ -1) (h : fetched s.hw = some (inst, m)) :
    executed s (.worker u) = some (u, inst, m) := by
  rw [executed, if_neg hc, h]
  rfl

/-- A tick changes the kernel and the registers only. -/
theorem tick_kept (s : System) :
    ∃ cpu k, schedulerTick s = { s with hw := { s.hw with cpu := cpu }, kernel := k } := by
  unfold schedulerTick
  dsimp only
  split
  · exact ⟨_, _, rfl⟩
  · exact ⟨s.hw.cpu, _, rfl⟩

/-- With no process running, a worker iteration is a tick. -/
theorem next_idle {s : System} (u : Unspecified) (hc : s.kernel.currentActiveProcess = -1) :
    next s (.worker u) = schedulerTick s := by
  rw [next, workerIteration, workerStep, if_neg (not_not.mpr hc)]

/-- With one running, the iteration does to the rest what its processor step does. -/
theorem worker_kept {s : System} (u : Unspecified) (hc : s.kernel.currentActiveProcess ≠ -1) :
    ∃ cpu k, next s (.worker u) = { (cpuStep u s).2 with
      hw := { (cpuStep u s).2.hw with cpu := cpu }, kernel := k } := by
  simp only [next, workerIteration, workerStep, if_pos hc]
  rcases cpuStep u s with ⟨status, t⟩
  cases status with
  | false => exact tick_kept (markFinished (releaseMemory t))
  | true =>
    dsimp only
    split_ifs
    · exact tick_kept { t with kernel := { t.kernel with osYield := false } }
    · exact ⟨t.hw.cpu, t.kernel, rfl⟩

/-- What a worker iteration leaves pending is what the processor step left pending. -/
theorem worker_bitmap {s : System} (u : Unspecified) (hc : s.kernel.currentActiveProcess ≠ -1) :
    (next s (.worker u)).hw.interruptBitmap = (cpuStep u s).2.hw.interruptBitmap := by
  obtain ⟨cpu, k, h⟩ := worker_kept u hc
  rw [h]

/-- A processor step that handles no interrupt is not followed by a tick. -/
theorem worker_quiet {s : System} {u : Unspecified} {n : Machine}
    (hc : s.kernel.currentActiveProcess ≠ -1) (hy : s.kernel.osYield = false)
    (h : cpuStep u s = (true, { s with hw := n })) :
    next s (.worker u) = { s with hw := n } := by
  simp only [next, workerIteration, workerStep, if_pos hc, h, hy]
  rfl

theorem tick_yield (s : System) : (schedulerTick s).kernel.osYield = s.kernel.osYield := by
  have hrest := (before_scan_rest s).2.2
  unfold schedulerTick
  dsimp only
  split <;> exact hrest

/-- No request to yield survives an iteration. -/
theorem next_yield {s : System} (h : s.kernel.osYield = false) (e : Event) :
    (next s e).kernel.osYield = false := by
  cases e with
  | create host u progName =>
    have created := create_process_created host u progName s
    rw [next]
    generalize createProcess host u progName s = r at created
    cases created <;> exact h
  | worker u =>
    have worked := worker_step_worked u s
    rw [next, workerIteration]
    generalize workerStep u s = r at worked
    cases worked with
    | idle _ => exact (tick_yield _).trans h
    | ran _ hw mon => exact h
    | yielded _ hw mon => exact tick_yield _
    | blocked _ hw f hf => exact tick_yield _
    | terminated _ hw mon => exact tick_yield _
  | monitor active => exact h
  | restart => rfl

/-- A creation leaves the registers, the pending interrupts and the running process alone. -/
theorem created_running (host : Host) (u : Unspecified) (progName : List Char) (s : System) :
    (createProcess host u progName s).2.kernel.currentActiveProcess =
        s.kernel.currentActiveProcess ∧
      (createProcess host u progName s).2.hw.cpu = s.hw.cpu ∧
      (createProcess host u progName s).2.hw.interruptBitmap = s.hw.interruptBitmap ∧
      (createProcess host u progName s).2.hw.dma = s.hw.dma := by
  have created := create_process_created host u progName s
  obtain ⟨status, disk, vfs, hload⟩ := load_to_disk host u progName s
  generalize createProcess host u progName s = r at created
  cases created with
  | full => exact ⟨rfl, rfl, rfl, rfl⟩
  | refused =>
    rw [hload]
    exact ⟨rfl, rfl, rfl, rfl⟩
  | made i entry start hi hslot =>
    obtain ⟨ram, himage⟩ := load_image_ram (getBaseRegister start) entry.wordCount.toNat 0
      ⟨entry.startTrack, entry.startCylinder, entry.startSector⟩ (vfsLoadToDisk host u progName s).2.hw
    rw [himage, hload]
    exact ⟨rfl, rfl, rfl, rfl⟩

end Lucario.Proofs
