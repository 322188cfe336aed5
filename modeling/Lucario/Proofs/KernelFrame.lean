import Lucario.Core
import Lucario.Lib.Trace
import Lucario.Proofs.ContextFrame
import Lucario.Proofs.FirstFit

namespace Lucario.Proofs

inductive Blocks : (Pcb → Pcb) → Prop where
  | io : Blocks (fun p => { p with state := .blockedIo })
  | sleep (n : Int) (h : 0 < n) : Blocks (fun p => { p with sleepTics := n, state := .blocked })

/-- What a processor step does beyond the hardware: nothing to the kernel, a request to yield, or
such a request with the running process blocked. -/
inductive Stepped (s : System) : Bool × System → Prop where
  | plain (status : Bool) (hw : Machine) (mon : Monitor) :
    Stepped s (status, { s with hw := hw, monitor := mon })
  | yielded (hw : Machine) :
    Stepped s (true, { s with hw := hw, kernel := { s.kernel with osYield := true } })
  | blocked (hw : Machine) (f : Pcb → Pcb) (h : Blocks f) :
    Stepped s (true, { s with
      hw := hw
      kernel := { s.kernel.modifyProcess s.kernel.currentActiveProcess f with osYield := true } })

theorem Stepped.setHw {s t : System} {r : Bool × System} (h : Stepped s r)
    (ht : t.kernel = r.2.kernel ∧ t.vfs = r.2.vfs ∧ t.monitor = r.2.monitor) :
    Stepped s (r.1, t) := by
  obtain ⟨hw, kernel, vfs, mon⟩ := t
  obtain ⟨hk, hv, hm⟩ := ht
  dsimp only at hk hv hm
  subst hk hv hm
  cases h with
  | plain status _ mon => exact .plain status hw mon
  | yielded => exact .yielded hw
  | blocked _ f hf => exact .blocked hw f hf

/-- Which machine the step began with makes no difference to the kernel. -/
theorem Stepped.ofHw {s : System} {m : Machine} {r : Bool × System}
    (h : Stepped { s with hw := m } r) : Stepped s r := by
  cases h with
  | plain status hw mon => exact .plain status hw mon
  | yielded hw => exact .yielded hw
  | blocked hw f hf => exact .blocked hw f hf

theorem handle_interrupt_stepped (u : Unspecified) (code : InterruptCode) (s : System) :
    Stepped s (handleInterrupt u code s) := by
  cases code
  case syscall =>
    have called := syscall_called u s
    rw [handleInterrupt]
    generalize handleSyscall u s = r at called ⊢
    cases called with
    | returned status mon h =>
      cases status
      case block => exact absurd rfl h
      all_goals exact .plain _ s.hw mon
    | retried h => exact .blocked (retryAfterMonitor u s).hw _ .io
    | read h => exact .plain true (readFromMonitor s).hw (readFromMonitor s).monitor
    | slept n h => exact .blocked s.hw _ (.sleep n h)
  case timer => exact .yielded s.hw
  case overflow => exact .plain true _ s.monitor
  case underflow => exact .plain true _ s.monitor
  all_goals exact .plain _ s.hw s.monitor

theorem leave_kernel (code : InterruptCode) (status : Bool) (s : System) :
    (leave code status s).kernel = s.kernel ∧ (leave code status s).vfs = s.vfs ∧
      (leave code status s).monitor = s.monitor := ⟨rfl, rfl, rfl⟩

theorem check_interrupts_stepped (u : Unspecified) (s : System) :
    Stepped s (checkInterrupts u s) := by
  rcases interrupts_idle_or_taken s.hw with hidle | ⟨hp, he⟩
  · rw [check_interrupts_idle u hidle]
    exact .plain true s.hw s.monitor
  · rw [check_interrupts_taken u hp he]
    have handled := handle_interrupt_stepped u (codeToHandle s.hw.interruptBitmap) (entered s)
    exact handled.ofHw.setHw (leave_kernel _ _ _)

/-- The only traces a processor step leaves in the kernel. -/
theorem cpu_step_stepped (u : Unspecified) (s : System) : Stepped s (cpuStep u s) := by
  unfold cpuStep
  split
  · exact .plain false _ s.monitor
  · exact (check_interrupts_stepped u _).ofHw

theorem write_free_disk (data : Int) (s : System) :
    ∃ disk, writeFree data s = { s with hw := { s.hw with disk := disk } } := by
  rw [writeFree, writeSector]
  split_ifs
  · exact ⟨_, rfl⟩
  · exact ⟨s.hw.disk, rfl⟩

theorem write_program_disk (count : Nat) (file : List Char) (s : System) :
    ∃ disk vfs, writeProgram count file s =
      { s with hw := { s.hw with disk := disk }, vfs := vfs } := by
  induction count generalizing file s with
  | zero => exact ⟨s.hw.disk, s.vfs, rfl⟩
  | succ count ih =>
    obtain ⟨disk, hd⟩ := write_free_disk (readProgramWord file).1 s
    rw [writeProgram]
    dsimp only
    rw [hd]
    exact ih _ _

/-- Loading a program into the file system touches the disk and the catalog only. -/
theorem load_to_disk (host : Host) (u : Unspecified) (path : List Char) (s : System) :
    ∃ status disk vfs, vfsLoadToDisk host u path s =
      (status, { s with hw := { s.hw with disk := disk }, vfs := vfs }) := by
  unfold vfsLoadToDisk
  split
  · exact ⟨_, s.hw.disk, s.vfs, rfl⟩
  · split
    · exact ⟨_, s.hw.disk, s.vfs, rfl⟩
    · dsimp only
      split
      · exact ⟨_, s.hw.disk, s.vfs, rfl⟩
      · obtain ⟨disk, vfs, h⟩ := write_program_disk
          (readHeader u (by assumption)).1.wordCount.toNat (readHeader u (by assumption)).2 s
        rw [h]
        exact ⟨_, disk, _, rfl⟩

theorem load_image_ram (rb : Int) (count : Nat) (i : Int) (c : SectorCursor) (m : Machine) :
    ∃ ram, loadImage rb count i c m = { m with ram := ram } := by
  induction count generalizing i c m with
  | zero => exact ⟨m.ram, rfl⟩
  | succ count ih =>
    have stored : ∃ ram, orUnchanged (dmaWriteMemory (rb + i)
        ((readSector c.track c.cylinder c.sector m).getD 0) m) m = { m with ram := ram } := by
      rw [dmaWriteMemory]
      split_ifs
      · exact ⟨_, rfl⟩
      · exact ⟨m.ram, rfl⟩
    obtain ⟨ram, h⟩ := stored
    rw [loadImage, h]
    exact ih _ _ _

theorem free_slot {k : Kernel} {i : Int} (h : getFreePCBIndex k = i) (hi : i ≠ -1) :
    0 ≤ i ∧ i < 20 ∧ (k.processTable i).state = .finished := by
  unfold getFreePCBIndex at h
  split at h
  · rename_i n hn
    have hs := List.find?_some hn
    have hm := List.mem_range.mp (List.mem_of_find?_eq_some hn)
    simp only [maxProcesses] at hm
    subst h
    exact ⟨by omega, by omega, by simpa using hs⟩
  · exact absurd h.symm hi

def createdPcb (k : Kernel) (entry : FileMeta) (startBlock : Int) : Pcb where
  pid := k.nextPid
  state := .ready
  context := initialContext entry (getBaseRegister startBlock)
    (calculateRequiredBlocks entry.wordCount)
  programName := strncpy255 entry.programName
  startBlock := startBlock
  blockCount := calculateRequiredBlocks entry.wordCount
  sleepTics := 0

/-- A successful allocation returns a run of free partitions and marks exactly these as used. -/
theorem allocate_memory_cases (n : Int) (free : Int → Bool) :
    allocateMemory n free = (-1, free) ∨
      ∃ start, allocateMemory n free = (start, setPartitions false start n free) ∧
        0 ≤ start ∧ 1 ≤ n ∧ start + n ≤ 20 ∧
        ∀ b, start ≤ b → b < start + n → free b = true := by
  rcases allocate_memory_first n free with ⟨hfail, -⟩ | ⟨start, hok, hpos, ⟨hstart, hend, hrun⟩, -⟩
  · exact Or.inl hfail
  · exact Or.inr ⟨start, hok, hstart, hpos, hend, hrun⟩

theorem write_program_kernel (count : Nat) (file : List Char) (s : System) (k : Kernel) :
    writeProgram count file { s with kernel := k } =
      { writeProgram count file s with kernel := k } := by
  induction count generalizing file s with
  | zero => rfl
  | succ count ih =>
    have hs := ih (readProgramWord file).2 { writeFree (readProgramWord file).1 s with
      vfs := advanceFree (writeFree (readProgramWord file).1 s).vfs }
    exact hs

/-- The file system does not look at the kernel. -/
theorem load_to_disk_kernel (host : Host) (u : Unspecified) (path : List Char) (s : System)
    (k : Kernel) :
    vfsLoadToDisk host u path { s with kernel := k } =
      ((vfsLoadToDisk host u path s).1, { (vfsLoadToDisk host u path s).2 with kernel := k }) := by
  unfold vfsLoadToDisk
  dsimp only
  split
  · rfl
  · split
    · rfl
    · split
      · rfl
      · rw [write_program_kernel]

/-- Looking the program up before loading it makes no difference. -/
theorem load_when_missing (host : Host) (u : Unspecified) (path : List Char) (s : System) :
    (if vfsFileExists path s.vfs then (.success, s) else vfsLoadToDisk host u path s) =
      vfsLoadToDisk host u path s := by
  split_ifs with h
  · rw [vfsLoadToDisk, if_pos h]
  · rfl

/-- What a creation does, in terms of the load it makes: nothing to the kernel when it fails,
else one finished slot is taken by a new process that owns freshly allocated partitions. -/
inductive Created (host : Host) (u : Unspecified) (progName : List Char) (s : System) :
    OsStatus × System → Prop where
  | full : Created host u progName s (.maxProcesses, s)
  | refused (status : OsStatus) (h : status ≠ .success) :
    Created host u progName s (status,
      { (vfsLoadToDisk host u progName s).2 with kernel := s.kernel })
  | made (i : Int) (entry : FileMeta) (startBlock : Int)
      (hi : 0 ≤ i ∧ i < 20) (hslot : (s.kernel.processTable i).state = .finished)
      (hload : (vfsLoadToDisk host u progName s).1 = .success)
      (hentry : vfsGetMetadata progName (vfsLoadToDisk host u progName s).2.vfs = some entry)
      (hstart : 0 ≤ startBlock) (hcount : 1 ≤ calculateRequiredBlocks entry.wordCount)
      (hend : startBlock + calculateRequiredBlocks entry.wordCount ≤ 20)
      (hfree : ∀ b, startBlock ≤ b → b < startBlock + calculateRequiredBlocks entry.wordCount →
        s.kernel.freePartitions b = true) :
    Created host u progName s (.success, { (vfsLoadToDisk host u progName s).2 with
      hw := loadImage (getBaseRegister startBlock) entry.wordCount.toNat 0
        ⟨entry.startTrack, entry.startCylinder, entry.startSector⟩
        (vfsLoadToDisk host u progName s).2.hw
      kernel := { s.kernel with
        processTable := Function.update s.kernel.processTable i
          (createdPcb s.kernel entry startBlock)
        freePartitions := setPartitions false startBlock
          (calculateRequiredBlocks entry.wordCount) s.kernel.freePartitions
        nextPid := s.kernel.nextPid + 1 } })

/-- Reserving a finished slot and giving it up again changes nothing. -/
theorem reserve_release {k : Kernel} {i : Int} (h : (k.processTable i).state = .finished) :
    Kernel.modifyProcess i (fun p => { p with state := .finished })
      (k.modifyProcess i (fun p => { p with state := .new })) = k := by
  have hp : { k.processTable i with state := .finished } = k.processTable i := by
    rw [← h]
  simp only [Kernel.modifyProcess, Function.update_self, Function.update_idem, hp,
    Function.update_eq_self]

/-- Everything a creation can do. -/
theorem create_process_created (host : Host) (u : Unspecified) (progName : List Char)
    (s : System) : Created host u progName s (createProcess host u progName s) := by
  unfold createProcess
  dsimp only
  generalize hi : getFreePCBIndex s.kernel = i
  by_cases hnone : i = -1
  · rw [if_pos hnone]
    exact .full
  obtain ⟨hl, hu, hf⟩ := free_slot hi hnone
  have hload := load_to_disk_kernel host u progName s
    (s.kernel.modifyProcess i (fun p => { p with state := .new }))
  have released := reserve_release hf
  rw [if_neg hnone, load_when_missing, System.setState, System.modifyProcess, hload]
  have refuse : ∀ (status : OsStatus) (t : System), status ≠ .success →
      t = { (vfsLoadToDisk host u progName s).2 with
        kernel := s.kernel.modifyProcess i (fun p => { p with state := .new }) } →
      Created host u progName s (status, t.setState i .finished) := by
    intro status t h ht
    rw [ht]
    simp only [System.setState, System.modifyProcess, released]
    exact .refused status h
  dsimp only
  split_ifs with hstatus
  · exact refuse .disk _ (by decide) rfl
  · split
    · exact refuse .disk _ (by decide) rfl
    · rename_i entry hentry
      have hparts : (s.kernel.modifyProcess i
        (fun p => { p with state := .new })).freePartitions = s.kernel.freePartitions := rfl
      rw [hparts]
      rcases allocate_memory_cases (calculateRequiredBlocks entry.wordCount)
        s.kernel.freePartitions with hfail | ⟨start, hok, hstart, hcount, hend, hfree⟩
      · rw [hfail, if_pos rfl]
        exact refuse .memory _ (by decide) rfl
      · have made := Created.made (u := u) (s := s) i entry start ⟨hl, hu⟩ hf
          (not_not.mp hstatus) hentry hstart hcount hend hfree
        have htable : Function.update (s.kernel.modifyProcess i
            (fun p => { p with state := .new })).processTable i (createdPcb s.kernel entry start) =
            Function.update s.kernel.processTable i (createdPcb s.kernel entry start) := by
          simp only [Kernel.modifyProcess, Function.update_idem]
        rw [hok, if_neg (show ¬ start = -1 by omega)]
        rw [← htable] at made
        exact made

/-- A creation reaches no slot but the first finished one. -/
theorem create_process_slot (host : Host) (u : Unspecified) (progName : List Char) (s : System)
    {p : Int} (hp : p ≠ getFreePCBIndex s.kernel) :
    (createProcess host u progName s).2.kernel.processTable p = s.kernel.processTable p := by
  unfold createProcess
  dsimp only
  generalize getFreePCBIndex s.kernel = i at hp ⊢
  rw [load_when_missing]
  obtain ⟨status, disk, vfs, hload⟩ := load_to_disk host u progName (s.setState i .new)
  rw [hload]
  split_ifs
  · rfl
  · simp [System.setState, System.modifyProcess, Kernel.modifyProcess, hp]
  · dsimp only
    split
    · simp [System.setState, System.modifyProcess, Kernel.modifyProcess, hp]
    · split_ifs
      · simp [System.setState, System.modifyProcess, Kernel.modifyProcess, hp]
      · simp [System.setState, System.modifyProcess, Kernel.modifyProcess, hp]

inductive Worked (s : System) : Bool × System → Prop where
  | idle (h : s.kernel.currentActiveProcess = -1) : Worked s (true, s)
  | ran (h : s.kernel.currentActiveProcess ≠ -1) (hw : Machine) (mon : Monitor) :
    Worked s (false, { s with hw := hw, monitor := mon })
  | yielded (h : s.kernel.currentActiveProcess ≠ -1) (hw : Machine) (mon : Monitor) :
    Worked s (true, { s with
      hw := hw, kernel := { s.kernel with osYield := false }, monitor := mon })
  | blocked (h : s.kernel.currentActiveProcess ≠ -1) (hw : Machine) (f : Pcb → Pcb)
      (hf : Blocks f) :
    Worked s (true, { s with
      hw := hw
      kernel := { s.kernel.modifyProcess s.kernel.currentActiveProcess f with osYield := false } })
  | terminated (h : s.kernel.currentActiveProcess ≠ -1) (hw : Machine) (mon : Monitor) :
    Worked s (true, markFinished (releaseMemory { s with hw := hw, monitor := mon }))

theorem worker_step_worked (u : Unspecified) (s : System) : Worked s (workerStep u s) := by
  unfold workerStep
  split_ifs with hc
  · have stepped := cpu_step_stepped u s
    generalize cpuStep u s = r at stepped
    cases stepped with
    | plain status hw mon =>
      cases status with
      | false => exact .terminated hc hw mon
      | true =>
        dsimp only
        split_ifs
        · exact .yielded hc hw mon
        · exact .ran hc hw mon
    | yielded hw => exact .yielded hc hw s.monitor
    | blocked hw f hf => exact .blocked hc hw f hf
  · exact .idle (not_not.mp hc)

/-- The worker's step leaves who is running, and every slot but that one's, alone. -/
theorem worked_slots {s : System} {r : Bool × System} (hw : Worked s r) :
    r.2.kernel.currentActiveProcess = s.kernel.currentActiveProcess ∧
      ∀ i, s.kernel.currentActiveProcess ≠ i →
        r.2.kernel.processTable i = s.kernel.processTable i := by
  cases hw with
  | idle _ => exact ⟨rfl, fun _ _ => rfl⟩
  | ran _ hw mon => exact ⟨rfl, fun _ _ => rfl⟩
  | yielded _ hw mon => exact ⟨rfl, fun _ _ => rfl⟩
  | blocked _ hw f hf => exact ⟨rfl, fun i hi => Function.update_of_ne (Ne.symm hi) _ _⟩
  | terminated _ hw mon => exact ⟨rfl, fun i hi => Function.update_of_ne (Ne.symm hi) _ _⟩

/-- A creation leaves who is running, and every slot that holds a process, alone. -/
theorem created_slots {host : Host} {u : Unspecified} {progName : List Char} {s : System}
    {r : OsStatus × System} (hc : Created host u progName s r) :
    r.2.kernel.currentActiveProcess = s.kernel.currentActiveProcess ∧
      ∀ i, (s.kernel.processTable i).state ≠ .finished →
        r.2.kernel.processTable i = s.kernel.processTable i := by
  cases hc with
  | full => exact ⟨rfl, fun _ _ => rfl⟩
  | refused => exact ⟨rfl, fun _ _ => rfl⟩
  | made i entry start hi hslot =>
    refine ⟨rfl, ?_⟩
    intro j hj
    have hne : j ≠ i := by
      rintro rfl
      exact hj hslot
    exact Function.update_of_ne hne _ _

def tickAt (s : System) : Event → Option System
  | .worker u => if (workerStep u s).1 then some (workerStep u s).2 else none
  | _ => none

/-- Only the worker thread ticks. -/
theorem tick_at_worker {s t : System} {e : Event} (h : tickAt s e = some t) :
    ∃ u, e = .worker u ∧ workerStep u s = (true, t) := by
  cases e with
  | worker u =>
    refine ⟨u, rfl, ?_⟩
    simp only [tickAt] at h
    generalize workerStep u s = r at h ⊢
    obtain ⟨ticks, s'⟩ := r
    cases ticks with
    | true => simpa using h
    | false => cases h
  | create | monitor | restart => cases h

theorem next_of_tick {s t : System} {e : Event} (h : tickAt s e = some t) :
    next s e = schedulerTick t := by
  obtain ⟨u, rfl, hw⟩ := tick_at_worker h
  simp only [next, workerIteration, hw]

theorem next_without_tick {s : System} {u : Unspecified} (h : tickAt s (.worker u) = none) :
    workerStep u s = (false, next s (.worker u)) := by
  simp only [tickAt] at h
  simp only [next, workerIteration]
  generalize workerStep u s = r at h
  obtain ⟨ticks, s'⟩ := r
  cases ticks with
  | true => simp at h
  | false => rfl

theorem tick_worked {s t : System} {e : Event} (h : tickAt s e = some t) : Worked s (true, t) := by
  obtain ⟨u, rfl, hw⟩ := tick_at_worker h
  exact hw ▸ worker_step_worked u s

def tickIn (s : System) (es : List Event) (i : Nat) : Option System :=
  es[i]?.bind (tickAt (Trace.stateAt next s es i))

end Lucario.Proofs
