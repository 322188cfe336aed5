import Lucario.Lib.Simulation
import Lucario.Proofs.Scheduling

namespace Lucario.Proofs

structure Alike (s t : System) : Prop where
  hw : t.hw = s.hw
  monitor : t.monitor = s.monitor
  current : t.kernel.currentActiveProcess = s.kernel.currentActiveProcess
  running : t.kernel.processTable s.kernel.currentActiveProcess =
    s.kernel.processTable s.kernel.currentActiveProcess
  yield : t.kernel.osYield = s.kernel.osYield

def AlikeResults {α : Type} (r r' : α × System) : Prop := r'.1 = r.1 ∧ Alike r.2 r'.2

section

variable {s t : System}

theorem Alike.put (h : Alike s t) (hw : Machine) (mon : Monitor) :
    Alike { s with hw := hw, monitor := mon } { t with hw := hw, monitor := mon } :=
  ⟨rfl, rfl, h.current, h.running, h.yield⟩

theorem Alike.setHw (h : Alike s t) (hw : Machine) : Alike { s with hw := hw } { t with hw := hw } :=
  ⟨rfl, h.monitor, h.current, h.running, h.yield⟩

theorem Alike.block (h : Alike s t) (f : Pcb → Pcb) :
    Alike (s.modifyProcess s.kernel.currentActiveProcess f)
      (t.modifyProcess s.kernel.currentActiveProcess f) := by
  refine ⟨h.hw, h.monitor, h.current, ?_, h.yield⟩
  simp [System.modifyProcess, Kernel.modifyProcess, h.running]

theorem Alike.setYield (h : Alike s t) : Alike s.setYield t.setYield :=
  ⟨h.hw, h.monitor, h.current, h.running, rfl⟩

theorem retry_alike (u : Unspecified) (h : Alike s t) :
    Alike (retryAfterMonitor u s) (retryAfterMonitor u t) := by
  have blocked := h.block (fun p => { p with state := .blockedIo })
  unfold retryAfterMonitor
  dsimp only
  rw [h.current]
  generalize s.modifyProcess s.kernel.currentActiveProcess _ = s' at blocked ⊢
  generalize t.modifyProcess s.kernel.currentActiveProcess _ = t' at blocked ⊢
  rw [blocked.hw]
  exact blocked.setHw _

theorem read_alike (h : Alike s t) : Alike (readFromMonitor s) (readFromMonitor t) := by
  unfold readFromMonitor
  dsimp only
  rw [h.hw, h.monitor, h.current, h.running]
  exact h.put _ _

theorem syscall_alike (u : Unspecified) (h : Alike s t) :
    AlikeResults (handleSyscall u s) (handleSyscall u t) := by
  unfold handleSyscall
  dsimp only
  rw [h.hw, h.monitor, h.current, h.running]
  generalize wordToInt s.hw.cpu.ac = code
  generalize readMemory (s.hw.cpu.sp + 7) s.hw = param
  split
  · exact ⟨rfl, h⟩
  · cases param with
    | error status => exact ⟨rfl, h⟩
    | ok w =>
      dsimp only
      split_ifs
      · exact ⟨rfl, h.put s.hw _⟩
      · exact ⟨rfl, retry_alike u h⟩
  · split_ifs
    · exact ⟨rfl, read_alike h⟩
    · exact ⟨rfl, retry_alike u h⟩
  · cases param with
    | error status => exact ⟨rfl, h⟩
    | ok w =>
      dsimp only
      split_ifs
      · exact ⟨rfl, h.put s.hw _⟩
      · exact ⟨rfl, h⟩
      · exact ⟨rfl, h.block _⟩
  · exact ⟨rfl, h⟩

theorem handle_interrupt_alike (u : Unspecified) (code : InterruptCode) (h : Alike s t) :
    AlikeResults (handleInterrupt u code s) (handleInterrupt u code t) := by
  unfold handleInterrupt
  cases code
  case syscall =>
    obtain ⟨hstatus, halike⟩ := syscall_alike u h
    generalize handleSyscall u s = r at hstatus halike ⊢
    generalize handleSyscall u t = r' at hstatus halike ⊢
    obtain ⟨status, s'⟩ := r
    obtain ⟨status', t'⟩ := r'
    dsimp only at hstatus halike
    subst hstatus
    cases status' with
    | block => exact ⟨rfl, halike.setYield⟩
    | success | unknown | halt => exact ⟨rfl, halike⟩
  case timer => exact ⟨rfl, h.setYield⟩
  case overflow | underflow =>
    dsimp only
    rw [h.hw]
    exact ⟨rfl, h.setHw _⟩
  all_goals exact ⟨rfl, h⟩

theorem check_interrupts_alike (u : Unspecified) (h : Alike s t) :
    AlikeResults (checkInterrupts u s) (checkInterrupts u t) := by
  rcases interrupts_idle_or_taken s.hw with hidle | ⟨hp, he⟩
  · rw [check_interrupts_idle u hidle, check_interrupts_idle u (h.hw ▸ hidle)]
    exact ⟨rfl, h⟩
  · have hent : Alike (entered s) (entered t) := by
      unfold entered
      rw [h.hw]
      exact h.setHw _
    rw [check_interrupts_taken u hp he, check_interrupts_taken u (h.hw ▸ hp) (h.hw ▸ he), h.hw]
    obtain ⟨hstatus, halike⟩ :=
      handle_interrupt_alike u (codeToHandle s.hw.interruptBitmap) hent
    refine ⟨hstatus, ?_⟩
    unfold leave
    dsimp only
    rw [hstatus, halike.hw]
    exact halike.setHw _

/-- A processor step looks at the hardware, the monitor and the running slot only. -/
theorem cpu_step_alike (u : Unspecified) (h : Alike s t) :
    AlikeResults (cpuStep u s) (cpuStep u t) := by
  unfold cpuStep
  rw [h.hw]
  generalize fetch s.hw = r
  obtain ⟨status, hw⟩ := r
  cases status with
  | stop => exact ⟨rfl, h.setHw _⟩
  | ok => exact check_interrupts_alike u (h.setHw _)

/-- What a processor step leaves alone. -/
theorem cpu_step_rest (u : Unspecified) (s : System) :
    (cpuStep u s).2.vfs = s.vfs ∧ (cpuStep u s).2.kernel.nextPid = s.kernel.nextPid ∧
      (cpuStep u s).2.kernel.freePartitions = s.kernel.freePartitions ∧
      ∀ i, i ≠ s.kernel.currentActiveProcess →
        (cpuStep u s).2.kernel.processTable i = s.kernel.processTable i := by
  have stepped := cpu_step_stepped u s
  generalize cpuStep u s = r at stepped ⊢
  cases stepped with
  | plain status hw mon => exact ⟨rfl, rfl, rfl, fun _ _ => rfl⟩
  | yielded hw => exact ⟨rfl, rfl, rfl, fun _ _ => rfl⟩
  | blocked hw f hf => exact ⟨rfl, rfl, rfl, fun i hi => Function.update_of_ne hi _ _⟩

def SameSlot (p q : Pcb) : Prop := q = p ∨ p.state = .finished ∧ q.state = .finished

/-- Two systems with the same processes: they may differ in what processes that have ended left
behind in the process table. -/
structure Indistinct (s t : System) : Prop where
  hw : t.hw = s.hw
  vfs : t.vfs = s.vfs
  monitor : t.monitor = s.monitor
  current : t.kernel.currentActiveProcess = s.kernel.currentActiveProcess
  yield : t.kernel.osYield = s.kernel.osYield
  next : t.kernel.nextPid = s.kernel.nextPid
  free : ∀ b, 0 ≤ b → b < 20 → t.kernel.freePartitions b = s.kernel.freePartitions b
  slots : ∀ i, 0 ≤ i → i < 20 → SameSlot (s.kernel.processTable i) (t.kernel.processTable i)

theorem SameSlot.state {p q : Pcb} (h : SameSlot p q) : q.state = p.state := by
  rcases h with rfl | ⟨hp, hq⟩
  · rfl
  · rw [hp, hq]

theorem SameSlot.live {p q : Pcb} (h : SameSlot p q) (hp : p.state ≠ .finished) : q = p :=
  h.resolve_right (fun hf => hp hf.1)

theorem Indistinct.alike (h : Indistinct s t) (hs : Scheduled s.kernel)
    (hc : s.kernel.currentActiveProcess ≠ -1) : Alike s t := by
  obtain ⟨hl, hu⟩ := hs.current.resolve_left hc
  have running := hs.running hl
  refine ⟨h.hw, h.monitor, h.current, ?_, h.yield⟩
  exact (h.slots _ hl hu).live (by rw [running]; decide)

/-- A processor step of the same process. -/
theorem cpu_step_indistinct (u : Unspecified) (h : Indistinct s t) (hs : Scheduled s.kernel)
    (hc : s.kernel.currentActiveProcess ≠ -1) :
    (cpuStep u t).1 = (cpuStep u s).1 ∧ Indistinct (cpuStep u s).2 (cpuStep u t).2 ∧
      Alike (cpuStep u s).2 (cpuStep u t).2 ∧
      (cpuStep u s).2.kernel.currentActiveProcess = s.kernel.currentActiveProcess := by
  obtain ⟨hstatus, halike⟩ := cpu_step_alike u (h.alike hs hc)
  obtain ⟨hvfs, hnext, hfree, hrows⟩ := cpu_step_rest u s
  obtain ⟨hvfs', hnext', hfree', hrows'⟩ := cpu_step_rest u t
  have hcur : (cpuStep u s).2.kernel.currentActiveProcess = s.kernel.currentActiveProcess := by
    have stepped := cpu_step_stepped u s
    generalize cpuStep u s = r at stepped ⊢
    cases stepped <;> rfl
  refine ⟨hstatus, ⟨halike.hw, ?_, halike.monitor, halike.current, halike.yield, ?_, ?_, ?_⟩,
    halike, hcur⟩
  · rw [hvfs, hvfs', h.vfs]
  · rw [hnext, hnext', h.next]
  · intro b hl hu
    rw [hfree, hfree', h.free b hl hu]
  · intro i hl hu
    by_cases hi : i = s.kernel.currentActiveProcess
    · left
      rw [hi, ← hcur]
      exact halike.running
    · rw [hrows i hi, hrows' i (h.current ▸ hi)]
      exact h.slots i hl hu

theorem set_partitions_congr {free free' : Int → Bool} {b : Int} (h : free' b = free b)
    (value : Bool) (start count : Int) :
    setPartitions value start count free' b = setPartitions value start count free b := by
  unfold setPartitions
  rw [h]

/-- Ending the running process. -/
theorem ending_indistinct (h : Indistinct s t) (ha : Alike s t) :
    Indistinct (markFinished (releaseMemory s)) (markFinished (releaseMemory t)) := by
  refine ⟨h.hw, h.vfs, h.monitor, h.current, rfl, h.next, ?_, ?_⟩
  · intro b hl hu
    simp only [markFinished, releaseMemory, System.setState, System.modifyProcess,
      Kernel.modifyProcess, h.current, ha.running]
    unfold freeMemory
    split_ifs
    · exact h.free b hl hu
    · exact set_partitions_congr (h.free b hl hu) _ _ _
  · intro i hl hu
    simp only [markFinished, releaseMemory, System.setState, System.modifyProcess,
      Kernel.modifyProcess, h.current]
    by_cases hi : i = s.kernel.currentActiveProcess
    · rw [hi, Function.update_self, Function.update_self, ha.running]
      exact Or.inl rfl
    · rw [Function.update_of_ne hi, Function.update_of_ne hi]
      exact h.slots i hl hu

theorem worker_step_indistinct (u : Unspecified) (h : Indistinct s t) (hs : Scheduled s.kernel) :
    (workerStep u t).1 = (workerStep u s).1 ∧
      Indistinct (workerStep u s).2 (workerStep u t).2 := by
  unfold workerStep
  rw [h.current]
  split_ifs with hc
  · obtain ⟨hstatus, hind, halike, -⟩ := cpu_step_indistinct u h hs hc
    generalize cpuStep u s = r at hstatus hind halike ⊢
    generalize cpuStep u t = r' at hstatus hind halike ⊢
    obtain ⟨status, s'⟩ := r
    obtain ⟨status', t'⟩ := r'
    dsimp only at hstatus hind halike ⊢
    subst hstatus
    cases status' with
    | false => exact ⟨rfl, ending_indistinct hind halike⟩
    | true =>
      dsimp only
      rw [hind.yield]
      split_ifs
      · exact ⟨rfl, hind.hw, hind.vfs, hind.monitor, hind.current, rfl, hind.next, hind.free,
          hind.slots⟩
      · exact ⟨rfl, hind⟩
  · exact ⟨rfl, h⟩

theorem same_slot_stirred {p q : Pcb} (h : SameSlot p q) (hmon : t.monitor = s.monitor) :
    SameSlot (stirred s p) (stirred t q) := by
  have hst : stirred t q = stirred s q := by
    unfold stirred
    rw [hmon]
  rw [hst]
  rcases h with rfl | ⟨hp, hq⟩
  · exact Or.inl rfl
  · exact Or.inr ⟨(stirred_kept s p).2.2.2.2.mpr hp, (stirred_kept s q).2.2.2.2.mpr hq⟩

theorem same_slot_saved {p q : Pcb} (h : SameSlot p q) (cpu : Cpu) :
    SameSlot (saved cpu p) (saved cpu q) := by
  rcases h with rfl | ⟨hp, hq⟩
  · exact Or.inl rfl
  · exact Or.inr ⟨by simp [saved, hp], by simp [saved, hq]⟩

theorem before_scan_slots (h : Indistinct s t) {i : Int} (hl : 0 ≤ i) (hu : i < 20) :
    SameSlot ((beforeScan s).processTable i) ((beforeScan t).processTable i) := by
  have same := same_slot_stirred (h.slots i hl hu) h.monitor
  rw [before_scan_at s hl hu, before_scan_at t hl hu, h.current, h.hw]
  split_ifs
  · exact same_slot_saved same _
  · exact same

theorem scanned_bounds {c i : Int} (h : i ∈ CyclicScan.order 20 c) : 0 ≤ i ∧ i < 20 := by
  obtain ⟨n, -, rfl⟩ := List.mem_map.mp h
  exact ⟨Int.emod_nonneg _ (by decide), Int.emod_lt_of_pos _ (by decide)⟩

theorem find_next_indistinct (h : Indistinct s t) (hc : ValidCurrent s.kernel.currentActiveProcess) :
    findNext (beforeScan t) = findNext (beforeScan s) := by
  unfold findNext
  rw [before_scan_current, before_scan_current, h.current, scan_order_eq hc]
  refine List.find?_congr ?_
  intro i hi
  obtain ⟨hl, hu⟩ := scanned_bounds hi
  rw [(before_scan_slots h hl hu).state]

/-- The scheduler sees the same processes. -/
theorem tick_indistinct (h : Indistinct s t) (hc : ValidCurrent s.kernel.currentActiveProcess) :
    Indistinct (schedulerTick s) (schedulerTick t) := by
  have slots : ∀ i, 0 ≤ i → i < 20 →
      SameSlot ((beforeScan s).processTable i) ((beforeScan t).processTable i) :=
    fun i hl hu => before_scan_slots h hl hu
  obtain ⟨hfree, hnext, hyield⟩ := before_scan_rest s
  obtain ⟨hfree', hnext', hyield'⟩ := before_scan_rest t
  have free : ∀ b, 0 ≤ b → b < 20 →
      (beforeScan t).freePartitions b = (beforeScan s).freePartitions b := by
    intro b hl hu
    rw [hfree, hfree', h.free b hl hu]
  have same := find_next_indistinct h hc
  rcases tick_cases hc with ⟨n, hl, hu, hready, hfind, ht⟩ | ⟨hnone, ht⟩
  · have row := (slots n hl hu).live (by rw [hready]; decide)
    have ht' : schedulerTick t = { t with
        hw.cpu := ((beforeScan t).processTable n).context
        kernel := { beforeScan t with currentActiveProcess := n }.modifyProcess n
          (fun p => { p with state := .executing }) } := by
      rw [schedulerTick, same, hfind]
    rw [ht, ht', row, h.hw]
    refine ⟨rfl, h.vfs, h.monitor, rfl, ?_, ?_, free, ?_⟩
    · exact (hyield'.trans h.yield).trans hyield.symm
    · exact (hnext'.trans h.next).trans hnext.symm
    · intro i hil hiu
      simp only [Kernel.modifyProcess]
      by_cases hi : i = n
      · rw [hi, Function.update_self, Function.update_self, row]
        exact Or.inl rfl
      · rw [Function.update_of_ne hi, Function.update_of_ne hi]
        exact slots i hil hiu
  · have hfind : findNext (beforeScan s) = none := by
      refine List.find?_eq_none.mpr ?_
      intro i hi
      rw [before_scan_current, scan_order_eq hc] at hi
      obtain ⟨hl, hu⟩ := scanned_bounds hi
      simpa using hnone i hl hu
    have ht' : schedulerTick t = { t with
        kernel := { beforeScan t with currentActiveProcess := -1 } } := by
      rw [schedulerTick, same, hfind]
    rw [ht, ht']
    refine ⟨h.hw, h.vfs, h.monitor, rfl, ?_, ?_, free, slots⟩
    · exact (hyield'.trans h.yield).trans hyield.symm
    · exact (hnext'.trans h.next).trans hnext.symm

theorem scan_partitions_congr {free free' : Int → Bool} (requiredBlocks : Int) :
    ∀ (fuel : Nat) (i contiguousCount : Int), 0 ≤ i → i + fuel ≤ 20 →
      (∀ b, 0 ≤ b → b < 20 → free' b = free b) →
      scanPartitions free' requiredBlocks fuel i contiguousCount =
        scanPartitions free requiredBlocks fuel i contiguousCount := by
  intro fuel
  induction fuel with
  | zero => intros; rfl
  | succ fuel ih =>
    intro i contiguousCount hi hend hfree
    push_cast at hend
    rw [scanPartitions, scanPartitions, hfree i hi (by omega),
      ih _ _ (by omega) (by omega) hfree, ih _ _ (by omega) (by omega) hfree]

theorem allocate_memory_congr {free free' : Int → Bool} (requiredBlocks : Int)
    (h : ∀ b, 0 ≤ b → b < 20 → free' b = free b) :
    (allocateMemory requiredBlocks free').1 = (allocateMemory requiredBlocks free).1 ∧
      ∀ b, 0 ≤ b → b < 20 → (allocateMemory requiredBlocks free').2 b =
        (allocateMemory requiredBlocks free).2 b := by
  unfold allocateMemory
  rw [scan_partitions_congr requiredBlocks maxProcesses 0 0 le_rfl (by decide) h]
  split_ifs
  · exact ⟨rfl, h⟩
  · split
    · exact ⟨rfl, fun b hl hu => set_partitions_congr (h b hl hu) _ _ _⟩
    · exact ⟨rfl, h⟩

theorem free_index_indistinct (h : Indistinct s t) :
    getFreePCBIndex t.kernel = getFreePCBIndex s.kernel := by
  unfold getFreePCBIndex
  have same : (List.range maxProcesses).find?
        (fun (i : Nat) => (t.kernel.processTable i).state = .finished) =
      (List.range maxProcesses).find?
        (fun (i : Nat) => (s.kernel.processTable i).state = .finished) := by
    refine List.find?_congr ?_
    intro i hi
    have hi := List.mem_range.mp hi
    simp only [maxProcesses] at hi
    rw [(h.slots i (by omega) (by omega)).state]
  rw [same]

theorem same_slots_update {f g : Int → Pcb} {p q : Pcb} (i : Int)
    (h : ∀ j, 0 ≤ j → j < 20 → SameSlot (f j) (g j)) (hpq : SameSlot p q) :
    ∀ j, 0 ≤ j → j < 20 → SameSlot (Function.update f i p j) (Function.update g i q j) := by
  intro j hl hu
  by_cases hj : j = i
  · rw [hj, Function.update_self, Function.update_self]
    exact hpq
  · rw [Function.update_of_ne hj, Function.update_of_ne hj]
    exact h j hl hu

/-- A creation takes the same slot and leaves nothing in it of what was there. -/
theorem create_indistinct (host : Host) (u : Unspecified) (progName : List Char)
    (h : Indistinct s t) :
    (createProcess host u progName t).1 = (createProcess host u progName s).1 ∧
      Indistinct (createProcess host u progName s).2 (createProcess host u progName t).2 := by
  have hindex := free_index_indistinct h
  obtain ⟨hw, k, vfs, mon⟩ := t
  obtain ⟨rfl, rfl, rfl, hcur, hyield, hnext, hfree, hslots⟩ := h
  dsimp only at hcur hyield hnext hfree hslots hindex
  unfold createProcess
  dsimp only
  rw [hindex]
  generalize hi : getFreePCBIndex s.kernel = i at hindex ⊢
  by_cases hnone : i = -1
  · rw [if_pos hnone, if_pos hnone]
    exact ⟨rfl, rfl, rfl, rfl, hcur, hyield, hnext, hfree, hslots⟩
  obtain ⟨hl, hu, hf⟩ := free_slot hi hnone
  obtain ⟨-, -, hf'⟩ := free_slot hindex hnone
  rw [if_neg hnone, if_neg hnone, load_when_missing, load_when_missing]
  have load : ∀ k, vfsLoadToDisk host u progName
        (System.setState i .new ⟨s.hw, k, s.vfs, s.monitor⟩) =
      ((vfsLoadToDisk host u progName s).1, { (vfsLoadToDisk host u progName s).2 with
        kernel := k.modifyProcess i (fun p => { p with state := .new }) }) :=
    fun k => load_to_disk_kernel host u progName s _
  rw [load k, show vfsLoadToDisk host u progName (s.setState i .new) = _ from load s.kernel]
  generalize vfsLoadToDisk host u progName s = r
  obtain ⟨status, s'⟩ := r
  have taken : ∀ (free free' : Int → Bool), (∀ b, 0 ≤ b → b < 20 → free' b = free b) →
      Indistinct
        (({ s' with kernel := { s.kernel.modifyProcess i (fun p => { p with state := .new }) with
          freePartitions := free } } : System).setState i .finished)
        (({ s' with kernel := { k.modifyProcess i (fun p => { p with state := .new }) with
          freePartitions := free' } } : System).setState i .finished) := by
    intro free free' hparts
    refine ⟨rfl, rfl, rfl, hcur, hyield, hnext, hparts, ?_⟩
    simp only [System.setState, System.modifyProcess, Kernel.modifyProcess, Function.update_idem]
    exact same_slots_update i hslots (Or.inr ⟨rfl, rfl⟩)
  dsimp only
  split_ifs with hstatus
  · exact ⟨rfl, taken _ _ hfree⟩
  · split
    · exact ⟨rfl, taken _ _ hfree⟩
    · rename_i entry hentry
      obtain ⟨hstart, hparts⟩ := allocate_memory_congr
        (calculateRequiredBlocks entry.wordCount) hfree
      have unreserved : ∀ k : Kernel, (k.modifyProcess i
        (fun p => { p with state := .new })).freePartitions = k.freePartitions := fun _ => rfl
      rw [unreserved, unreserved]
      generalize allocateMemory (calculateRequiredBlocks entry.wordCount)
        s.kernel.freePartitions = a at hstart hparts ⊢
      generalize allocateMemory (calculateRequiredBlocks entry.wordCount)
        k.freePartitions = a' at hstart hparts ⊢
      obtain ⟨start, free⟩ := a
      obtain ⟨start', free'⟩ := a'
      dsimp only at hstart hparts ⊢
      subst hstart
      split_ifs with hfail
      · exact ⟨rfl, taken free free' hparts⟩
      · refine ⟨rfl, rfl, rfl, rfl, hcur, hyield, ?_, hparts, ?_⟩
        · exact congrArg (· + 1) hnext
        · simp only [System.modifyProcess, Kernel.modifyProcess, Function.update_idem, hnext]
          exact same_slots_update i hslots (Or.inl rfl)

/-- No event tells two systems with the same processes apart. -/
theorem next_indistinct (h : Indistinct s t) (hs : Scheduled s.kernel) (e : Event) :
    Indistinct (next s e) (next t e) := by
  cases e with
  | create host u progName => exact (create_indistinct host u progName h).2
  | worker u =>
    obtain ⟨hticks, hworked⟩ := worker_step_indistinct u h hs
    have current := (worked_at_tick hs (worker_step_worked u s)).1.current
    rw [next, next, workerIteration, workerIteration]
    generalize workerStep u s = r at hticks hworked current ⊢
    generalize workerStep u t = r' at hticks hworked ⊢
    obtain ⟨ticks, s'⟩ := r
    obtain ⟨ticks', t'⟩ := r'
    dsimp only at hticks hworked current
    subst hticks
    cases ticks' with
    | true => exact tick_indistinct hworked current
    | false => exact hworked
  | monitor active =>
    refine ⟨h.hw, h.vfs, ?_, h.current, h.yield, h.next, h.free, h.slots⟩
    rw [next, next, h.monitor]
  | restart =>
    refine ⟨?_, h.vfs, h.monitor, rfl, rfl, rfl, ?_, ?_⟩
    · rw [next, next, handleRestartCommand, handleRestartCommand, initOS, initOS]
      dsimp only
      rw [h.hw]
    · intro b hl hu
      simp only [next, handleRestartCommand, initOS]
      exact set_partitions_congr (h.free b hl hu) _ _ _
    · intro i hl hu
      right
      simp [next, handleRestartCommand, initOS, forEachProcess, hl, hu]

end

def rebooted (s : System) : System :=
  let t := powerOn s.monitor.keyboard
  initOS { t with
    hw := { t.hw with disk := s.hw.disk, dma := s.hw.dma }
    vfs := s.vfs
    monitor := s.monitor }

theorem restart_indistinct (s : System) : Indistinct (rebooted s) (next s .restart) := by
  refine ⟨rfl, rfl, rfl, rfl, rfl, rfl, ?_, ?_⟩
  · intro b hl hu
    simp [next, handleRestartCommand, rebooted, initOS, setPartitions, hl, hu]
  · intro i hl hu
    right
    simp [next, handleRestartCommand, rebooted, initOS, forEachProcess, hl, hu]

/-- A restart is a reboot. Whatever state a system was in, after a restart no further run, of the
worker thread, of creations, of the monitor and of other restarts, can tell it from one that was
switched on with the same disk: registers, memory, disk, pending interrupts, catalog and monitor
are always the same, so are all processes, and so is the answer to every further creation. -/
theorem restart_is_reboot (s : System) (es : List Event) :
    Indistinct (Trace.run next (rebooted s) es) (Trace.run next s (.restart :: es)) ∧
      ∀ host u progName,
        (createProcess host u progName (Trace.run next s (.restart :: es))).1 =
          (createProcess host u progName (Trace.run next (rebooted s) es)).1 := by
  obtain ⟨same, -⟩ := Simulation.run_related
    (fun s t => Indistinct s t ∧ Scheduled s.kernel)
    (fun s t e _ h => ⟨next_indistinct h.1 h.2 e, next_scheduled h.2 e⟩)
    ⟨restart_indistinct s, init_scheduled _⟩
  exact ⟨same, fun host u progName => (create_indistinct host u progName same).1⟩

end Lucario.Proofs
