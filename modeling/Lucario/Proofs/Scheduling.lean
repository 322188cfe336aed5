import Lucario.Lib.CyclicScan
import Lucario.Proofs.KernelFrame

namespace Lucario.Proofs

def Classified (p : Pcb) : Prop :=
  p.state = .ready ∨ p.state = .executing ∨ p.state = .finished ∨
    p.state = .blocked ∧ 0 < p.sleepTics ∨ p.state = .blockedIo

def ValidCurrent (c : Int) : Prop := c = -1 ∨ 0 ≤ c ∧ c < 20

/-- The kernel when a tick begins: only the running slot can be marked as executing. -/
structure AtTick (k : Kernel) : Prop where
  current : ValidCurrent k.currentActiveProcess
  single : ∀ i, 0 ≤ i → i < 20 → (k.processTable i).state = .executing →
    i = k.currentActiveProcess
  classified : ∀ i, 0 ≤ i → i < 20 → Classified (k.processTable i)

/-- The kernel between events: the running slot is marked as executing, and no other. -/
structure Scheduled (k : Kernel) : Prop extends AtTick k where
  running : 0 ≤ k.currentActiveProcess →
    (k.processTable k.currentActiveProcess).state = .executing

theorem Scheduled.executing {k : Kernel} (h : Scheduled k) {i : Int} (hl : 0 ≤ i) (hu : i < 20) :
    (k.processTable i).state = .executing ↔ i = k.currentActiveProcess := by
  constructor
  · exact h.single i hl hu
  · rintro rfl
    exact h.running hl

/-- What a loop of the tick does to one process, its identity and registers apart. -/
theorem wake_cases (p : Pcb) :
    wakeSleeper p = p ∨ p.state = .blocked ∧
      ∃ n, wakeSleeper p = { p with sleepTics := n, state := if n = 0 then .ready else .blocked } ∧
        0 ≤ n := by
  unfold wakeSleeper
  dsimp only
  split_ifs with h hz
  · obtain ⟨hs, hp⟩ := h
    refine Or.inr ⟨hs, p.sleepTics - 1, ?_, by omega⟩
    rw [if_pos hz]
  · obtain ⟨hs, hp⟩ := h
    refine Or.inr ⟨hs, p.sleepTics - 1, ?_, by omega⟩
    rw [if_neg hz, ← hs]
  · exact Or.inl rfl

theorem wake_classified {p : Pcb} (h : Classified p) : Classified (wakeSleeper p) := by
  rcases wake_cases p with he | ⟨hs, n, he, hn⟩
  · rw [he]
    exact h
  · rw [he]
    by_cases hz : n = 0
    · exact Or.inl (if_pos hz)
    · exact Or.inr (Or.inr (Or.inr (Or.inl ⟨if_neg hz, by dsimp only; omega⟩)))

theorem unblock_classified {p : Pcb} (h : Classified p) : Classified (unblockIo p) := by
  unfold unblockIo
  split_ifs
  · exact Or.inl rfl
  · exact h

def stirred (s : System) (p : Pcb) : Pcb :=
  if s.monitor.active then unblockIo (wakeSleeper p) else wakeSleeper p

theorem stirred_classified (s : System) {p : Pcb} (h : Classified p) :
    Classified (stirred s p) := by
  unfold stirred
  split_ifs
  · exact unblock_classified (wake_classified h)
  · exact wake_classified h

/-- The loops start no process. -/
theorem stirred_executing {s : System} {p : Pcb} (h : (stirred s p).state = .executing) :
    p.state = .executing := by
  have hw : ∀ q, (wakeSleeper q).state = .executing → q.state = .executing := by
    intro q hq
    rcases wake_cases q with he | ⟨hs, n, he, _⟩
    · rw [he] at hq
      exact hq
    · rw [he] at hq
      split_ifs at hq
  unfold stirred unblockIo at h
  split_ifs at h
  · exact hw p h
  · exact hw p h

/-- They leave alone everything about a process but its state and its sleep. -/
theorem stirred_kept (s : System) (p : Pcb) :
    (stirred s p).pid = p.pid ∧ (stirred s p).context = p.context ∧
      (stirred s p).startBlock = p.startBlock ∧ (stirred s p).blockCount = p.blockCount ∧
      ((stirred s p).state = .finished ↔ p.state = .finished) := by
  have hw : (wakeSleeper p).pid = p.pid ∧ (wakeSleeper p).context = p.context ∧
      (wakeSleeper p).startBlock = p.startBlock ∧ (wakeSleeper p).blockCount = p.blockCount ∧
      ((wakeSleeper p).state = .finished ↔ p.state = .finished) := by
    rcases wake_cases p with he | ⟨hs, n, he, _⟩
    · rw [he]
      exact ⟨rfl, rfl, rfl, rfl, Iff.rfl⟩
    · rw [he]
      refine ⟨rfl, rfl, rfl, rfl, ?_⟩
      rw [hs]
      by_cases hz : n = 0 <;> simp [hz]
  unfold stirred
  split_ifs
  · unfold unblockIo
    split_ifs with hio
    · refine ⟨hw.1, hw.2.1, hw.2.2.1, hw.2.2.2.1, ?_⟩
      rw [← hw.2.2.2.2, hio]
      simp
    · exact hw
  · exact hw

def saved (cpu : Cpu) (p : Pcb) : Pcb :=
  { p with context := cpu, state := if p.state = .executing then .ready else p.state }

theorem before_scan_current (s : System) :
    (beforeScan s).currentActiveProcess = s.kernel.currentActiveProcess := by
  unfold beforeScan saveOutgoing
  dsimp only
  split_ifs <;> rfl

theorem before_scan_rest (s : System) :
    (beforeScan s).freePartitions = s.kernel.freePartitions ∧
      (beforeScan s).nextPid = s.kernel.nextPid ∧ (beforeScan s).osYield = s.kernel.osYield := by
  unfold beforeScan saveOutgoing
  dsimp only
  split_ifs <;> exact ⟨rfl, rfl, rfl⟩

/-- The process table the scan looks at. -/
theorem before_scan_at (s : System) {i : Int} (hl : 0 ≤ i) (hu : i < 20) :
    (beforeScan s).processTable i =
      if i = s.kernel.currentActiveProcess then
        saved s.hw.cpu (stirred s (s.kernel.processTable i))
      else stirred s (s.kernel.processTable i) := by
  have hne : s.kernel.currentActiveProcess = -1 → i ≠ s.kernel.currentActiveProcess := by
    intro h
    omega
  unfold beforeScan
  by_cases hidle : s.kernel.currentActiveProcess = -1
  · rw [if_neg (hne hidle), stirred]
    split_ifs <;> simp [saveOutgoing, forEachProcess, hidle, hl, hu]
  · by_cases hi : i = s.kernel.currentActiveProcess
    · subst hi
      rw [if_pos rfl, stirred]
      split_ifs <;> simp [saveOutgoing, forEachProcess, Kernel.modifyProcess, hidle, hl, hu, saved]
    · rw [if_neg hi, stirred]
      split_ifs <;> simp [saveOutgoing, forEachProcess, Kernel.modifyProcess, hidle, hl, hu, hi]

/-- The scan of the tick visits the slots cyclically from the one after the running slot. -/
theorem scan_order_eq {c : Int} (hc : ValidCurrent c) :
    scanOrder c = CyclicScan.order 20 (c + 1) := by
  have hstart : 0 ≤ c + 1 ∧ c + 1 < 21 := by
    rcases hc with rfl | h <;> omega
  unfold scanOrder CyclicScan.order
  refine List.map_congr_left ?_
  intro i _
  by_cases h : c = -1
  · subst h
    rw [if_pos rfl, Int.tmod_eq_emod_of_nonneg (by omega)]
    rfl
  · have hmod : 0 ≤ (c + 1) % (maxProcesses : Int) := Int.emod_nonneg _ (by decide)
    rw [if_neg h, Int.tmod_eq_emod_of_nonneg hstart.1, Int.tmod_eq_emod_of_nonneg (by omega),
      Int.emod_add_emod]
    rfl

/-- The outcome of a tick: the scan stopped at a ready slot, which is dispatched, or saw none. -/
theorem tick_cases {s : System} (hc : ValidCurrent s.kernel.currentActiveProcess) :
    (∃ n, 0 ≤ n ∧ n < 20 ∧ ((beforeScan s).processTable n).state = .ready ∧
      findNext (beforeScan s) = some n ∧
      schedulerTick s = { s with
        hw.cpu := ((beforeScan s).processTable n).context
        kernel := { beforeScan s with currentActiveProcess := n }.modifyProcess n
          (fun p => { p with state := .executing }) }) ∨
    ((∀ i, 0 ≤ i → i < 20 → ((beforeScan s).processTable i).state ≠ .ready) ∧
      schedulerTick s = { s with kernel := { beforeScan s with currentActiveProcess := -1 } }) := by
  have horder : scanOrder (beforeScan s).currentActiveProcess =
      CyclicScan.order 20 (s.kernel.currentActiveProcess + 1) := by
    rw [before_scan_current]
    exact scan_order_eq hc
  cases hf : findNext (beforeScan s) with
  | some n =>
    have hfind := hf
    rw [findNext, horder] at hfind
    obtain ⟨hready, hl, hu⟩ := CyclicScan.find_some hfind
    refine Or.inl ⟨n, hl, by simpa using hu, by simpa using hready, rfl, ?_⟩
    rw [schedulerTick, hf]
  | none =>
    refine Or.inr ⟨?_, by rw [schedulerTick, hf]⟩
    intro i hl hu
    rw [findNext, horder] at hf
    have h := CyclicScan.find_none hf hl (by simpa using hu)
    simpa using h

def dispatched (s : System) : Int := (schedulerTick s).kernel.currentActiveProcess

/-- After the save no slot is marked as executing. -/
theorem before_scan_classified {s : System} (h : AtTick s.kernel) {i : Int} (hl : 0 ≤ i)
    (hu : i < 20) : Classified ((beforeScan s).processTable i) ∧
      ((beforeScan s).processTable i).state ≠ .executing := by
  have hp := stirred_classified s (h.classified i hl hu)
  rw [before_scan_at s hl hu]
  split_ifs with hi
  · by_cases he : (stirred s (s.kernel.processTable i)).state = .executing
    · refine ⟨Or.inl (if_pos he), ?_⟩
      simp [saved, he]
    · have hs : (saved s.hw.cpu (stirred s (s.kernel.processTable i))).state =
          (stirred s (s.kernel.processTable i)).state := if_neg he
      rw [Classified, hs]
      exact ⟨hp, he⟩
  · refine ⟨hp, ?_⟩
    intro he
    exact hi (h.single i hl hu (stirred_executing he))

/-- A tick restores the invariant, and idles only when there is nothing to run. -/
theorem tick_scheduled {s : System} (h : AtTick s.kernel) :
    Scheduled (schedulerTick s).kernel ∧
      ((schedulerTick s).kernel.currentActiveProcess = -1 → ∀ i, 0 ≤ i → i < 20 →
        ((schedulerTick s).kernel.processTable i).state ≠ .ready) := by
  rcases tick_cases h.current with ⟨n, hl, hu, hready, -, ht⟩ | ⟨hnone, ht⟩
  · rw [ht]
    have other : ∀ i, i ≠ n → (Kernel.modifyProcess n (fun p => { p with state := .executing })
        { beforeScan s with currentActiveProcess := n }).processTable i =
        (beforeScan s).processTable i := fun i hi => Function.update_of_ne hi _ _
    have self : ((Kernel.modifyProcess n (fun p => { p with state := .executing })
        { beforeScan s with currentActiveProcess := n }).processTable n).state = .executing := by
      simp [Kernel.modifyProcess]
    refine ⟨⟨⟨Or.inr ⟨hl, hu⟩, ?_, ?_⟩, fun _ => self⟩, ?_⟩
    · intro i hil hiu he
      by_contra hi
      dsimp only at he
      rw [other i hi] at he
      exact (before_scan_classified h hil hiu).2 he
    · intro i hil hiu
      dsimp only
      by_cases hi : i = n
      · subst hi
        exact Or.inr (Or.inl self)
      · rw [other i hi]
        exact (before_scan_classified h hil hiu).1
    · intro hidle
      change n = -1 at hidle
      omega
  · rw [ht]
    refine ⟨⟨⟨Or.inl rfl, ?_, ?_⟩, ?_⟩, fun _ => hnone⟩
    · intro i hil hiu he
      exact absurd he (before_scan_classified h hil hiu).2
    · intro i hil hiu
      exact (before_scan_classified h hil hiu).1
    · intro hpos
      change (0 : Int) ≤ -1 at hpos
      omega

theorem blocks_kept {f : Pcb → Pcb} (hf : Blocks f) (p : Pcb) :
    Classified (f p) ∧ (f p).state ≠ .executing ∧ (f p).state ≠ .ready ∧
      (f p).state ≠ .finished ∧ (f p).pid = p.pid ∧ (f p).context = p.context ∧
      (f p).startBlock = p.startBlock ∧ (f p).blockCount = p.blockCount := by
  cases hf with
  | io => simp [Classified]
  | sleep n h => simp [Classified, h]

/-- Changing the running slot only, to a state between events, keeps what a tick needs. -/
theorem AtTick.modify {k k' : Kernel} (h : AtTick k)
    (hcur : k'.currentActiveProcess = k.currentActiveProcess)
    (hother : ∀ i, i ≠ k.currentActiveProcess → k'.processTable i = k.processTable i)
    (hself : Classified (k'.processTable k.currentActiveProcess)) : AtTick k' := by
  refine ⟨by rw [hcur]; exact h.current, ?_, ?_⟩
  · intro i hl hu he
    rw [hcur]
    by_contra hi
    rw [hother i hi] at he
    exact hi (h.single i hl hu he)
  · intro i hl hu
    by_cases hi : i = k.currentActiveProcess
    · rw [hi]
      exact hself
    · rw [hother i hi]
      exact h.classified i hl hu

/-- The process table between the processor step and the tick. -/
theorem worked_at_tick {s : System} (h : Scheduled s.kernel) {r : Bool × System}
    (hw : Worked s r) : AtTick r.2.kernel ∧ (r.1 = false → Scheduled r.2.kernel) := by
  cases hw with
  | idle _ => exact ⟨h.toAtTick, fun hr => by cases hr⟩
  | ran _ hw mon => exact ⟨h.toAtTick, fun _ => h⟩
  | yielded _ hw mon =>
    exact ⟨⟨h.current, h.single, h.classified⟩, fun hr => by cases hr⟩
  | blocked _ hw f hf =>
    refine ⟨h.toAtTick.modify rfl ?_ ?_, fun hr => by cases hr⟩
    · intro i hi
      exact Function.update_of_ne hi _ _
    · simp only [Kernel.modifyProcess, Function.update_self]
      exact (blocks_kept hf _).1
  | terminated _ hw mon =>
    refine ⟨h.toAtTick.modify rfl ?_ ?_, fun hr => by cases hr⟩
    · intro i hi
      exact Function.update_of_ne hi _ _
    · refine Or.inr (Or.inr (Or.inl ?_))
      simp [markFinished, releaseMemory, System.setState, System.modifyProcess,
        Kernel.modifyProcess]

/-- A creation between any two steps keeps what a tick needs, even in the slot that is just being
given up. -/
theorem created_at_tick {host : Host} {u : Unspecified} {progName : List Char} {s : System}
    {r : OsStatus × System} (h : AtTick s.kernel) (hc : Created host u progName s r) :
    AtTick r.2.kernel := by
  cases hc with
  | full => exact h
  | refused => exact h
  | made i entry start hi hslot =>
    refine ⟨h.current, ?_, ?_⟩
    · intro j hl hu he
      by_cases hj : j = i
      · subst hj
        simp [createdPcb] at he
      · simp only [Function.update_of_ne hj] at he
        exact h.single j hl hu he
    · intro j hl hu
      by_cases hj : j = i
      · subst hj
        left
        simp [createdPcb]
      · simp only [Function.update_of_ne hj]
        exact h.classified j hl hu

theorem created_scheduled {host : Host} {u : Unspecified} {progName : List Char} {s : System}
    {r : OsStatus × System} (h : Scheduled s.kernel) (hc : Created host u progName s r) :
    Scheduled r.2.kernel := by
  obtain ⟨current, slots⟩ := created_slots hc
  refine ⟨created_at_tick h.toAtTick hc, ?_⟩
  intro hpos
  rw [current] at hpos ⊢
  have running := h.running hpos
  rw [slots _ (by simp [running])]
  exact running

theorem init_scheduled (s : System) : Scheduled (initOS s).kernel := by
  refine ⟨⟨Or.inl rfl, ?_, ?_⟩, ?_⟩
  · intro i hl hu he
    simp [initOS, forEachProcess, hl, hu] at he
  · intro i hl hu
    refine Or.inr (Or.inr (Or.inl ?_))
    simp [initOS, forEachProcess, hl, hu]
  · intro h
    change (0 : Int) ≤ -1 at h
    omega

/-- Every event keeps the invariant. -/
theorem next_scheduled {s : System} (h : Scheduled s.kernel) (e : Event) :
    Scheduled (next s e).kernel := by
  cases e with
  | create host u progName => exact created_scheduled h (create_process_created host u progName s)
  | worker u =>
    have worked := worked_at_tick h (worker_step_worked u s)
    rw [next, workerIteration]
    generalize workerStep u s = r at worked
    obtain ⟨ticks, t⟩ := r
    cases ticks with
    | true => exact (tick_scheduled worked.1).1
    | false => exact worked.2 rfl
  | monitor active => exact h
  | restart => exact init_scheduled _

theorem run_scheduled (s : System) (es : List Event) :
    Scheduled (Trace.run next (initOS s) es).kernel :=
  Trace.run_invariant (fun t : System => Scheduled t.kernel) (init_scheduled s)
    (fun _ e _ h => next_scheduled h e)

/-- In every reachable state the executing slot is the current one and no other, every slot is in
a state it can leave, and a tick idles only when there is nothing to run. -/
theorem single_running_process (s : System) (es : List Event) :
    (∀ i, 0 ≤ i → i < 20 →
      (((Trace.run next (initOS s) es).kernel.processTable i).state = .executing ↔
        i = (Trace.run next (initOS s) es).kernel.currentActiveProcess)) ∧
    ((Trace.run next (initOS s) es).kernel.currentActiveProcess = -1 ∨
      0 ≤ (Trace.run next (initOS s) es).kernel.currentActiveProcess ∧
        (Trace.run next (initOS s) es).kernel.currentActiveProcess < 20) ∧
    (∀ e t, tickAt (Trace.run next (initOS s) es) e = some t →
      (schedulerTick t).kernel.currentActiveProcess = -1 →
      ∀ i, 0 ≤ i → i < 20 → ((schedulerTick t).kernel.processTable i).state ≠ .ready) ∧
    (∀ i, 0 ≤ i → i < 20 →
      Classified ((Trace.run next (initOS s) es).kernel.processTable i)) := by
  have h := run_scheduled s es
  refine ⟨?_, h.current, ?_, h.classified⟩
  · intro i hl hu
    exact h.executing hl hu
  · intro e t ht
    have worked := worked_at_tick h (tick_worked ht)
    exact (tick_scheduled worked.1).2

end Lucario.Proofs
