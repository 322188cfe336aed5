import Lucario.Proofs.Lifetime
import Lucario.Threads

namespace Lucario.Proofs

def threadTick (t : Threads) : ThreadEvent → Option System
  | .worker u =>
    match t.phase with
    | .running =>
      if t.system.kernel.currentActiveProcess ≠ -1 then
        match cpuStep u t.system with
        | (true, s) =>
          if s.kernel.osYield then some { s with kernel := { s.kernel with osYield := false } }
          else none
        | (false, _) => none
      else some t.system
    | .finished => some t.system
    | _ => none
  | _ => none

/-- The steps of a termination add up to the iteration that takes them all at once. -/
theorem worker_iteration_steps (u : Unspecified) (s : System) :
    ∃ n, Trace.run threadNext ⟨s, .running⟩ (List.replicate n (.worker u)) =
      ⟨workerIteration u s, .running⟩ := by
  by_cases hc : s.kernel.currentActiveProcess = -1
  · refine ⟨1, ?_⟩
    simp [Trace.run, threadNext, workerAdvance, workerIteration, workerStep, hc]
  · cases hstep : cpuStep u s with
    | mk status t =>
      cases status with
      | false =>
        refine ⟨4, ?_⟩
        simp [Trace.run, List.replicate, threadNext, workerAdvance, workerIteration, workerStep,
          hc, hstep]
      | true =>
        refine ⟨1, ?_⟩
        simp only [Trace.run, List.replicate, List.foldl_cons, List.foldl_nil, threadNext,
          workerAdvance, workerIteration, workerStep, ne_eq, hc, not_false_eq_true, if_true, hstep]
        split_ifs <;> rfl

/-- What the steps of both threads keep: the process table is as between two iterations until the
slot is marked as finished, and as at the beginning of a tick from then on. -/
def ThreadInvariant (t : Threads) : Prop :=
  match t.phase with
  | .running => Scheduled t.system.kernel
  | .stopped => Scheduled t.system.kernel ∧ t.system.kernel.currentActiveProcess ≠ -1
  | .released => Scheduled t.system.kernel ∧ t.system.kernel.currentActiveProcess ≠ -1
  | .finished => AtTick t.system.kernel

section

variable {t : Threads} {p pid : Int} {cpu : Cpu}

/-- The outcome of the head of the loop: a tick, an iteration without one, or the beginning of a
termination. -/
theorem running_cases (u : Unspecified) (h : t.phase = .running) :
    (∃ s, threadTick t (.worker u) = some s ∧
      threadNext t (.worker u) = ⟨schedulerTick s, .running⟩ ∧ Worked t.system (true, s)) ∨
    (threadTick t (.worker u) = none ∧ ∃ s, threadNext t (.worker u) = ⟨s, .running⟩ ∧
      Worked t.system (false, s)) ∨
    (threadTick t (.worker u) = none ∧ t.system.kernel.currentActiveProcess ≠ -1 ∧
      ∃ hw mon, threadNext t (.worker u) =
        ⟨{ t.system with hw := hw, monitor := mon }, .stopped⟩) := by
  obtain ⟨s, phase⟩ := t
  dsimp only at h
  subst h
  simp only [threadTick, threadNext, workerAdvance]
  split_ifs with hc
  · have stepped := cpu_step_stepped u s
    generalize cpuStep u s = r at stepped
    cases stepped with
    | plain status hw mon =>
      cases status with
      | false => exact Or.inr (Or.inr ⟨rfl, hc, hw, mon, rfl⟩)
      | true =>
        dsimp only
        split_ifs
        · exact Or.inl ⟨_, rfl, rfl, .yielded hc hw mon⟩
        · exact Or.inr (Or.inl ⟨rfl, _, rfl, .ran hc hw mon⟩)
    | yielded hw => exact Or.inl ⟨_, rfl, rfl, .yielded hc hw s.monitor⟩
    | blocked hw f hf => exact Or.inl ⟨_, rfl, rfl, .blocked hc hw f hf⟩
  · exact Or.inl ⟨_, rfl, rfl, .idle (not_not.mp hc)⟩

theorem mark_finished_at_tick {s : System} (h : AtTick s.kernel) :
    AtTick (markFinished s).kernel := by
  refine h.modify rfl (fun i hi => Function.update_of_ne hi _ _) ?_
  refine Or.inr (Or.inr (Or.inl ?_))
  simp [markFinished, System.setState, System.modifyProcess, Kernel.modifyProcess]

theorem thread_next_invariant (h : ThreadInvariant t) (e : ThreadEvent) :
    ThreadInvariant (threadNext t e) := by
  cases e with
  | worker u =>
    cases hphase : t.phase with
    | running =>
      rw [ThreadInvariant, hphase] at h
      rcases running_cases u hphase with ⟨s, -, hnext, hw⟩ | ⟨-, s, hnext, hw⟩ |
        ⟨-, hc, hw, mon, hnext⟩ <;> rw [hnext]
      · exact (tick_scheduled (worked_at_tick h hw).1).1
      · exact (worked_at_tick h hw).2 rfl
      · exact ⟨h, hc⟩
    | stopped =>
      rw [ThreadInvariant, hphase] at h
      simp only [threadNext, workerAdvance, hphase]
      exact ⟨⟨⟨h.1.current, h.1.single, h.1.classified⟩, h.1.running⟩, h.2⟩
    | released =>
      rw [ThreadInvariant, hphase] at h
      simp only [threadNext, workerAdvance, hphase]
      exact mark_finished_at_tick h.1.toAtTick
    | finished =>
      rw [ThreadInvariant, hphase] at h
      simp only [threadNext, workerAdvance, hphase]
      exact (tick_scheduled h).1
  | create host u progName =>
    have created := create_process_created host u progName t.system
    have hcur := (created_running host u progName t.system).1
    obtain ⟨s, phase⟩ := t
    cases phase with
    | running => exact created_scheduled h created
    | stopped => exact ⟨created_scheduled h.1 created, hcur.symm ▸ h.2⟩
    | released => exact ⟨created_scheduled h.1 created, hcur.symm ▸ h.2⟩
    | finished => exact created_at_tick h created
  | monitor active =>
    obtain ⟨s, phase⟩ := t
    cases phase <;> exact h

/-- In every phase a tick finds a slot index or none. -/
theorem ThreadInvariant.current (h : ThreadInvariant t) :
    ValidCurrent t.system.kernel.currentActiveProcess := by
  unfold ThreadInvariant at h
  cases hphase : t.phase <;> rw [hphase] at h
  · exact h.current
  · exact h.1.current
  · exact h.1.current
  · exact h.current

/-- A waiting process is out of reach of every step of both threads that does not dispatch it. -/
theorem thread_next_parked {e : ThreadEvent} (hi : ThreadInvariant t)
    (h : Parked t.system.kernel p pid cpu)
    (hd : ∀ s, threadTick t e = some s → dispatched s ≠ p) :
    Parked (threadNext t e).system.kernel p pid cpu := by
  cases e with
  | worker u =>
    have hcurrent := hi.current
    cases hphase : t.phase with
    | running =>
      rw [ThreadInvariant, hphase] at hi
      rcases running_cases u hphase with ⟨s, htick, hnext, hw⟩ | ⟨-, s, hnext, hw⟩ |
        ⟨-, hc, hw, mon, hnext⟩ <;> rw [hnext]
      · exact tick_parked (worked_at_tick hi hw).1.current (worked_parked hw h) (hd s htick)
      · exact worked_parked hw h
      · exact h
    | stopped =>
      simp only [threadNext, workerAdvance, hphase]
      exact h.of_same_slot rfl rfl
    | released =>
      simp only [threadNext, workerAdvance, hphase]
      exact h.of_same_slot rfl (Function.update_of_ne h.waiting _ _)
    | finished =>
      have htick : threadTick t (.worker u) = some t.system := by simp only [threadTick, hphase]
      simp only [threadNext, workerAdvance, hphase]
      exact tick_parked hcurrent h (hd _ htick)
  | create host u progName =>
    exact created_parked (create_process_created host u progName t.system) h
  | monitor active => exact h

theorem thread_tick_current {e : ThreadEvent} {s : System} (h : ThreadInvariant t)
    (hs : threadTick t e = some s) : ValidCurrent s.kernel.currentActiveProcess := by
  have hcurrent := h.current
  cases e with
  | worker u =>
    cases hphase : t.phase with
    | running =>
      rcases running_cases u hphase with ⟨s', htick, -, hw⟩ | ⟨hno, -⟩ | ⟨hno, -⟩
      · obtain rfl : s' = s := Option.some.inj (htick.symm.trans hs)
        exact (worked_slots hw).1.symm ▸ hcurrent
      · rw [hno] at hs
        cases hs
      · rw [hno] at hs
        cases hs
    | stopped => simp [threadTick, hphase] at hs
    | released => simp [threadTick, hphase] at hs
    | finished =>
      simp only [threadTick, hphase, Option.some.injEq] at hs
      subst hs
      exact hcurrent
  | create host u progName => cases hs
  | monitor active => cases hs

/-- A tick finds a waiting process as the step that makes it found it. -/
theorem thread_tick_parked {e : ThreadEvent} {s : System} (h : Parked t.system.kernel p pid cpu)
    (hs : threadTick t e = some s) : Parked s.kernel p pid cpu := by
  cases e with
  | worker u =>
    cases hphase : t.phase with
    | running =>
      rcases running_cases u hphase with ⟨s', htick, -, hw⟩ | ⟨hno, -⟩ | ⟨hno, -⟩
      · obtain rfl : s' = s := Option.some.inj (htick.symm.trans hs)
        exact worked_parked hw h
      · rw [hno] at hs
        cases hs
      · rw [hno] at hs
        cases hs
    | stopped => simp [threadTick, hphase] at hs
    | released => simp [threadTick, hphase] at hs
    | finished =>
      simp only [threadTick, hphase, Option.some.injEq] at hs
      subst hs
      exact h
  | create host u progName => cases hs
  | monitor active => cases hs

end

/-- The creation falls between the marking of a slot as finished and the tick of that termination,
and is given this very slot. -/
def TakesDyingSlot (t : Threads) : ThreadEvent → Prop
  | .create _ _ _ => t.phase = .finished ∧
    getFreePCBIndex t.system.kernel = t.system.kernel.currentActiveProcess
  | _ => False

structure FirstDispatch (t : Threads) (es : List ThreadEvent) (i : Nat) (p : Int) (j : Nat)
    (r : System) : Prop where
  free : ¬ Live (Trace.stateAt threadNext t es i).system.kernel p
  made : Live (Trace.stateAt threadNext t es (i + 1)).system.kernel p
  after : i < j
  tick : ∃ e, es[j]? = some e ∧ threadTick (Trace.stateAt threadNext t es j) e = some r
  slot : dispatched r = p
  first : ∀ k d q, i < k → k < j → es[k]? = some d →
    threadTick (Trace.stateAt threadNext t es k) d = some q → dispatched q ≠ p

def started (keyboard : Nat → Int) : Threads := ⟨boot keyboard, .running⟩

theorem thread_invariant (keyboard : Nat → Int) (es : List ThreadEvent) (i : Nat) :
    ThreadInvariant (Trace.stateAt threadNext (started keyboard) es i) := by
  refine Trace.stateAt_invariant ThreadInvariant ?_ (fun _ e _ h => thread_next_invariant h e) i
  exact init_scheduled (powerOn keyboard)

/-- A process that is not given the slot of one just dying is parked from its creation on. -/
theorem creation_parked {t : Threads} {host : Host} {u : Unspecified} {progName : List Char}
    {p : Int} (hi : ThreadInvariant t) (hfree : ¬ Live t.system.kernel p)
    (hmade : Live (threadNext t (.create host u progName)).system.kernel p)
    (hsafe : ¬ TakesDyingSlot t (.create host u progName)) :
    Parked (threadNext t (.create host u progName)).system.kernel p
      ((createProcess host u progName t.system).2.kernel.processTable p).pid
      ((createProcess host u progName t.system).2.kernel.processTable p).context := by
  have hslot : p = getFreePCBIndex t.system.kernel := by
    by_contra hne
    refine hfree ⟨hmade.1, hmade.2.1, ?_⟩
    rw [← create_process_slot host u progName t.system hne]
    exact hmade.2.2
  have hcur := (created_running host u progName t.system).1
  have hwaits : p ≠ t.system.kernel.currentActiveProcess := by
    intro he
    -- outside the gap the running slot is still marked as executing
    have scheduled : Scheduled t.system.kernel → False := fun hs =>
      hfree ⟨hmade.1, hmade.2.1, by rw [he, hs.running (he ▸ hmade.1)]; decide⟩
    unfold ThreadInvariant at hi
    cases hphase : t.phase <;> rw [hphase] at hi
    · exact scheduled hi
    · exact scheduled hi.1
    · exact scheduled hi.1
    · exact hsafe ⟨hphase, hslot ▸ he⟩
  refine ⟨⟨hmade.1, hmade.2.1⟩, ?_, hmade.2.2, rfl, rfl⟩
  exact fun he => hwaits (he.trans hcur)

/-- Whatever the threads do to each other in between, the first tick that dispatches a new process
loads the context it was created with, unless its slot is that of a process just dying. -/
theorem creation_loses_nothing (keyboard : Nat → Int) (es : List ThreadEvent) (i j : Nat)
    (host : Host) (u : Unspecified) (progName : List Char) (p : Int) (r : System)
    (he : es[i]? = some (.create host u progName))
    (hsafe : ¬ TakesDyingSlot (Trace.stateAt threadNext (started keyboard) es i)
      (.create host u progName))
    (h : FirstDispatch (started keyboard) es i p j r) :
    (schedulerTick r).hw.cpu = ((createProcess host u progName
      (Trace.stateAt threadNext (started keyboard) es i).system).2.kernel.processTable
        p).context := by
  obtain ⟨e, hej, htick⟩ := h.tick
  have hj : j < es.length := (List.getElem?_eq_some_iff.mp hej).1
  have hmade := h.made
  have hnext : Trace.stateAt threadNext (started keyboard) es (i + 1) =
      threadNext (Trace.stateAt threadNext (started keyboard) es i) (.create host u progName) :=
    Trace.stateAt_succ he
  rw [hnext] at hmade
  have parked := creation_parked (thread_invariant keyboard es i) h.free hmade hsafe
  rw [← hnext] at parked
  have still := Trace.stateAt_window (fun t : Threads => Parked t.system.kernel p _ _)
    (by have := h.after; omega : i + 1 ≤ j) hj.le parked (by
      intro k d hik hkj hd hk
      refine thread_next_parked (thread_invariant keyboard es k) hk ?_
      intro q hq
      exact h.first k d q (by omega) hkj hd hq)
  have waits := before_scan_parked (thread_tick_parked still htick)
  have hcurrent := thread_tick_current (thread_invariant keyboard es j) htick
  rw [(dispatched_slot hcurrent waits.slot.1 h.slot).1, waits.context]

/-- A program is killed, and another one is created between the release of its memory and the end of
its process. -/
def midwayCreation : List ThreadEvent :=
  let host := hostOf "_start 1\n.N 1\n.P A\n99000000\n" "_start 1\n.N 1\n.P B\n06000000\n"
  [.create host zeros ['a'], .worker zeros, .worker zeros, .worker zeros,
    .create host zeros ['b'], .worker zeros, .worker zeros]

theorem creation_loses_nothing_midway :
    (Trace.stateAt threadNext (started zeroKeys) midwayCreation 4).phase = .released ∧
    (schedulerTick (Trace.stateAt threadNext (started zeroKeys) midwayCreation 6).system).hw.cpu =
      ((Trace.stateAt threadNext (started zeroKeys) midwayCreation 5).system.kernel.processTable
        1).context := by
  have released : (Trace.stateAt threadNext (started zeroKeys) midwayCreation 4).phase =
      .released := by decide +kernel
  have between : (Trace.stateAt threadNext (started zeroKeys) midwayCreation 5).phase =
      .released := by decide +kernel
  have last : (Trace.stateAt threadNext (started zeroKeys) midwayCreation 6).phase = .finished := by
    decide +kernel
  refine ⟨released, creation_loses_nothing zeroKeys midwayCreation 4 6 _ _ _ 1 _ rfl ?_ ?_⟩
  · rintro ⟨finished, -⟩
    rw [released] at finished
    cases finished
  · refine ⟨by decide +kernel, by decide +kernel, by decide, ⟨_, rfl, ?_⟩, by decide +kernel, ?_⟩
    · simp only [threadTick, last]
    · intro k e q h4 h6 he htick
      obtain rfl : k = 5 := by omega
      obtain rfl := Option.some.inj he
      simp [threadTick, between] at htick

def tornTermination : List ThreadEvent :=
  let host := hostOf "_start 1\n.N 1\n.P A\n99000000\n" "_start 1\n.N 1\n.P B\n06000000\n"
  [.create host zeros ['a'], .worker zeros, .worker zeros, .worker zeros, .worker zeros,
    .create host zeros ['b'], .worker zeros]

/-- The tick of the termination saves the registers of the dead process over those of the new one,
and dispatches it with them. -/
theorem not_creation_loses_nothing :
    ¬ ∀ (keyboard : Nat → Int) (es : List ThreadEvent) (i j : Nat) (host : Host)
      (u : Unspecified) (progName : List Char) (p : Int) (r : System),
      es[i]? = some (.create host u progName) →
      FirstDispatch (started keyboard) es i p j r →
      (schedulerTick r).hw.cpu = ((createProcess host u progName
        (Trace.stateAt threadNext (started keyboard) es i).system).2.kernel.processTable
          p).context := by
  intro h
  have dying : (Trace.stateAt threadNext (started zeroKeys) tornTermination 6).phase =
      .finished := by decide +kernel
  have loaded := h zeroKeys tornTermination 5 6 _ _ _ 0
    (Trace.stateAt threadNext (started zeroKeys) tornTermination 6).system rfl
    ⟨by decide +kernel, by decide +kernel, by decide,
      ⟨_, rfl, by simp only [threadTick, dying]⟩, by decide +kernel,
      fun k _ _ h5 h6 => by omega⟩
  have lost : (schedulerTick (Trace.stateAt threadNext (started zeroKeys)
        tornTermination 6).system).hw.cpu.ir ≠
      ((Trace.stateAt threadNext (started zeroKeys) tornTermination 6).system.kernel.processTable
        0).context.ir := by decide +kernel
  exact lost (congrArg Cpu.ir loaded)

end Lucario.Proofs
