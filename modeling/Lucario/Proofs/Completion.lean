import Lucario.Proofs.RunsAlone
import Lucario.Proofs.Starvation

namespace Lucario.Proofs

def WholeStep (m : Machine) (os : List (List Effect)) (n : Machine) : Prop :=
  ∃ o, AloneStep m o n ∧ os = [o]

def HaltsWithin (n : Nat) (m : Machine) : Prop :=
  ∀ os t, Simulation.Steps WholeStep m os t → os.length ≤ n

/-- Alone, the machine is over after at most `n` steps, all before a first system call that asks for
anything but the end. -/
def haltsBy : Nat → Machine → Bool
  | n, m =>
    match fetched m with
    | none => true
    | some (inst, k) =>
      if inst.opCode = .svc then wordToInt k.cpu.ac = 1
      else
        match n with
        | 0 => (handler zeros inst k).1 = .fail
        | n + 1 => (handler zeros inst k).1 = .fail || haltsBy n (handler zeros inst k).2

/-- An iteration that does not bring the process in slot `p` nearer to its next instruction: it is
blocked, or the timer interrupt of the running process is passed over. -/
def holdsUp (p : Int) (s : System) (e : Event) : Bool :=
  passesOver s e || iterates s e && ((s.kernel.processTable p).state = .blocked ||
    (s.kernel.processTable p).state = .blockedIo)

def untilNext (p : Int) (s : System) : Int :=
  if s.kernel.currentActiveProcess = p then 0
  else if (s.kernel.processTable p).state = .ready then ahead p s + 1
  else 60

theorem halts_within_zero {m : Machine} (h : ∀ o t, ¬ AloneStep m o t) : HaltsWithin 0 m := by
  intro os t run
  rcases run.cases_head with ⟨rfl, -⟩ | ⟨-, v, -, ⟨o, hstep, -⟩, -, -⟩
  · exact le_rfl
  · exact absurd hstep (h o v)

theorem halts_within_succ {n : Nat} {m : Machine} (h : ∀ o t, AloneStep m o t → HaltsWithin n t) :
    HaltsWithin (n + 1) m := by
  intro os t run
  rcases run.cases_head with ⟨rfl, -⟩ | ⟨-, v, os', ⟨o, hstep, rfl⟩, rest, rfl⟩
  · exact Nat.zero_le _
  · have hrest := h o v hstep os' t rest
    rw [List.length_append, List.length_singleton]
    omega

/-- A machine that comes to its end by itself halts. -/
theorem halts_by_within {n : Nat} {m : Machine} (h : haltsBy n m = true) : HaltsWithin n m := by
  induction n generalizing m with
  | zero =>
    refine halts_within_zero ?_
    intro o t hstep
    cases hstep with
    | instruction u hf hop hh =>
      rw [haltsBy, hf] at h
      simp [hop, handler_status zeros u, hh] at h
    | call hf hop ha =>
      rw [haltsBy, hf] at h
      simp only [hop, if_true, decide_eq_true_eq] at h
      cases ha <;> simp_all
  | succ n ih =>
    refine halts_within_succ ?_
    intro o t hstep
    cases hstep with
    | instruction u hf hop hh =>
      rw [haltsBy, hf] at h
      simp only [hop, if_false] at h
      rw [handler_unspecified zeros (by rw [hh]), hh] at h
      exact ih (by simpa using h)
    | call hf hop ha =>
      rw [haltsBy, hf] at h
      simp only [hop, if_true, decide_eq_true_eq] at h
      cases ha <;> simp_all

section

variable {s : System} {e : Event} {u : Unspecified} {p : Int}

theorem until_next_bounds (hs : Scheduled s.kernel) (h : AllClocked s) (p : Int) :
    0 ≤ untilNext p s ∧ untilNext p s ≤ 60 := by
  have hahead := ahead_bounds hs h p
  unfold untilNext
  split_ifs <;> omega

/-- The running process executes an instruction if it goes on after the iteration. -/
theorem running_executes (hp : Live s.kernel p) (hcur : s.kernel.currentActiveProcess = p)
    (hlive : Live (next s (.worker u)).kernel p) : executes p s (.worker u) = true := by
  obtain ⟨hstatus, -⟩ := worker_registers_running u ⟨hp.1, hp.2.1⟩ hcur hlive
  have hc : s.kernel.currentActiveProcess ≠ -1 := by
    have := hp.1
    omega
  cases hf : fetched s.hw with
  | none =>
    rw [cpu_step_unfetched u hf] at hstatus
    cases hstatus
  | some x => simp [executes, hcur, executed_of_fetched (u := u) hc hf]

theorem executes_runs (h : executes p s e = true) : Runs s e p := by
  obtain ⟨hcur, hx⟩ := Bool.and_eq_true_iff.mp h
  obtain ⟨x, hx⟩ := Option.isSome_iff_exists.mp hx
  obtain ⟨rfl, -⟩ := executed_worker hx
  exact ⟨of_decide_eq_true hcur, _, rfl⟩

/-- A process that waits for its turn gets it or goes on waiting. -/
theorem ready_stays (hs : Scheduled s.kernel) (hp : WaitsReady s.kernel p) (he : e ≠ .restart) :
    (next s e).kernel.currentActiveProcess = p ∨ WaitsReady (next s e).kernel p := by
  have hne : s.kernel.currentActiveProcess ≠ p := by
    rintro rfl
    have hready := hp.2.2
    rw [hs.running hp.1] at hready
    cases hready
  cases htick : tickAt s e with
  | some t =>
    have hcur := tick_current htick
    have hready : ((beforeScan t).processTable p).state = .ready := ready_at_scan hs hp htick
    rw [next_of_tick htick]
    rcases tick_cases (s := t) (hcur ▸ hs.current) with ⟨n, -, -, -, -, ht⟩ | ⟨hnone, -⟩
    · by_cases hn : n = p
      · left
        rw [ht]
        exact hn
      · refine Or.inr ⟨hp.1, hp.2.1, ?_⟩
        rw [ht]
        simpa [Kernel.modifyProcess, Ne.symm hn] using hready
    · exact absurd hready (hnone p hp.1 hp.2.1)
  | none =>
    have hslot : (next s e).kernel.processTable p = s.kernel.processTable p := by
      cases e with
      | create host u progName =>
        refine (created_slots (create_process_created host u progName s)).2 p ?_
        rw [hp.2.2]
        decide
      | worker u =>
        have worked := worker_step_worked u s
        rw [next_without_tick htick] at worked
        exact (worked_slots worked).2 p hne
      | monitor active => rfl
      | restart => exact absurd rfl he
    refine Or.inr ⟨hp.1, hp.2.1, ?_⟩
    rw [hslot]
    exact hp.2.2

/-- What is no iteration changes nothing about a live process's wait. -/
theorem other_until_next (hp : Live s.kernel p) (hr : e ≠ .restart) (he : ∀ u, e ≠ .worker u) :
    untilNext p (next s e) = untilNext p s := by
  have hahead := other_ahead (p := p) hr he (s := s)
  cases e with
  | create host u progName =>
    obtain ⟨hcur, hslots⟩ := created_slots (create_process_created host u progName s)
    have hslot := hslots p hp.2.2
    unfold untilNext
    rw [hahead]
    simp only [next, hcur, hslot]
  | worker u => exact absurd rfl (he u)
  | monitor active => rfl
  | restart => exact absurd rfl hr

theorem ready_until_next (hs : Scheduled s.kernel) (h : AllClocked s)
    (ht : LeavesTimer s (.worker u)) (hp : WaitsReady s.kernel p) :
    untilNext p (next s (.worker u)) + 1 ≤
      untilNext p s + if holdsUp p s (.worker u) then 1 else 0 := by
  have hcur : s.kernel.currentActiveProcess ≠ p := by
    rintro rfl
    have hready := hp.2.2
    rw [hs.running hp.1] at hready
    cases hready
  have before : untilNext p s = ahead p s + 1 := by
    rw [untilNext, if_neg hcur, if_pos hp.2.2]
  have excuse := excuse_nonneg (holdsUp p s (.worker u))
  have nonneg := (ahead_bounds hs h p).1
  rcases ready_stays hs hp (e := .worker u) Event.noConfusion with hturn | hafter
  · have after : untilNext p (next s (.worker u)) = 0 := if_pos hturn
    omega
  · have closer := iteration_ahead hs h ht hp hafter
    have after : untilNext p (next s (.worker u)) ≤ ahead p (next s (.worker u)) + 1 := by
      have := (ahead_bounds (next_scheduled hs (.worker u)) (next_clocked hs h ht) p).1
      rw [untilNext, if_pos hafter.2.2]
      split_ifs <;> omega
    cases hpass : passesOver s (.worker u) with
    | true =>
      have held : holdsUp p s (.worker u) = true := by rw [holdsUp, hpass, Bool.true_or]
      rw [hpass, if_pos rfl] at closer
      rw [held, if_pos rfl]
      omega
    | false =>
      rw [hpass] at closer
      simp only [Bool.false_eq_true, if_false] at closer
      omega

theorem blocked_until_next (hs : Scheduled s.kernel) (h : AllClocked s)
    (ht : LeavesTimer s (.worker u)) (hcur : s.kernel.currentActiveProcess ≠ p)
    (hp : (s.kernel.processTable p).state = .blocked ∨
      (s.kernel.processTable p).state = .blockedIo) :
    untilNext p (next s (.worker u)) + 1 ≤
      untilNext p s + if holdsUp p s (.worker u) then 1 else 0 := by
  have after := (until_next_bounds (next_scheduled hs (.worker u)) (next_clocked hs h ht) p).2
  have hready : (s.kernel.processTable p).state ≠ .ready := by
    rcases hp with hstate | hstate <;>
    · rw [hstate]
      decide
  have before : untilNext p s = 60 := by rw [untilNext, if_neg hcur, if_neg hready]
  have held : holdsUp p s (.worker u) = true := by
    rcases hp with hstate | hstate <;> simp [holdsUp, iterates, hstate]
  rw [held, if_pos rfl]
  omega

/-- Every iteration brings a process nearer to its next instruction, unless it is held up; only an
instruction of its own puts it back. -/
theorem event_until_next (hs : Scheduled s.kernel) (h : AllClocked s) (ht : LeavesTimer s e)
    (hp : Live s.kernel p) (hlive : Live (next s e).kernel p) :
    untilNext p (next s e) + (if iterates s e then 1 else 0) ≤
      untilNext p s + (if holdsUp p s e then 1 else 0) +
        if executes p s e then ((61 : Nat) : Int) else 0 := by
  have excuse := excuse_nonneg (holdsUp p s e)
  by_cases hworker : ∃ u, e = .worker u
  · obtain ⟨u, rfl⟩ := hworker
    have counted : iterates s (.worker u) = true := rfl
    rw [counted, if_pos rfl]
    by_cases hcur : s.kernel.currentActiveProcess = p
    · have after := (until_next_bounds (next_scheduled hs (.worker u)) (next_clocked hs h ht) p).2
      have before := (until_next_bounds hs h p).1
      rw [running_executes hp hcur hlive, if_pos rfl]
      push_cast
      omega
    · have other : executes p s (.worker u) = false := by simp [executes, hcur]
      rw [other, if_neg Bool.false_ne_true, add_zero]
      rcases hs.classified p hp.1 hp.2.1 with hready | hexec | hfin | ⟨hblocked, -⟩ | hio
      · exact ready_until_next hs h ht ⟨hp.1, hp.2.1, hready⟩
      · exact absurd ((hs.executing hp.1 hp.2.1).mp hexec).symm hcur
      · exact absurd hfin hp.2.2
      · exact blocked_until_next hs h ht hcur (Or.inl hblocked)
      · exact blocked_until_next hs h ht hcur (Or.inr hio)
  · have hr : e ≠ .restart := by
      rintro rfl
      exact restart_ends hlive
    have hsame := other_until_next hp hr (fun u hu => hworker ⟨u, hu⟩)
    have quiet : iterates s e = false := by
      cases e with
      | worker u => exact absurd ⟨u, rfl⟩ hworker
      | _ => rfl
    rw [hsame, quiet, if_neg Bool.false_ne_true]
    split_ifs <;> omega

end

section

variable {keyboard : Nat → Int} {es : List Event} {i j n : Nat} {p floor : Int}

/-- Between two of its instructions a live process waits for at most sixty iterations that do not
hold it up. -/
theorem iterations_paid
    (ht : ∀ k e, es[k]? = some e → LeavesTimer (Trace.stateAt next (boot keyboard) es k) e)
    (hij : i ≤ j) (hj : j ≤ es.length)
    (hp : ∀ k, i ≤ k → k ≤ j → Live (Trace.stateAt next (boot keyboard) es k).kernel p) :
    Trace.count next (boot keyboard) es iterates i j ≤
      60 + Trace.count next (boot keyboard) es (holdsUp p) i j +
        61 * Trace.count next (boot keyboard) es (executes p) i j := by
  have scheduled := state_at_scheduled (powerOn keyboard) es
  have paid := @Progress.count_le_paid _ _ next (boot keyboard) es (untilNext p) iterates
    (holdsUp p) (executes p) 61 i j hij hj (by
      intro k e hik hkj he
      have hafter := hp (k + 1) (by omega) hkj
      rw [Trace.stateAt_succ he] at hafter
      exact event_until_next (scheduled k) (state_at_clocked ht (by omega)) (ht k e he)
        (hp k hik hkj.le) hafter)
  have first := until_next_bounds (scheduled i) (state_at_clocked ht (by omega)) p
  have last := until_next_bounds (scheduled j) (state_at_clocked ht hj) p
  simp only [boot] at paid first last ⊢
  push_cast at paid
  omega

/-- A process executes no more instructions than its program makes steps alone, those repeated for a
closed monitor not counted. -/
theorem executions_le (hm : ∀ k e, es[k]? = some e →
      Mannerly (Trace.stateAt next (boot keyboard) es k) e)
    (hfloor : 0 ≤ floor) (h : Lifetime (boot keyboard) es j p i) (hi : i ≤ es.length)
    (hd : ∀ k e, j < k → k ≤ i → es[k]? = some e →
      KeepsDiscipline floor p (Trace.stateAt next (boot keyboard) es k) e)
    (halts : HaltsWithin n (machineOf (Trace.stateAt next (boot keyboard) es (j + 1)) p)) :
    Trace.count next (boot keyboard) es (executes p) (j + 1) i ≤
      n + Trace.count next (boot keyboard) es (callsInVain p) (j + 1) i := by
  have hafter : j + 1 ≤ i := h.after
  obtain ⟨o, t, hshows, hsteps, -⟩ := Simulation.run_simulated WholeStep
    (fun _ s t => Agree (Home floor (registers s p)) (machineOf s p) t)
    (fun _ s e os => (if executes p s e then 1 else 0) ≤
      os.length + if callsInVain p s e then 1 else 0)
    hafter hi (Agree.refl _ _) (by
      intro k e t hjk hki he agree
      have orderly := state_at_orderly hm (by omega : k ≤ es.length)
      have hlive := h.live (k + 1) (by omega) (by omega)
      rw [Trace.stateAt_succ he] at hlive
      obtain ⟨os, t', -, hstep, hagree⟩ := event_alone hfloor orderly (hm k e he)
        (h.live k hjk (by omega)) hlive (hd k e hjk (by omega) he) agree
      rcases hstep with ⟨-, hstep⟩ | ⟨-, rfl, hvain⟩
      · refine ⟨[os], t', ?_, .single ⟨os, hstep, rfl⟩, hagree⟩
        split_ifs <;> simp
      · refine ⟨[], t', ?_, .refl _, hagree⟩
        cases hx : executes p (Trace.stateAt next (boot keyboard) es k) e with
        | false => simp
        | true => simp [hvain (executes_runs hx)])
  have bound := Simulation.count_le_shown next (boot keyboard) es (executes p) (callsInVain p) o
    hafter hi hshows
  have hlen := halts _ _ hsteps
  omega

def endsAmongOthers : List Event :=
  session "_start 1\n.N 2\n.P A\n04100001\n13100000\n"
    "_start 1\n.N 2\n.P B\n04100003\n13100000\n" 3

end

end Lucario.Proofs
