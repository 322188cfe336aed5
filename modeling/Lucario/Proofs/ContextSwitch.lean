import Lucario.Proofs.Scheduling
import Lucario.Proofs.Sessions

namespace Lucario.Proofs

/-- A process that waits in its slot with its registers saved there. -/
structure Parked (k : Kernel) (p pid : Int) (cpu : Cpu) : Prop where
  slot : 0 ≤ p ∧ p < 20
  waiting : p ≠ k.currentActiveProcess
  live : (k.processTable p).state ≠ .finished
  same : (k.processTable p).pid = pid
  context : (k.processTable p).context = cpu

variable {s t : System} {p pid : Int} {cpu : Cpu}

theorem Parked.of_same_slot {k k' : Kernel} (h : Parked k p pid cpu)
    (hcur : k'.currentActiveProcess = k.currentActiveProcess)
    (hslot : k'.processTable p = k.processTable p) : Parked k' p pid cpu := by
  refine ⟨h.slot, ?_, ?_, ?_, ?_⟩
  · rw [hcur]
    exact h.waiting
  · rw [hslot]
    exact h.live
  · rw [hslot]
    exact h.same
  · rw [hslot]
    exact h.context

/-- The part of a tick before the scan does not touch a parked process. -/
theorem before_scan_parked (h : Parked s.kernel p pid cpu) : Parked (beforeScan s) p pid cpu := by
  obtain ⟨hpid, hcontext, -, -, hfin⟩ := stirred_kept s (s.kernel.processTable p)
  have hslot := before_scan_at s h.slot.1 h.slot.2
  rw [if_neg h.waiting] at hslot
  refine ⟨h.slot, ?_, ?_, ?_, ?_⟩
  · rw [before_scan_current]
    exact h.waiting
  · rw [hslot]
    exact fun he => h.live (hfin.mp he)
  · rw [hslot, hpid]
    exact h.same
  · rw [hslot, hcontext]
    exact h.context

/-- Once its own save is made, the outgoing process is parked with the registers it had. -/
theorem outgoing_saved (hp : 0 ≤ p ∧ p < 20) (hcur : s.kernel.currentActiveProcess = p) :
    ((beforeScan s).processTable p).context = s.hw.cpu ∧
      ((beforeScan s).processTable p).pid = (s.kernel.processTable p).pid := by
  obtain ⟨hpid, -⟩ := stirred_kept s (s.kernel.processTable p)
  rw [before_scan_at s hp.1 hp.2, if_pos hcur.symm]
  exact ⟨rfl, hpid⟩

/-- A tick that passes over a slot leaves it as the save and the wake-ups made it. -/
theorem passed_slot (hc : ValidCurrent s.kernel.currentActiveProcess) (hne : dispatched s ≠ p) :
    (schedulerTick s).kernel.processTable p = (beforeScan s).processTable p := by
  unfold dispatched at hne
  rcases tick_cases hc with ⟨n, -, -, -, -, ht⟩ | ⟨-, ht⟩
  · rw [ht] at hne ⊢
    exact Function.update_of_ne (Ne.symm hne) _ _
  · rw [ht]

/-- A tick that dispatches a slot loads the registers saved there. -/
theorem dispatched_slot (hc : ValidCurrent s.kernel.currentActiveProcess) (hp : 0 ≤ p)
    (hd : dispatched s = p) :
    (schedulerTick s).hw.cpu = ((beforeScan s).processTable p).context ∧
      ((schedulerTick s).kernel.processTable p).pid = ((beforeScan s).processTable p).pid := by
  unfold dispatched at hd
  rcases tick_cases hc with ⟨n, -, -, -, -, ht⟩ | ⟨-, ht⟩
  · rw [ht] at hd ⊢
    change n = p at hd
    subst hd
    exact ⟨rfl, by simp [Kernel.modifyProcess]⟩
  · rw [ht] at hd
    change (-1 : Int) = p at hd
    omega

/-- The slot it dispatches was ready and is marked as executing. -/
theorem tick_dispatched (hc : ValidCurrent s.kernel.currentActiveProcess) (hp : 0 ≤ p)
    (hd : dispatched s = p) : ((schedulerTick s).kernel.processTable p).state = .executing ∧
      ((beforeScan s).processTable p).state = .ready := by
  unfold dispatched at hd
  rcases tick_cases hc with ⟨n, -, -, hready, -, ht⟩ | ⟨-, ht⟩
  · rw [ht] at hd ⊢
    change n = p at hd
    subst hd
    exact ⟨by simp [Kernel.modifyProcess], hready⟩
  · rw [ht] at hd
    change (-1 : Int) = p at hd
    omega

theorem tick_parked (hc : ValidCurrent s.kernel.currentActiveProcess)
    (h : Parked s.kernel p pid cpu) (hne : dispatched s ≠ p) :
    Parked (schedulerTick s).kernel p pid cpu := by
  have hb := before_scan_parked h
  have hslot := passed_slot hc hne
  refine ⟨h.slot, Ne.symm hne, ?_, ?_, ?_⟩
  · rw [hslot]
    exact hb.live
  · rw [hslot]
    exact hb.same
  · rw [hslot]
    exact hb.context

/-- Whatever the running process does in its step, it does not reach another slot. -/
theorem worked_parked {r : Bool × System} (hw : Worked s r) (h : Parked s.kernel p pid cpu) :
    Parked r.2.kernel p pid cpu := by
  obtain ⟨current, slots⟩ := worked_slots hw
  exact h.of_same_slot current (slots p (Ne.symm h.waiting))

/-- A creation takes a finished slot, so never that of a parked process. -/
theorem created_parked {host : Host} {u : Unspecified} {progName : List Char}
    {r : OsStatus × System} (hc : Created host u progName s r) (h : Parked s.kernel p pid cpu) :
    Parked r.2.kernel p pid cpu := by
  obtain ⟨current, slots⟩ := created_slots hc
  exact h.of_same_slot current (slots p h.live)

/-- A parked process stays parked through every event that does not dispatch it. -/
theorem next_parked {e : Event} (hc : ValidCurrent s.kernel.currentActiveProcess)
    (h : Parked s.kernel p pid cpu) (hr : e ≠ .restart)
    (hd : ∀ t, tickAt s e = some t → dispatched t ≠ p) : Parked (next s e).kernel p pid cpu := by
  cases e with
  | create host u progName => exact created_parked (create_process_created host u progName s) h
  | worker u =>
    cases htick : tickAt s (.worker u) with
    | some t =>
      rw [next_of_tick htick]
      have worked := tick_worked htick
      have ht : ValidCurrent t.kernel.currentActiveProcess := (worked_slots worked).1.symm ▸ hc
      exact tick_parked ht (worked_parked worked h) (hd t htick)
    | none =>
      have worked := worker_step_worked u s
      rw [next_without_tick htick] at worked
      exact worked_parked worked h
  | monitor active => exact h
  | restart => exact absurd rfl hr

/-- The event behind a tick of a run. -/
theorem tick_in_event {es : List Event} {i : Nat} (h : tickIn s es i = some t) :
    ∃ e, es[i]? = some e ∧ tickAt (Trace.stateAt next s es i) e = some t := by
  simpa [tickIn, Option.bind_eq_some_iff] using h

theorem state_at_scheduled (s : System) (es : List Event) (i : Nat) :
    Scheduled (Trace.stateAt next (initOS s) es i).kernel := run_scheduled s (es.take i)

/-- From the tick that switches a process out to the one that dispatches it again its registers
lie untouched in its slot, whatever the other processes do. -/
theorem context_switch_integrity (s : System) {es : List Event} (hr : ∀ e ∈ es, e ≠ .restart)
    {i j : Nat} {p : Int} {t t' : System} (hp : 0 ≤ p ∧ p < 20)
    (hout : tickIn (initOS s) es i = some t) (hcur : t.kernel.currentActiveProcess = p)
    (hleft : dispatched t ≠ p)
    (hstate : ((schedulerTick t).kernel.processTable p).state = .ready ∨
      ((schedulerTick t).kernel.processTable p).state = .blocked ∨
      ((schedulerTick t).kernel.processTable p).state = .blockedIo)
    (hij : i < j) (hin : tickIn (initOS s) es j = some t') (hdisp : dispatched t' = p)
    (hbetween : ∀ k r, i < k → k < j → tickIn (initOS s) es k = some r → dispatched r ≠ p) :
    (schedulerTick t').hw.cpu = t.hw.cpu ∧
      ((schedulerTick t').kernel.processTable p).pid = (t.kernel.processTable p).pid := by
  obtain ⟨e, he, htick⟩ := tick_in_event hout
  obtain ⟨e', he', htick'⟩ := tick_in_event hin
  have at_tick := worked_at_tick (state_at_scheduled s es i) (tick_worked htick)
  have worked' := tick_worked htick'
  have at_tick' := worked_at_tick (state_at_scheduled s es j) worked'
  -- right after the first tick the process is parked
  have parked : Parked (Trace.stateAt next (initOS s) es (i + 1)).kernel p
      (t.kernel.processTable p).pid t.hw.cpu := by
    have hslot := passed_slot at_tick.1.current hleft
    obtain ⟨hcontext, hpid⟩ := outgoing_saved hp hcur
    rw [Trace.stateAt_succ he, next_of_tick htick]
    refine ⟨hp, Ne.symm hleft, ?_, ?_, ?_⟩
    · rcases hstate with h | h | h <;> rw [h] <;> decide
    · rw [hslot, hpid]
    · rw [hslot, hcontext]
  -- and so it is when the second begins
  have waits : Parked (Trace.stateAt next (initOS s) es j).kernel p
      (t.kernel.processTable p).pid t.hw.cpu := by
    have hlen : j < es.length := (List.getElem?_eq_some_iff.mp he').1
    refine Trace.stateAt_window (fun s : System => Parked s.kernel p
      (t.kernel.processTable p).pid t.hw.cpu) (by omega : i + 1 ≤ j) (by omega) parked ?_
    intro k d hik hkj hd hk
    refine next_parked (state_at_scheduled s es k).current hk (hr d (List.mem_of_getElem? hd)) ?_
    intro r hrt
    exact hbetween k r (by omega) hkj (by simp [tickIn, hd, hrt])
  have back := before_scan_parked (worked_parked worked' waits)
  obtain ⟨hcpu, hpid⟩ := dispatched_slot at_tick'.1.current hp.1 hdisp
  exact ⟨hcpu.trans back.context, hpid.trans back.same⟩

theorem context_switch_integrity_readers :
    ∃ t t', tickIn (boot zeroKeys) (readers 5) 4 = some t ∧
      tickIn (boot zeroKeys) (readers 5) 6 = some t' ∧ (schedulerTick t').hw.cpu = t.hw.cpu := by
  have hr : ∀ e ∈ readers 5, e ≠ .restart := by
    intro e he
    simp only [readers, session, List.mem_cons, List.mem_replicate] at he
    rcases he with rfl | rfl | ⟨-, rfl⟩ <;> exact Event.noConfusion
  have out : (tickIn (boot zeroKeys) (readers 5) 4).map (fun t =>
      (t.kernel.currentActiveProcess, dispatched t,
        ((schedulerTick t).kernel.processTable 0).state)) = some (0, 1, .ready) := by
    decide +kernel
  have back : (tickIn (boot zeroKeys) (readers 5) 6).map dispatched = some 0 := by
    decide +kernel
  obtain ⟨t, ht, heq⟩ := Option.map_eq_some_iff.mp out
  obtain ⟨t', ht', hdisp⟩ := Option.map_eq_some_iff.mp back
  obtain ⟨hcur, heq⟩ := Prod.mk.inj heq
  obtain ⟨hleft, hstate⟩ := Prod.mk.inj heq
  refine ⟨t, t', ht, ht', (context_switch_integrity (powerOn zeroKeys) hr (by decide) ht hcur
    (by omega) (Or.inl hstate) (by decide) ht' hdisp ?_).1⟩
  intro k r hk hk' hrk
  obtain rfl : k = 5 := by omega
  have none : (tickIn (boot zeroKeys) (readers 5) 5).isNone := by decide +kernel
  change tickIn (boot zeroKeys) (readers 5) 5 = some r at hrk
  rw [hrk] at none
  cases none

end Lucario.Proofs
