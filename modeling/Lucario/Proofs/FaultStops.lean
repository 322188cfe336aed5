import Lucario.Proofs.ContextSwitch
import Lucario.Proofs.FaultAttribution
import Lucario.Proofs.Ownership

namespace Lucario.Proofs

section

variable {m : Machine}

/-- An instruction that stops the processor leaves a fatal interrupt pending and the
interrupt-enable flag as it was. -/
theorem stop_pending {u : Unspecified} {inst : Instruction}
    (h : (execute u inst m).1 = .stop) :
    (∃ c, Fatal c ∧ c ∈ (afterInstruction u inst m).interruptBitmap) ∧
      (afterInstruction u inst m).cpu.psw.interruptEnable = m.cpu.psw.interruptEnable := by
  have hfail : (handler u inst m).1 = .fail := by
    unfold execute at h
    generalize handler u inst m = r at h ⊢
    obtain ⟨status, n⟩ := r
    cases status with
    | fail => rfl
    | success => cases h
  constructor
  · obtain ⟨c, hc, hmem⟩ := (handler_performed u inst m).reported hfail
    have ht : c ≠ .timer := by
      rcases hc with rfl | rfl <;> decide
    exact ⟨c, hc, (count_cycle_bitmap ht _).mpr hmem⟩
  · rw [after_instruction_enable]
    apply handler_enable
    · intro hop
      rw [hab_handler hop] at hfail
      cases hfail
    · intro hop
      rw [dhab_handler hop] at hfail
      cases hfail

/-- A pending fatal interrupt ends the process when interrupts are enabled, and waits otherwise. -/
theorem check_interrupts_fatal (u : Unspecified) {s : System} {c : InterruptCode} (hc : Fatal c)
    (hmem : c ∈ s.hw.interruptBitmap) :
    (checkInterrupts u s).1 = false ↔ s.hw.cpu.psw.interruptEnable = .enabled := by
  have hp : s.hw.interruptBitmap ≠ ∅ := Finset.ne_empty_of_mem hmem
  cases he : s.hw.cpu.psw.interruptEnable with
  | enabled =>
    obtain ⟨hcode, -⟩ := code_to_handle_fatal hc hmem
    rw [check_interrupts_taken u hp he]
    refine iff_of_true ?_ rfl
    generalize codeToHandle s.hw.interruptBitmap = code at hcode ⊢
    rcases hcode with rfl | rfl <;> rfl
  | disabled =>
    rw [check_interrupts_idle u (Or.inr he)]
    exact iff_of_false (fun h => by cases h) (by decide)

end

section

variable {s : System} {q : Int}

def Gone (k : Kernel) (q : Int) : Prop :=
  q < k.nextPid ∧ ∀ i, Live k i → (k.processTable i).pid ≠ q

theorem SameOwners.gone {k k' : Kernel} (h : SameOwners k k') (hg : Gone k q) : Gone k' q := by
  refine ⟨h.next.symm ▸ hg.1, ?_⟩
  intro i hi
  have hk := (h.live i).mp hi
  rw [h.pid i hk]
  exact hg.2 i hk

/-- A running process is alive. -/
theorem Scheduled.live {k : Kernel} (hs : Scheduled k) (hc : k.currentActiveProcess ≠ -1) :
    Live k k.currentActiveProcess := by
  rcases hs.current with h | ⟨hl, hu⟩
  · exact absurd h hc
  · refine ⟨hl, hu, ?_⟩
    rw [hs.running hl]
    decide

/-- Ending the running process takes its pid out of use. -/
theorem terminated_gone (hs : Scheduled s.kernel) (ho : Owned s.kernel)
    (hc : s.kernel.currentActiveProcess ≠ -1) :
    Gone (markFinished (releaseMemory s)).kernel (runningPid s) := by
  have hlive := hs.live hc
  refine ⟨ho.fresh _ hlive, ?_⟩
  rintro i ⟨hl, hu, hfin⟩ hpid
  by_cases hi : i = s.kernel.currentActiveProcess
  · subst hi
    apply hfin
    simp [markFinished, releaseMemory, System.setState, System.modifyProcess,
      Kernel.modifyProcess]
  · have hslot : (markFinished (releaseMemory s)).kernel.processTable i =
        s.kernel.processTable i := Function.update_of_ne hi _ _
    rw [hslot] at hfin hpid
    exact hi (ho.pids i _ ⟨hl, hu, hfin⟩ hlive hpid)

theorem worked_gone {r : Bool × System} (hs : Scheduled s.kernel) (hw : Worked s r)
    (hg : Gone s.kernel q) : Gone r.2.kernel q := by
  obtain ⟨hfresh, hpids⟩ := hg
  cases hw with
  | idle _ => exact ⟨hfresh, hpids⟩
  | ran _ hw mon => exact ⟨hfresh, hpids⟩
  | yielded _ hw mon => exact ⟨hfresh, hpids⟩
  | blocked hc hw f hf =>
    refine ⟨hfresh, ?_⟩
    intro i hi
    obtain ⟨-, -, -, -, hpid, -⟩ :=
      blocks_kept hf (s.kernel.processTable s.kernel.currentActiveProcess)
    by_cases hic : i = s.kernel.currentActiveProcess
    · subst hic
      simpa [Kernel.modifyProcess, hpid] using hpids _ (hs.live hc)
    · have hold : Live s.kernel i := by
        simpa [Live, Kernel.modifyProcess, hic] using hi
      simpa [Kernel.modifyProcess, hic] using hpids i hold
  | terminated hc hw mon =>
    refine ⟨hfresh, ?_⟩
    intro i hi
    by_cases hic : i = s.kernel.currentActiveProcess
    · subst hic
      refine absurd ?_ hi.2.2
      simp [markFinished, releaseMemory, System.setState, System.modifyProcess,
        Kernel.modifyProcess]
    · have hold : Live s.kernel i := by
        simpa [Live, markFinished, releaseMemory, System.setState, System.modifyProcess,
          Kernel.modifyProcess, hic] using hi
      simpa [markFinished, releaseMemory, System.setState, System.modifyProcess,
        Kernel.modifyProcess, hic] using hpids i hold

/-- A pid that is out of use stays so until a restart. -/
theorem next_gone {e : Event} (hs : Scheduled s.kernel) (hg : Gone s.kernel q)
    (he : e ≠ .restart) : Gone (next s e).kernel q := by
  cases e with
  | create host u progName =>
    have created := create_process_created host u progName s
    rw [next]
    generalize createProcess host u progName s = r at created
    cases created with
    | full => exact hg
    | refused => exact hg
    | made c entry start hi hslot =>
      obtain ⟨hfresh, hpids⟩ := hg
      refine ⟨by dsimp only; omega, ?_⟩
      intro i hi'
      by_cases hic : i = c
      · subst hic
        simp only [Function.update_self, createdPcb]
        omega
      · have hold : Live s.kernel i := by simpa [Live, hic] using hi'
        simpa [hic] using hpids i hold
  | worker u =>
    have worked := worker_step_worked u s
    have gone := worked_gone hs worked hg
    have at_tick := (worked_at_tick hs worked).1
    rw [next, workerIteration]
    generalize workerStep u s = r at gone at_tick
    obtain ⟨ticks, t⟩ := r
    cases ticks with
    | true => exact (tick_owners at_tick.current).gone gone
    | false => exact gone
  | monitor active => exact hg
  | restart => exact absurd rfl he

/-- An event that ends a process leaves nobody with its pid. -/
theorem ends_gone {e : Event} (hs : Scheduled s.kernel) (ho : Owned s.kernel) (h : Ends s e) :
    Gone (next s e).kernel (runningPid s) := by
  obtain ⟨u, rfl, hc, hfalse⟩ := h
  have stepped := cpu_step_stepped u s
  have worked := worker_step_worked u s
  have at_tick := (worked_at_tick hs worked).1
  rw [next, workerIteration]
  rw [workerStep, if_pos hc] at at_tick ⊢
  generalize cpuStep u s = r at stepped hfalse at_tick ⊢
  cases stepped with
  | plain status hw mon =>
    dsimp only at hfalse
    subst hfalse
    exact (tick_owners at_tick.current).gone
      (terminated_gone (s := { s with hw := hw, monitor := mon }) hs ho hc)
  | yielded hw => cases hfalse
  | blocked hw f hf => cases hfalse

end

/-- A failing instruction makes the processor step report the end of the process exactly when
interrupts are enabled, and a process ended so executes nothing more. -/
theorem fault_stops_process :
    (∀ (u : Unspecified) (s : System) (inst : Instruction) (m : Machine),
      fetched s.hw = some (inst, m) → (execute u inst m).1 = .stop →
      ((cpuStep u s).1 = false ↔ s.hw.cpu.psw.interruptEnable = .enabled)) ∧
    ∀ (s : System) (es : List Event) (i : Nat) (e : Event) (u : Unspecified) (inst : Instruction)
      (m : Machine), es[i]? = some e →
      executed (Trace.stateAt next (initOS s) es i) e = some (u, inst, m) →
      (execute u inst m).1 = .stop →
      (Trace.stateAt next (initOS s) es i).hw.cpu.psw.interruptEnable = .enabled →
      ∀ k d, i < k → es[k]? = some d → (∀ l, i < l → l < k → es[l]? ≠ some .restart) →
        executed (Trace.stateAt next (initOS s) es k) d ≠ none →
        runningPid (Trace.stateAt next (initOS s) es k) ≠
          runningPid (Trace.stateAt next (initOS s) es i) := by
  have step : ∀ (u : Unspecified) (s : System) (inst : Instruction) (m : Machine),
      fetched s.hw = some (inst, m) → (execute u inst m).1 = .stop →
      ((cpuStep u s).1 = false ↔ s.hw.cpu.psw.interruptEnable = .enabled) := by
    intro u s inst m hf hstop
    obtain ⟨⟨c, hc, hmem⟩, henable⟩ := stop_pending hstop
    obtain ⟨w, -, -, hm, -⟩ := fetched_machine hf
    have hsame : m.cpu.psw.interruptEnable = s.hw.cpu.psw.interruptEnable := by rw [hm]
    rw [cpu_step_fetched u hf,
      check_interrupts_fatal (s := { s with hw := afterInstruction u inst m }) u hc hmem]
    rw [henable, hsame]
  refine ⟨step, ?_⟩
  intro s es i e u inst m he hx hstop henabled k d hik hd hrestart hexec
  obtain ⟨rfl, hc, hf⟩ := executed_worker hx
  have ends : Ends (Trace.stateAt next (initOS s) es i) (.worker u) :=
    ⟨u, rfl, hc, (step u _ inst m hf hstop).mpr henabled⟩
  have gone : Gone (Trace.stateAt next (initOS s) es (i + 1)).kernel
      (runningPid (Trace.stateAt next (initOS s) es i)) := by
    rw [Trace.stateAt_succ he]
    exact ends_gone (state_at_scheduled s es i) (partition_ownership s (es.take i)) ends
  have hk : k < es.length := (List.getElem?_eq_some_iff.mp hd).1
  have still := Trace.stateAt_window (fun t : System => Gone t.kernel
    (runningPid (Trace.stateAt next (initOS s) es i))) (by omega : i + 1 ≤ k) hk.le gone (by
      intro l c hil hlk hl hgone
      refine next_gone (state_at_scheduled s es l) hgone ?_
      rintro rfl
      exact hrestart l (by omega) hlk hl)
  cases hx' : executed (Trace.stateAt next (initOS s) es k) d with
  | none => exact absurd hx' hexec
  | some x =>
    obtain ⟨-, hc', -⟩ := executed_worker hx'
    exact still.2 _ ((state_at_scheduled s es k).live hc')

def atInvalid (enable : InterruptionState) : System :=
  { boot zeroKeys with hw := { (boot zeroKeys).hw with
    cpu := { Cpu.zero with rb := 300, rl := 384, sp := 84, psw.interruptEnable := enable }
    ram := fun _ => 99000000 } }

theorem fault_stops_process_invalid :
    ∃ inst m, fetched (atInvalid .enabled).hw = some (inst, m) ∧
      (execute zeros inst m).1 = .stop ∧ (cpuStep zeros (atInvalid .enabled)).1 = false := by
  refine ⟨decode (fetch (atInvalid .enabled).hw).2.cpu, (fetch (atInvalid .enabled).hw).2, rfl,
    by decide, ?_⟩
  exact (fault_stops_process.1 zeros (atInvalid .enabled) _ _ rfl (by decide)).mpr rfl

theorem not_every_fault_stops :
    ¬ ∀ (u : Unspecified) (s : System) (inst : Instruction) (m : Machine),
      fetched s.hw = some (inst, m) → (execute u inst m).1 = .stop →
      (cpuStep u s).1 = false := by
  intro h
  exact absurd (h zeros (atInvalid .disabled) (decode (fetch (atInvalid .disabled).hw).2.cpu)
    (fetch (atInvalid .disabled).hw).2 rfl (by decide)) (by decide)

end Lucario.Proofs
