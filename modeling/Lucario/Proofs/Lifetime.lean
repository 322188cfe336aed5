import Lucario.Proofs.ContextSwitch
import Lucario.Proofs.Ownership
import Lucario.Proofs.ProcessorStep

namespace Lucario.Proofs

/-- The register file of the process in slot `p`: the processor's while it runs, else the one
saved in its slot. -/
def registers (s : System) (p : Int) : Cpu :=
  if s.kernel.currentActiveProcess = p then s.hw.cpu else (s.kernel.processTable p).context

variable {s : System} {p : Int}

theorem registers_current (h : s.kernel.currentActiveProcess = p) : registers s p = s.hw.cpu :=
  if_pos h

theorem registers_waiting (h : s.kernel.currentActiveProcess ≠ p) :
    registers s p = (s.kernel.processTable p).context := if_neg h

/-- The part of a tick before the scan collects every register file in the table. -/
theorem before_scan_registers (hp : 0 ≤ p ∧ p < 20) :
    ((beforeScan s).processTable p).context = registers s p := by
  obtain ⟨-, hcontext, -⟩ := stirred_kept s (s.kernel.processTable p)
  rw [before_scan_at s hp.1 hp.2]
  by_cases hcur : s.kernel.currentActiveProcess = p
  · rw [if_pos hcur.symm, registers_current hcur]
    rfl
  · rw [if_neg (Ne.symm hcur), registers_waiting hcur, hcontext]

/-- A tick moves register files about and changes none. -/
theorem tick_registers (hc : ValidCurrent s.kernel.currentActiveProcess) (hp : 0 ≤ p ∧ p < 20) :
    registers (schedulerTick s) p = registers s p := by
  have collected := before_scan_registers (s := s) hp
  by_cases hd : dispatched s = p
  · rw [registers_current hd, ← collected]
    exact (dispatched_slot hc hp.1 hd).1
  · rw [registers_waiting hd, passed_slot hc hd, collected]

/-- Which slots are finished is no business of a tick. -/
theorem tick_live (hc : ValidCurrent s.kernel.currentActiveProcess) (i : Int) :
    Live (schedulerTick s).kernel i ↔ Live s.kernel i := (tick_owners hc).live i

/-- An iteration of the worker does not reach the registers of a waiting process. -/
theorem worker_registers_waiting (u : Unspecified)
    (hc : ValidCurrent s.kernel.currentActiveProcess) (hp : 0 ≤ p ∧ p < 20)
    (hcur : s.kernel.currentActiveProcess ≠ p) :
    registers (next s (.worker u)) p = registers s p := by
  obtain ⟨current, slots⟩ := worked_slots (worker_step_worked u s)
  have worked : registers (workerStep u s).2 p = registers s p := by
    rw [registers_waiting hcur, registers_waiting (current ▸ hcur), slots p hcur]
  rw [next, workerIteration]
  generalize workerStep u s = r at current worked
  obtain ⟨ticks, t⟩ := r
  cases ticks with
  | true =>
    have ht : ValidCurrent t.kernel.currentActiveProcess := current ▸ hc
    exact (tick_registers ht hp).trans worked
  | false => exact worked

/-- An iteration that does not end the running process gives it the registers of its processor
step. -/
theorem worker_registers_running (u : Unspecified) (hp : 0 ≤ p ∧ p < 20)
    (hcur : s.kernel.currentActiveProcess = p) (hlive : Live (next s (.worker u)).kernel p) :
    (cpuStep u s).1 = true ∧ registers (next s (.worker u)) p = (cpuStep u s).2.hw.cpu := by
  have hidle : s.kernel.currentActiveProcess ≠ -1 := by omega
  obtain ⟨current, -⟩ := worked_slots (worker_step_worked u s)
  rw [next, workerIteration] at hlive ⊢
  rw [workerStep, if_pos hidle] at current hlive ⊢
  generalize cpuStep u s = r at current hlive ⊢
  obtain ⟨status, t⟩ := r
  have valid : ∀ k : System, k.kernel.currentActiveProcess = s.kernel.currentActiveProcess →
      ValidCurrent k.kernel.currentActiveProcess := fun k hk => Or.inr (by omega)
  cases status with
  | false =>
    dsimp only at current hlive
    have hdead := ((tick_live (valid _ current) p).mp hlive).2.2
    refine absurd ?_ hdead
    have ht : (releaseMemory t).kernel.currentActiveProcess = p := current.trans hcur
    simp [markFinished, System.setState, System.modifyProcess, Kernel.modifyProcess, ht]
  | true =>
    refine ⟨rfl, ?_⟩
    dsimp only at current hlive ⊢
    split_ifs at current hlive ⊢
    · exact (tick_registers (valid _ current) hp).trans (registers_current (current.trans hcur))
    · exact registers_current (current.trans hcur)

/-- Every event but a worker's iteration leaves the registers of a live process alone. -/
theorem other_registers {e : Event} (hlive : Live (next s e).kernel p)
    (hold : Live s.kernel p) (he : ∀ u, e ≠ .worker u) : registers (next s e) p = registers s p := by
  cases e with
  | create host u progName =>
    have slots := (created_slots (create_process_created host u progName s)).2
    obtain ⟨hcur, hcpu, -⟩ := created_running host u progName s
    rw [next, registers, registers, hcur, hcpu, slots p hold.2.2]
  | worker u => exact absurd rfl (he u)
  | monitor active => rfl
  | restart =>
    obtain ⟨hl, hu, hfin⟩ := hlive
    refine absurd ?_ hfin
    simp [next, handleRestartCommand, initOS, forEachProcess, hl, hu]

/-- A creation that makes a slot live leaves there the context it built. -/
theorem created_registers (hs : Scheduled s.kernel) {host : Host} {u : Unspecified}
    {progName : List Char} (hfree : ¬ Live s.kernel p)
    (hlive : Live (next s (.create host u progName)).kernel p) :
    ∃ entry start, 0 ≤ start ∧ 1 ≤ calculateRequiredBlocks entry.wordCount ∧
      start + calculateRequiredBlocks entry.wordCount ≤ 20 ∧
      (next s (.create host u progName)).kernel.processTable p =
        createdPcb s.kernel entry start ∧
      registers (next s (.create host u progName)) p = initialContext entry
        (getBaseRegister start) (calculateRequiredBlocks entry.wordCount) := by
  have created := create_process_created host u progName s
  have hne : s.kernel.currentActiveProcess ≠ p := by
    rintro rfl
    refine hfree ⟨hlive.1, hlive.2.1, ?_⟩
    rw [hs.running hlive.1]
    decide
  rw [next] at hlive ⊢
  generalize createProcess host u progName s = r at created hlive
  cases created with
  | full => exact absurd hlive hfree
  | refused => exact absurd hlive hfree
  | made i entry start hi hslot hload hentry hstart hcount hend hblocks =>
    have hip : p = i := by
      by_contra hpi
      refine hfree ⟨hlive.1, hlive.2.1, ?_⟩
      simpa only [Function.update_of_ne hpi] using hlive.2.2
    subst hip
    refine ⟨entry, start, hstart, hcount, hend, Function.update_self _ _ _, ?_⟩
    refine (registers_waiting ?_).trans ?_
    · exact hne
    · simp only [Function.update_self]
      rfl

/-- The process that event `j` created in slot `p` is alive up to index `i`. -/
structure Lifetime (s : System) (es : List Event) (j : Nat) (p : Int) (i : Nat) : Prop where
  created : ∃ host u progName, es[j]? = some (.create host u progName)
  free : ¬ Live (Trace.stateAt next s es j).kernel p
  after : j < i
  live : ∀ k, j < k → k ≤ i → Live (Trace.stateAt next s es k).kernel p

variable {es : List Event} {i j : Nat}

/-- What is to be checked of a given run in whose slot `p` nothing lives before event `j`. -/
theorem Lifetime.of_live (created : ∃ host u progName, es[j]? = some (.create host u progName))
    (hji : j < i) (live : ∀ k < i + 1, j < k ↔ Live (Trace.stateAt next s es k).kernel p) :
    Lifetime s es j p i where
  created := created
  free hlive := Nat.lt_irrefl j ((live j (by omega)).mpr hlive)
  after := hji
  live k hk hki := (live k (by omega)).mp hk

theorem Lifetime.slot (h : Lifetime s es j p i) : 0 ≤ p ∧ p < 20 :=
  ⟨(h.live i h.after le_rfl).1, (h.live i h.after le_rfl).2.1⟩

/-- The context the process was created with. -/
theorem Lifetime.born (h : Lifetime (initOS s) es j p i) :
    ∃ entry start, 0 ≤ start ∧ 1 ≤ calculateRequiredBlocks entry.wordCount ∧
      start + calculateRequiredBlocks entry.wordCount ≤ 20 ∧
      (Trace.stateAt next (initOS s) es (j + 1)).kernel.processTable p =
        createdPcb (Trace.stateAt next (initOS s) es j).kernel entry start ∧
      registers (Trace.stateAt next (initOS s) es (j + 1)) p = initialContext entry
        (getBaseRegister start) (calculateRequiredBlocks entry.wordCount) := by
  obtain ⟨host, u, progName, he⟩ := h.created
  have hlive := h.live (j + 1) (by omega) h.after
  rw [Trace.stateAt_succ he] at hlive ⊢
  exact created_registers (state_at_scheduled s es j) h.free hlive

/-- What the registers of a process satisfy from its creation on, as long as each of its own
processor steps keeps it: no other process and no event gets at them. -/
theorem Lifetime.keeps (Inv : Cpu → Prop) (h : Lifetime (initOS s) es j p i)
    (hi : i ≤ es.length)
    (hborn : Inv (registers (Trace.stateAt next (initOS s) es (j + 1)) p))
    (hstep : ∀ k u, j < k → k < i → es[k]? = some (.worker u) →
      (Trace.stateAt next (initOS s) es k).kernel.currentActiveProcess = p →
      Inv (Trace.stateAt next (initOS s) es k).hw.cpu →
      (cpuStep u (Trace.stateAt next (initOS s) es k)).1 = true →
      Inv (cpuStep u (Trace.stateAt next (initOS s) es k)).2.hw.cpu) :
    Inv (registers (Trace.stateAt next (initOS s) es i) p) := by
  refine Trace.stateAt_window (fun s : System => Inv (registers s p)) (i := j + 1) h.after hi
    hborn ?_
  intro k e hjk hki he hk
  have hold := h.live k (by omega) (by omega)
  have hnew := h.live (k + 1) (by omega) (by omega)
  rw [Trace.stateAt_succ he] at hnew
  cases e with
  | worker u =>
    by_cases hcur : (Trace.stateAt next (initOS s) es k).kernel.currentActiveProcess = p
    · obtain ⟨hstatus, hregs⟩ := worker_registers_running u h.slot hcur hnew
      rw [hregs]
      rw [registers_current hcur] at hk
      exact hstep k u (by omega) hki he hcur hk hstatus
    · rw [worker_registers_waiting u (state_at_scheduled s es k).current h.slot hcur]
      exact hk
  | create host u progName =>
    rw [other_registers hnew hold (fun _ => Event.noConfusion)]
    exact hk
  | monitor active =>
    rw [other_registers hnew hold (fun _ => Event.noConfusion)]
    exact hk
  | restart =>
    rw [other_registers hnew hold (fun _ => Event.noConfusion)]
    exact hk

end Lucario.Proofs
