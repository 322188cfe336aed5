import Lucario.Proofs.PendingFaults
import Lucario.Proofs.ProcessorStep
import Lucario.Proofs.Sessions

namespace Lucario.Proofs

theorem count_cycle_bitmap {c : InterruptCode} (hc : c ≠ .timer) (m : Machine) :
    c ∈ (countCycle m).interruptBitmap ↔ c ∈ m.interruptBitmap := by
  unfold countCycle
  dsimp only
  split_ifs
  · simp [raiseInterrupt, hc]
  · exact Iff.rfl

/-- What is fatal and pending after an instruction was so before or is raised by it. -/
theorem after_instruction_fatal {c : InterruptCode} (hc : Fatal c) (u : Unspecified)
    (inst : Instruction) (m : Machine) :
    c ∈ (afterInstruction u inst m).interruptBitmap ↔
      c ∈ raised u inst m ∨ c ∈ m.interruptBitmap := by
  have ht : c ≠ .timer := by
    rcases hc with rfl | rfl <;> decide
  rw [afterInstruction, count_cycle_bitmap ht, handler_bitmap, Finset.mem_union]

theorem after_instruction_enable (u : Unspecified) (inst : Instruction) (m : Machine) :
    (afterInstruction u inst m).cpu.psw.interruptEnable =
      (handler u inst m).2.cpu.psw.interruptEnable := by
  obtain ⟨y, h⟩ := count_cycle_cpu (handler u inst m).2
  rw [afterInstruction, h]

theorem hab_handler {u : Unspecified} {inst : Instruction} (h : inst.opCode = .hab) (m : Machine) :
    handler u inst m = (.success, { m with cpu.psw.interruptEnable := .enabled }) := by
  unfold handler executeInterruptsChange
  rw [h]

theorem dhab_handler {u : Unspecified} {inst : Instruction} (h : inst.opCode = .dhab)
    (m : Machine) :
    handler u inst m = (.success, { m with cpu.psw.interruptEnable := .disabled }) := by
  unfold handler executeInterruptsChange
  rw [h]

/-- A fatal interrupt is handled before any other. -/
theorem code_to_handle_fatal {pending : Finset InterruptCode} {c : InterruptCode} (hc : Fatal c)
    (hp : c ∈ pending) : Fatal (codeToHandle pending) ∧ codeToHandle pending ∈ pending := by
  unfold codeToHandle
  by_cases hi : InterruptCode.invalidInstr ∈ pending
  · rw [if_pos hi]
    exact ⟨Or.inl rfl, hi⟩
  · rw [if_neg hi]
    rcases hc with rfl | rfl
    · exact absurd hp hi
    · rw [if_pos hp]
      exact ⟨Or.inr rfl, hp⟩

def Raises (s : System) (e : Event) (c : InterruptCode) : Prop :=
  ∃ u inst m, executed s e = some (u, inst, m) ∧ c ∈ raised u inst m

def Ends (s : System) (e : Event) : Prop :=
  ∃ u, e = .worker u ∧ s.kernel.currentActiveProcess ≠ -1 ∧ (cpuStep u s).1 = false

def KilledBy (s : System) (e : Event) (c : InterruptCode) : Prop :=
  ∃ u inst m, executed s e = some (u, inst, m) ∧ Fatal c ∧
    (afterInstruction u inst m).cpu.psw.interruptEnable = .enabled ∧
    codeToHandle (afterInstruction u inst m).interruptBitmap = c

instance (s : System) (e : Event) (c : InterruptCode) : Decidable (Raises s e c) :=
  decidable_of_iff ((executed s e).any (fun x => decide (c ∈ raised x.1 x.2.1 x.2.2)))
    (by simp [Raises, Option.any_eq_true])

instance (c : InterruptCode) : Decidable (Fatal c) := inferInstanceAs (Decidable (_ ∨ _))

instance (s : System) (e : Event) (c : InterruptCode) : Decidable (KilledBy s e c) :=
  decidable_of_iff ((executed s e).any (fun x => decide (Fatal c ∧
      (afterInstruction x.1 x.2.1 x.2.2).cpu.psw.interruptEnable = .enabled ∧
      codeToHandle (afterInstruction x.1 x.2.1 x.2.2).interruptBitmap = c)))
    (by simp [KilledBy, Option.any_eq_true])

/-- `c` was raised by an instruction of the process that runs at index `i`, and has been pending
ever since. -/
def Blamed (s : System) (es : List Event) (i : Nat) (c : InterruptCode) : Prop :=
  ∃ k d, k ≤ i ∧ es[k]? = some d ∧ Raises (Trace.stateAt next s es k) d c ∧
    runningPid (Trace.stateAt next s es k) = runningPid (Trace.stateAt next s es i) ∧
    ∀ j, k < j → j ≤ i → c ∈ (Trace.stateAt next s es j).hw.interruptBitmap

structure FaultsAttributed (s : System) (es : List Event) : Prop where
  blame : ∀ i e c, es[i]? = some e → KilledBy (Trace.stateAt next s es i) e c → Blamed s es i c
  clean : ∀ i k e d c, es[i]? = some e → Ends (Trace.stateAt next s es i) e → Fatal c →
    k ≤ i → es[k]? = some d → Raises (Trace.stateAt next s es k) d c →
    runningPid (Trace.stateAt next s es k) = runningPid (Trace.stateAt next s es i) →
    0 ≤ (Trace.stateAt next s es (i + 1)).kernel.currentActiveProcess →
    c ∉ (Trace.stateAt next s es (i + 1)).hw.interruptBitmap

/-- The step does not leave a fatal interrupt behind for another process: a failing fetch finds
none pending, an instruction under enabled interrupts raises at most one, and interrupts are not
enabled again over both. -/
def AttributableStep (s : System) : Event → Prop
  | .worker u => s.kernel.currentActiveProcess ≠ -1 →
    (fetched s.hw = none → ∀ c, Fatal c → c ∉ s.hw.interruptBitmap) ∧
    ∀ inst m, fetched s.hw = some (inst, m) →
      (s.hw.cpu.psw.interruptEnable = .enabled → ¬ FaultsTwice u inst m.cpu) ∧
      (s.hw.cpu.psw.interruptEnable = .disabled → inst.opCode = .hab →
        AtMostOne s.hw.interruptBitmap)
  | _ => True

/-- Interrupts are enabled over at most one pending fatal interrupt. -/
theorem enabled_at_most_one {s : System} {u : Unspecified} {inst : Instruction} {m : Machine}
    (hf : fetched s.hw = some (inst, m))
    (hq : ∀ c, Fatal c → c ∈ s.hw.interruptBitmap → s.hw.cpu.psw.interruptEnable = .disabled)
    (htwice : s.hw.cpu.psw.interruptEnable = .enabled → ¬ FaultsTwice u inst m.cpu)
    (hhab : s.hw.cpu.psw.interruptEnable = .disabled → inst.opCode = .hab →
      AtMostOne s.hw.interruptBitmap)
    (he : (afterInstruction u inst m).cpu.psw.interruptEnable = .enabled) :
    AtMostOne (afterInstruction u inst m).interruptBitmap := by
  obtain ⟨w, -, -, hm, -⟩ := fetched_machine hf
  have henable : m.cpu.psw.interruptEnable = s.hw.cpu.psw.interruptEnable := by rw [hm]
  have hbitmap : m.interruptBitmap = s.hw.interruptBitmap := by rw [hm]
  rw [after_instruction_enable] at he
  rintro ⟨hi, ha⟩
  rw [after_instruction_fatal (Or.inl rfl), hbitmap] at hi
  rw [after_instruction_fatal (Or.inr rfl), hbitmap] at ha
  cases hcase : s.hw.cpu.psw.interruptEnable with
  | enabled =>
    have none : ∀ c, Fatal c → c ∉ s.hw.interruptBitmap := by
      intro c hc hp
      rw [hq c hc hp] at hcase
      cases hcase
    have hi := hi.resolve_right (none _ (Or.inl rfl))
    have ha := ha.resolve_right (none _ (Or.inr rfl))
    exact htwice hcase ((raised_faults u inst m).mp (not_not.mpr ⟨hi, ha⟩))
  | disabled =>
    by_cases hop : inst.opCode = .hab
    · have none : raised u inst m = ∅ := by
        rw [raised, hab_handler hop]
      rw [none] at hi ha
      simp only [Finset.notMem_empty, false_or] at hi ha
      exact hhab hcase hop ⟨hi, ha⟩
    · by_cases hop' : inst.opCode = .dhab
      · rw [dhab_handler hop'] at he
        cases he
      · rw [handler_enable u inst m hop hop', henable, hcase] at he
        cases he

/-- A creation does not renumber the process that is running. -/
theorem created_pid {s : System} (hs : Scheduled s.kernel) (host : Host) (u : Unspecified)
    (progName : List Char) : runningPid (createProcess host u progName s).2 = runningPid s := by
  have created := create_process_created host u progName s
  generalize createProcess host u progName s = r at created
  cases created with
  | full => rfl
  | refused => rfl
  | made i entry start hi hslot =>
    have hne : s.kernel.currentActiveProcess ≠ i := by
      rintro rfl
      rw [hs.running hi.1] at hslot
      cases hslot
    simp only [runningPid, Function.update_of_ne hne]

theorem Blamed.extend {s : System} {es : List Event} {i : Nat} {c : InterruptCode}
    (h : Blamed s es i c)
    (hpid : runningPid (Trace.stateAt next s es (i + 1)) = runningPid (Trace.stateAt next s es i))
    (hp : c ∈ (Trace.stateAt next s es (i + 1)).hw.interruptBitmap) : Blamed s es (i + 1) c := by
  obtain ⟨k, d, hk, hd, hr, hk', hsince⟩ := h
  refine ⟨k, d, by omega, hd, hr, hk'.trans hpid.symm, ?_⟩
  intro j hkj hj
  rcases Nat.lt_or_eq_of_le hj with hlt | rfl
  · exact hsince j hkj (by omega)
  · exact hp

/-- What is known of a run at index `i`: a fatal interrupt can be pending only while the process
that raised it runs with interrupts disabled. -/
structure Watched (s : System) (es : List Event) (i : Nat) : Prop where
  scheduled : Scheduled (Trace.stateAt next s es i).kernel
  yield : (Trace.stateAt next s es i).kernel.osYield = false
  idle : (Trace.stateAt next s es i).kernel.currentActiveProcess = -1 →
    ∀ c, Fatal c → c ∉ (Trace.stateAt next s es i).hw.interruptBitmap
  pending : ∀ c, Fatal c → c ∈ (Trace.stateAt next s es i).hw.interruptBitmap →
    (Trace.stateAt next s es i).hw.cpu.psw.interruptEnable = .disabled ∧ Blamed s es i c

/-- After a handled interrupt no fatal one is left. -/
theorem Watched.taken {s : System} {es : List Event} {i : Nat} (h : Watched s es i)
    {u : Unspecified} {inst : Instruction} {m : Machine}
    (hf : fetched (Trace.stateAt next s es i).hw = some (inst, m))
    (hc : (Trace.stateAt next s es i).kernel.currentActiveProcess ≠ -1)
    (hstep : AttributableStep (Trace.stateAt next s es i) (.worker u))
    (he : (afterInstruction u inst m).cpu.psw.interruptEnable = .enabled)
    (hp : (afterInstruction u inst m).interruptBitmap ≠ ∅) :
    ∀ c, Fatal c →
      c ∉ (next (Trace.stateAt next s es i) (.worker u)).hw.interruptBitmap := by
  obtain ⟨htwice, hhab⟩ := (hstep hc).2 inst m hf
  have single := enabled_at_most_one hf (fun c hc hp => (h.pending c hc hp).1) htwice hhab he
  intro c hcf hmem
  rw [worker_bitmap u hc, cpu_step_fetched u hf, check_interrupts_bitmap u hp he] at hmem
  obtain ⟨hne, hmem⟩ := Finset.mem_erase.mp hmem
  obtain ⟨hcode, hcodemem⟩ := code_to_handle_fatal hcf hmem
  apply single
  dsimp only at hne hmem hcode hcodemem
  generalize codeToHandle (afterInstruction u inst m).interruptBitmap = code at hne hcode hcodemem
  rcases hcf with rfl | rfl <;> rcases hcode with rfl | rfl
  · exact absurd rfl hne
  · exact ⟨hmem, hcodemem⟩
  · exact ⟨hcodemem, hmem⟩
  · exact absurd rfl hne

/-- What a worker iteration leaves pending belongs to the process that goes on running. -/
theorem Watched.worker {s : System} {es : List Event} {i : Nat} (h : Watched s es i)
    {u : Unspecified} (he : es[i]? = some (.worker u))
    (hstep : AttributableStep (Trace.stateAt next s es i) (.worker u)) :
    ∀ c, Fatal c → c ∈ (Trace.stateAt next s es (i + 1)).hw.interruptBitmap →
      (Trace.stateAt next s es (i + 1)).kernel.currentActiveProcess ≠ -1 ∧
      (Trace.stateAt next s es (i + 1)).hw.cpu.psw.interruptEnable = .disabled ∧
      Blamed s es (i + 1) c := by
  have hnext : Trace.stateAt next s es (i + 1) =
      next (Trace.stateAt next s es i) (.worker u) := Trace.stateAt_succ he
  intro c hcf hmem
  have hmem' := hmem
  rw [hnext] at hmem'
  by_cases hc : (Trace.stateAt next s es i).kernel.currentActiveProcess = -1
  · obtain ⟨cpu, k, htick⟩ := tick_kept (Trace.stateAt next s es i)
    rw [next_idle u hc, htick] at hmem'
    exact absurd hmem' (h.idle hc c hcf)
  cases hf : fetched (Trace.stateAt next s es i).hw with
  | none =>
    rw [worker_bitmap u hc, cpu_step_unfetched u hf] at hmem'
    exact absurd hmem' ((hstep hc).1 hf c hcf)
  | some x =>
    obtain ⟨inst, m⟩ := x
    rcases interrupts_idle_or_taken (afterInstruction u inst m) with hidle | ⟨hp, henabled⟩
    swap
    · exact absurd hmem' (h.taken hf hc hstep henabled hp c hcf)
    have hquiet := worker_quiet (u := u) hc h.yield
      (by rw [cpu_step_fetched u hf, check_interrupts_idle u hidle])
    rw [hquiet] at hnext hmem'
    dsimp only at hmem'
    have hdis : (afterInstruction u inst m).cpu.psw.interruptEnable = .disabled := by
      rcases hidle with hempty | hdis
      · rw [hempty] at hmem'
        cases hmem'
      · exact hdis
    refine ⟨by rw [hnext]; exact hc, by rw [hnext]; exact hdis, ?_⟩
    have hpid : runningPid (Trace.stateAt next s es (i + 1)) =
        runningPid (Trace.stateAt next s es i) := by
      rw [hnext]
      rfl
    rw [after_instruction_fatal hcf] at hmem'
    rcases hmem' with hraised | hold
    · refine ⟨i, .worker u, by omega, he, ⟨u, inst, m, executed_of_fetched hc hf, hraised⟩,
        hpid.symm, ?_⟩
      intro j hij hj
      obtain rfl : j = i + 1 := by omega
      exact hmem
    · obtain ⟨w, -, -, hm, -⟩ := fetched_machine hf
      rw [hm] at hold
      exact (h.pending c hcf hold).2.extend hpid hmem

/-- An event that keeps the processor, the pending set and the running process keeps the watch. -/
theorem Watched.quiet {s : System} {es : List Event} {i : Nat} (h : Watched s es i)
    (hs : Scheduled (Trace.stateAt next s es (i + 1)).kernel)
    (hy : (Trace.stateAt next s es (i + 1)).kernel.osYield = false)
    (hb : (Trace.stateAt next s es (i + 1)).hw.interruptBitmap =
      (Trace.stateAt next s es i).hw.interruptBitmap)
    (hcpu : (Trace.stateAt next s es (i + 1)).hw.cpu = (Trace.stateAt next s es i).hw.cpu)
    (hcur : (Trace.stateAt next s es (i + 1)).kernel.currentActiveProcess =
      (Trace.stateAt next s es i).kernel.currentActiveProcess)
    (hpid : runningPid (Trace.stateAt next s es (i + 1)) =
      runningPid (Trace.stateAt next s es i)) : Watched s es (i + 1) := by
  refine ⟨hs, hy, ?_, ?_⟩
  · intro hidle c hc
    rw [hb]
    exact h.idle (hcur ▸ hidle) c hc
  · intro c hc hmem
    have hold := hmem
    rw [hb] at hold
    rw [hcpu]
    exact ⟨(h.pending c hc hold).1, (h.pending c hc hold).2.extend hpid hmem⟩

theorem Watched.succ {s : System} {es : List Event} {i : Nat} (h : Watched s es i) {e : Event}
    (he : es[i]? = some e) (hstep : AttributableStep (Trace.stateAt next s es i) e) :
    Watched s es (i + 1) := by
  have hnext : Trace.stateAt next s es (i + 1) = next (Trace.stateAt next s es i) e :=
    Trace.stateAt_succ he
  have scheduled : Scheduled (Trace.stateAt next s es (i + 1)).kernel := by
    rw [hnext]
    exact next_scheduled h.scheduled e
  have yield : (Trace.stateAt next s es (i + 1)).kernel.osYield = false := by
    rw [hnext]
    exact next_yield h.yield e
  cases e with
  | create host u progName =>
    obtain ⟨hcur, hcpu, hb, -⟩ := created_running host u progName (Trace.stateAt next s es i)
    refine h.quiet scheduled yield ?_ ?_ ?_ ?_ <;> rw [hnext]
    exacts [hb, hcpu, hcur, created_pid h.scheduled host u progName]
  | worker u =>
    have kept := h.worker he hstep
    refine ⟨scheduled, yield, ?_, ?_⟩
    · intro hidle c hc hmem
      exact (kept c hc hmem).1 hidle
    · intro c hc hmem
      exact (kept c hc hmem).2
  | monitor active =>
    refine h.quiet scheduled yield ?_ ?_ ?_ ?_ <;> rw [hnext]
    exacts [rfl, rfl, rfl, rfl]
  | restart =>
    refine ⟨scheduled, yield, ?_, ?_⟩ <;> rw [hnext]
    · intro _ c _ hmem
      cases hmem
    · intro c _ hmem
      cases hmem

theorem watched_boot (keyboard : Nat → Int) (es : List Event) :
    Watched (boot keyboard) es 0 := by
  refine ⟨init_scheduled _, rfl, ?_, ?_⟩
  · intro _ c _ h
    cases h
  · intro c _ h
    cases h

theorem watched_run {keyboard : Nat → Int} {es : List Event}
    (h : ∀ i e, es[i]? = some e → AttributableStep (Trace.stateAt next (boot keyboard) es i) e)
    {i : Nat} (hi : i ≤ es.length) : Watched (boot keyboard) es i := by
  induction i with
  | zero => exact watched_boot keyboard es
  | succ i ih =>
    have he : es[i]? = some es[i] := List.getElem?_eq_getElem (by omega)
    exact (ih (by omega)).succ he (h i es[i] he)

theorem code_to_handle_mem {pending : Finset InterruptCode} {c : InterruptCode} (hc : Fatal c)
    (h : codeToHandle pending = c) : c ∈ pending := by
  unfold codeToHandle at h
  rcases hc with rfl | rfl
  · by_contra hi
    rw [if_neg hi] at h
    split_ifs at h
  · by_contra ha
    rw [if_neg ha] at h
    split_ifs at h

/-- Instructions that cannot leave a fault behind. -/
theorem attributable_of_opcode {s : System} {u : Unspecified} (op : OpCode)
    (h : (fetched s.hw).map (fun x => x.1.opCode) = some op) (hload : op ≠ .load)
    (hdma : ¬ ForDma op) (hhab : op ≠ .hab) : AttributableStep s (.worker u) := by
  intro _
  refine ⟨?_, ?_⟩
  · intro hnone
    rw [hnone] at h
    cases h
  · intro inst m hf
    rw [hf] at h
    obtain rfl : inst.opCode = op := Option.some.inj h
    refine ⟨?_, fun _ hop => absurd hop hhab⟩
    rintro - (⟨hop, -⟩ | ⟨hop, -⟩)
    · exact hload hop
    · exact hdma hop

/-- In every run whose steps leave no fault behind, each process killed for a fatal interrupt
raised it itself, and none of its faults is pending when another process runs. -/
theorem faults_attributed (keyboard : Nat → Int) (es : List Event)
    (h : ∀ i e, es[i]? = some e → AttributableStep (Trace.stateAt next (boot keyboard) es i) e) :
    FaultsAttributed (boot keyboard) es := by
  have watched : ∀ {i : Nat} {e : Event}, es[i]? = some e → Watched (boot keyboard) es i :=
    fun he => watched_run h (List.getElem?_eq_some_iff.mp he).1.le
  constructor
  · intro i e c he hk
    obtain ⟨u, inst, m, hx, hc, -, hcode⟩ := hk
    have hmem := code_to_handle_mem hc hcode
    rw [after_instruction_fatal hc] at hmem
    rcases hmem with hraised | hold
    · exact ⟨i, e, le_rfl, he, ⟨u, inst, m, hx, hraised⟩, rfl, fun j hij hj => by omega⟩
    · obtain ⟨-, -, hf⟩ := executed_worker hx
      obtain ⟨w, -, -, hm, -⟩ := fetched_machine hf
      rw [hm] at hold
      exact ((watched he).pending c hc hold).2
  · intro i k e d c he hends hc _ _ _ _ _
    obtain ⟨u, rfl, hcur, hfalse⟩ := hends
    rw [Trace.stateAt_succ he]
    cases hf : fetched (Trace.stateAt next (boot keyboard) es i).hw with
    | none =>
      rw [worker_bitmap u hcur, cpu_step_unfetched u hf]
      exact (h i _ he hcur).1 hf c hc
    | some x =>
      obtain ⟨inst, m⟩ := x
      rcases interrupts_idle_or_taken (afterInstruction u inst m) with hidle | ⟨hp, henabled⟩
      -- an iteration without a handled interrupt would have succeeded
      · rw [cpu_step_fetched u hf, check_interrupts_idle u hidle] at hfalse
        cases hfalse
      · exact (watched he).taken hf hcur (h i _ he) henabled hp c hc

def soleFault : List Event :=
  session "_start 1\n.N 1\n.P A\n99000000\n" "_start 1\n.N 2\n.P B\n06000000\n06000000\n" 3

theorem faults_attributed_sole_fault : FaultsAttributed (boot zeroKeys) soleFault := by
  refine faults_attributed zeroKeys soleFault ?_
  intro i e he
  rcases i with _ | _ | _ | _ | _ | i
  case succ.succ.succ.succ.succ => cases he
  all_goals cases he
  · trivial
  · trivial
  · intro hcur
    exact absurd (by decide +kernel) hcur
  · exact attributable_of_opcode .invalid (by decide +kernel) (by decide) (by simp [ForDma])
      (by decide)
  · exact attributable_of_opcode .loadrx (by decide +kernel) (by decide) (by simp [ForDma])
      (by decide)

/-- The first program loads with an addressing mode that does not exist, the second one only
reads a register. -/
def doubleFault : List Event :=
  session "_start 1\n.N 1\n.P A\n04900000\n" "_start 1\n.N 1\n.P B\n06000000\n" 3

theorem not_faults_attributed_double_fault :
    ¬ FaultsAttributed (boot zeroKeys) doubleFault := by
  intro h
  obtain ⟨k, d, hk, hd, hraises, hpid, -⟩ :=
    h.blame 4 (.worker zeros) .invalidAddr rfl (by decide +kernel)
  rcases k with _ | _ | _ | _ | _ | k
  case succ.succ.succ.succ.succ => omega
  all_goals cases hd
  · exact absurd hraises (by decide +kernel)
  · exact absurd hraises (by decide +kernel)
  · exact absurd hraises (by decide +kernel)
  -- the instruction that raised it is another process's
  · exact absurd hpid (by decide +kernel)
  · exact absurd hraises (by decide +kernel)

end Lucario.Proofs
