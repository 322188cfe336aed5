import Lucario.Proofs.FaultAttribution
import Lucario.Proofs.Lifetime
import Lucario.Proofs.Protection

namespace Lucario.Proofs

def SameClock (c d : Cpu) : Prop :=
  c.timerLimit = d.timerLimit ∧ c.cyclesCounter = d.cyclesCounter

section

variable {m : Machine}

/-- Only TTI sets the timer. -/
theorem handler_clock (u : Unspecified) {inst : Instruction} (m : Machine)
    (hop : inst.opCode ≠ .tti) : SameClock (handler u inst m).2.cpu m.cpu := by
  have registers := (handler_performed u inst m).registers
  generalize (handler u inst m).2.cpu = c at registers ⊢
  cases registers with
  | timer h => exact absurd h hop
  | _ => exact ⟨rfl, rfl⟩

theorem restore_clock (code : InterruptCode) (m : Machine) :
    SameClock (restoreContext code m).cpu m.cpu := by
  unfold restoreContext internalPop
  dsimp only
  split_ifs <;> exact ⟨rfl, rfl⟩

/-- A handled interrupt that does not end the process gives the timer back as it was, with
interrupts enabled. -/
theorem check_interrupts_clock (u : Unspecified) {s : System}
    (hs : (checkInterrupts u s).1 = true) :
    SameClock (checkInterrupts u s).2.hw.cpu s.hw.cpu ∧
      (s.hw.cpu.psw.interruptEnable = .enabled →
        (checkInterrupts u s).2.hw.cpu.psw.interruptEnable = .enabled) := by
  rcases interrupts_idle_or_taken s.hw with hidle | ⟨hp, he⟩
  · rw [check_interrupts_idle u hidle]
    exact ⟨⟨rfl, rfl⟩, id⟩
  · obtain ⟨code, n, kept, hcpu⟩ := check_interrupts_registers u hs hp he
    obtain ⟨hlimit, hcycles⟩ := restore_clock code n
    obtain ⟨ac, cc, hn⟩ := kept.cpu
    rw [hn, save_machine] at hlimit hcycles
    rw [hcpu]
    exact ⟨⟨hlimit, hcycles⟩, fun _ => rfl⟩

structure Clocked (c : Cpu) : Prop where
  limit : c.timerLimit = 2
  cycles : c.cyclesCounter < 2
  enabled : c.psw.interruptEnable = .enabled

/-- Counting a cycle either leaves the timer short of its limit or raises its interrupt. -/
theorem count_cycle_quantum (hlimit : m.cpu.timerLimit = 2) (hcycles : m.cpu.cyclesCounter < 2) :
    (m.cpu.cyclesCounter = 0 ∧ countCycle m = { m with cpu.cyclesCounter := 1 }) ∨
    countCycle m = raiseInterrupt .timer { m with cpu.cyclesCounter := 0 } := by
  have hmod : (m.cpu.cyclesCounter + 1) % 18446744073709551616 = m.cpu.cyclesCounter + 1 :=
    Nat.mod_eq_of_lt (by omega)
  unfold countCycle
  dsimp only
  rw [hmod, hlimit]
  split_ifs with h
  · exact Or.inr rfl
  · obtain h0 : m.cpu.cyclesCounter = 0 := by omega
    exact Or.inl ⟨h0, by rw [h0]⟩

theorem after_instruction_clocked (u : Unspecified) {inst : Instruction} (h : Clocked m.cpu)
    (htti : inst.opCode ≠ .tti) (hdhab : inst.opCode ≠ .dhab) :
    Clocked (afterInstruction u inst m).cpu ∧
      (.timer ∉ (afterInstruction u inst m).interruptBitmap →
        .timer ∉ m.interruptBitmap ∧
          (afterInstruction u inst m).cpu.cyclesCounter = m.cpu.cyclesCounter + 1) := by
  obtain ⟨hlimit, hcycles⟩ := handler_clock u m htti
  have henable : (handler u inst m).2.cpu.psw.interruptEnable = .enabled := by
    by_cases hhab : inst.opCode = .hab
    · rw [hab_handler hhab]
    · rw [handler_enable u inst m hhab hdhab]
      exact h.enabled
  have hpending : .timer ∉ (handler u inst m).2.interruptBitmap → .timer ∉ m.interruptBitmap := by
    rw [handler_bitmap]
    exact fun hno hmem => hno (Finset.mem_union_right _ hmem)
  rw [afterInstruction]
  rcases count_cycle_quantum (m := (handler u inst m).2) (hlimit.trans h.limit)
    (by rw [hcycles]; exact h.cycles) with ⟨h0, hcount⟩ | hcount <;> rw [hcount]
  · refine ⟨⟨hlimit.trans h.limit, one_lt_two, henable⟩, fun hno => ⟨hpending hno, ?_⟩⟩
    dsimp only
    rw [← hcycles, h0]
  · refine ⟨⟨hlimit.trans h.limit, two_pos, henable⟩, fun hno => absurd ?_ hno⟩
    simp [raiseInterrupt]

/-- A processor step that does not end the process keeps its timer going. -/
theorem cpu_step_clocked {s : System} (u : Unspecified) (h : Clocked s.hw.cpu)
    (hs : (cpuStep u s).1 = true)
    (hop : ∀ inst m, fetched s.hw = some (inst, m) → inst.opCode ≠ .tti ∧ inst.opCode ≠ .dhab) :
    Clocked (cpuStep u s).2.hw.cpu := by
  cases hf : fetched s.hw with
  | none =>
    rw [cpu_step_unfetched u hf] at hs
    cases hs
  | some x =>
    obtain ⟨inst, m⟩ := x
    obtain ⟨w, -, -, hm, -⟩ := fetched_machine hf
    have hmc : Clocked m.cpu := by
      rw [hm]
      exact ⟨h.limit, h.cycles, h.enabled⟩
    obtain ⟨htti, hdhab⟩ := hop inst m hf
    obtain ⟨clocked, -⟩ := after_instruction_clocked u hmc htti hdhab
    rw [cpu_step_fetched u hf] at hs ⊢
    obtain ⟨⟨hlimit, hcycles⟩, henable⟩ := check_interrupts_clock u hs
    exact ⟨hlimit.trans clocked.limit, hcycles.trans_lt clocked.cycles, henable clocked.enabled⟩

/-- What is handled before a pending timer interrupt. -/
theorem code_to_handle_timer {pending : Finset InterruptCode} (h : .timer ∈ pending) :
    Fatal (codeToHandle pending) ∨ codeToHandle pending = .timer ∨
      codeToHandle pending = .overflow ∨ codeToHandle pending = .underflow ∨
      codeToHandle pending = .syscall := by
  unfold codeToHandle Fatal
  split_ifs <;> simp

/-- A pending timer interrupt that neither ends in a tick nor finds the process dead was passed
over for one of higher priority, and stays pending. -/
theorem timer_passed_over (u : Unspecified) {s : System}
    (htimer : .timer ∈ s.hw.interruptBitmap) (he : s.hw.cpu.psw.interruptEnable = .enabled)
    (hs : (checkInterrupts u s).1 = true) (hy : (checkInterrupts u s).2.kernel.osYield = false) :
    (codeToHandle s.hw.interruptBitmap = .overflow ∨
      codeToHandle s.hw.interruptBitmap = .underflow ∨
      codeToHandle s.hw.interruptBitmap = .syscall) ∧
      .timer ∈ (checkInterrupts u s).2.hw.interruptBitmap := by
  have hp : s.hw.interruptBitmap ≠ ∅ := Finset.ne_empty_of_mem htimer
  have hbitmap := check_interrupts_bitmap u hp he
  rcases code_to_handle_timer htimer with hfatal | hcode | hcode
  · rw [check_interrupts_taken u hp he] at hs
    generalize codeToHandle s.hw.interruptBitmap = code at hfatal hs
    rcases hfatal with rfl | rfl <;> cases hs
  · rw [check_interrupts_taken u hp he] at hy
    dsimp only at hy
    rw [hcode] at hy
    cases hy
  · refine ⟨hcode, ?_⟩
    rw [hbitmap]
    refine Finset.mem_erase.mpr ⟨?_, htimer⟩
    rcases hcode with h | h | h <;> rw [h] <;> decide

end

def executes (p : Int) (s : System) (e : Event) : Bool :=
  s.kernel.currentActiveProcess = p && (executed s e).isSome

/-- The event executes an instruction of the process in slot `p` with the timer interrupt pending,
and an overflow, an underflow or a system call is handled first. -/
def passesTimerOver (p : Int) (s : System) (e : Event) : Bool :=
  s.kernel.currentActiveProcess = p && (executed s e).any (fun x =>
    let pending := (afterInstruction x.1 x.2.1 x.2.2).interruptBitmap
    .timer ∈ pending && (codeToHandle pending = .overflow || codeToHandle pending = .underflow ||
      codeToHandle pending = .syscall))

/-- From the tick of event `a`, which dispatches the process that event `j` created in slot `p`
with nothing pending, up to event `b` no tick is made. The process is alive all the time and
executes neither TTI nor DHAB. -/
structure Stretch (s : System) (es : List Event) (j : Nat) (p : Int) (a b : Nat) : Prop where
  lifetime : Lifetime s es j p b
  program : ∀ k e u inst m, j < k → k < b → es[k]? = some e →
    (Trace.stateAt next s es k).kernel.currentActiveProcess = p →
    executed (Trace.stateAt next s es k) e = some (u, inst, m) →
    inst.opCode ≠ .tti ∧ inst.opCode ≠ .dhab
  born : j < a
  before : a < b
  inside : b < es.length
  dispatch : ∃ t, tickIn s es a = some t ∧ dispatched t = p
  pending : (Trace.stateAt next s es (a + 1)).hw.interruptBitmap = ∅
  quiet : ∀ k, a < k → k < b → tickIn s es k = none

section

variable {s : System} {es : List Event} {i j k a b : Nat} {p : Int}

theorem Lifetime.upto (h : Lifetime s es j p i) (hjk : j < k) (hki : k ≤ i) :
    Lifetime s es j p k :=
  ⟨h.created, h.free, hjk, fun l hjl hlk => h.live l hjl (hlk.trans hki)⟩

/-- All through its life the timer of such a process has a limit of two and is not past it. -/
theorem Stretch.clocked (h : Stretch (initOS s) es j p a b) (hjk : j < k) (hkb : k ≤ b) :
    Clocked (registers (Trace.stateAt next (initOS s) es k) p) := by
  have life := h.lifetime.upto hjk hkb
  obtain ⟨entry, start, -, -, -, -, hborn⟩ := life.born
  refine life.keeps Clocked (hkb.trans h.inside.le) ?_ ?_
  · rw [hborn]
    exact ⟨rfl, two_pos, rfl⟩
  · intro l u hjl hlk he hcur hclocked hs
    refine cpu_step_clocked u hclocked hs ?_
    intro inst m hf
    have hidle : (Trace.stateAt next (initOS s) es l).kernel.currentActiveProcess ≠ -1 := by
      have := h.lifetime.slot
      omega
    exact h.program l _ u inst m hjl (by omega) he hcur (executed_of_fetched hidle hf)

/-- An iteration that makes no tick is its processor step, which neither ends the process nor asks
to yield. -/
theorem quiet_iteration {t : System} {u : Unspecified} (hc : t.kernel.currentActiveProcess ≠ -1)
    (h : tickAt t (.worker u) = none) : (cpuStep u t).1 = true ∧
      (cpuStep u t).2.kernel.osYield = false ∧ next t (.worker u) = (cpuStep u t).2 := by
  simp only [tickAt, next, workerIteration, workerStep, if_pos hc] at h ⊢
  generalize cpuStep u t = r at h ⊢
  obtain ⟨status, t'⟩ := r
  cases status with
  | false => simp at h
  | true =>
    cases hy : t'.kernel.osYield with
    | true => simp [hy] at h
    | false => simp [hy]

structure Counted (es : List Event) (s : System) (a : Nat) (p : Int) (first k : Nat)
    (t : System) : Prop where
  current : t.kernel.currentActiveProcess = p
  short : .timer ∉ t.hw.interruptBitmap →
    Trace.count next s es (executes p) (a + 1) k + first = t.hw.cpu.cyclesCounter
  bound : Trace.count next s es (executes p) (a + 1) k + 1 ≤
    2 + Trace.count next s es (passesTimerOver p) (a + 1) k

/-- An event that leaves the process running where it is changes no count. -/
theorem Counted.idle {first : Nat} {t t' : System} {e : Event} (h : Counted es s a p first k t)
    (ht : Trace.stateAt next s es k = t) (hak : a < k) (he : es[k]? = some e)
    (hx : executed t e = none)
    (hcur : t'.kernel.currentActiveProcess = t.kernel.currentActiveProcess)
    (hcpu : t'.hw.cpu = t.hw.cpu) (hb : t'.hw.interruptBitmap = t.hw.interruptBitmap) :
    Counted es s a p first (k + 1) t' := by
  have hexec : Trace.count next s es (executes p) (a + 1) (k + 1) =
      Trace.count next s es (executes p) (a + 1) k := by
    rw [Trace.count_succ _ _ _ _ hak he, ht]
    simp [executes, hx]
  have hpass : Trace.count next s es (passesTimerOver p) (a + 1) (k + 1) =
      Trace.count next s es (passesTimerOver p) (a + 1) k := by
    rw [Trace.count_succ _ _ _ _ hak he, ht]
    simp [passesTimerOver, hx]
  refine ⟨hcur.trans h.current, ?_, ?_⟩
  · rw [hexec, hcpu, hb]
    exact h.short
  · rw [hexec, hpass]
    exact h.bound

/-- An instruction counts, and once the timer has run out it is passed over. -/
theorem Counted.worker {first : Nat} {t : System} {u : Unspecified}
    (h : Counted es s a p first k t) (ht : Trace.stateAt next s es k = t) (hp : 0 ≤ p)
    (hak : a < k) (he : es[k]? = some (.worker u)) (hclocked : Clocked t.hw.cpu)
    (hquiet : tickAt t (.worker u) = none)
    (hop : ∀ inst m, fetched t.hw = some (inst, m) → inst.opCode ≠ .tti ∧ inst.opCode ≠ .dhab) :
    Counted es s a p first (k + 1) (next t (.worker u)) := by
  have hidle : t.kernel.currentActiveProcess ≠ -1 := by
    have := h.current
    omega
  obtain ⟨hstatus, hyield, hnext⟩ := quiet_iteration hidle hquiet
  have hcur : (next t (.worker u)).kernel.currentActiveProcess = p := by
    have worked := worker_step_worked u t
    rw [next_without_tick hquiet] at worked
    exact (worked_slots worked).1.trans h.current
  cases hf : fetched t.hw with
  | none =>
    rw [cpu_step_unfetched u hf] at hstatus
    cases hstatus
  | some x =>
    obtain ⟨inst, m⟩ := x
    obtain ⟨w, -, -, hm, -⟩ := fetched_machine hf
    have hmc : Clocked m.cpu := by
      rw [hm]
      exact ⟨hclocked.limit, hclocked.cycles, hclocked.enabled⟩
    have hmb : m.interruptBitmap = t.hw.interruptBitmap := by rw [hm]
    have hmy : m.cpu.cyclesCounter = t.hw.cpu.cyclesCounter := by rw [hm]
    obtain ⟨htti, hdhab⟩ := hop inst m hf
    obtain ⟨clocked, hshort⟩ := after_instruction_clocked u hmc htti hdhab
    have hx := executed_of_fetched (u := u) hidle hf
    have hexec : Trace.count next s es (executes p) (a + 1) (k + 1) =
        Trace.count next s es (executes p) (a + 1) k + 1 := by
      rw [Trace.count_succ _ _ _ _ hak he, ht]
      simp [executes, hx, h.current]
    have hpass := Trace.count_succ next s es (passesTimerOver p) (i := a + 1) hak he
    rw [ht] at hpass
    have hstep := cpu_step_fetched u hf
    rw [hstep] at hstatus hyield hnext
    have hbound := h.bound
    have hcycles := hclocked.cycles
    by_cases htimer : .timer ∈ (afterInstruction u inst m).interruptBitmap
    · obtain ⟨hcode, hstill⟩ := timer_passed_over u (s := { t with hw := afterInstruction u inst m })
        htimer clocked.enabled hstatus hyield
      have hover : passesTimerOver p t (.worker u) = true := by
        simpa [passesTimerOver, hx, h.current, htimer, or_assoc] using hcode
      rw [if_pos hover] at hpass
      refine ⟨hcur, ?_, by rw [hexec, hpass]; omega⟩
      intro hno
      rw [hnext] at hno
      exact absurd hstill hno
    · obtain ⟨hold, hcount⟩ := hshort htimer
      have hsum := h.short (hmb ▸ hold)
      refine ⟨hcur, ?_, ?_⟩
      · intro _
        obtain ⟨⟨-, hkept⟩, -⟩ := check_interrupts_clock u hstatus
        rw [hexec, hnext, hkept]
        dsimp only
        rw [hcount, hmy, ← hsum]
        omega
      · have hlt := clocked.cycles
        rw [hexec, hpass]
        omega

theorem Stretch.counted (h : Stretch (initOS s) es j p a b) :
    Counted es (initOS s) a p (Trace.stateAt next (initOS s) es (a + 1)).hw.cpu.cyclesCounter b
      (Trace.stateAt next (initOS s) es b) := by
  obtain ⟨t, htick, hdisp⟩ := h.dispatch
  have hcurrent : (Trace.stateAt next (initOS s) es (a + 1)).kernel.currentActiveProcess = p := by
    obtain ⟨e, he, ht⟩ := tick_in_event htick
    rw [Trace.stateAt_succ he, next_of_tick ht]
    exact hdisp
  refine Trace.stateAt_window_index (fun (k : Nat) (t : System) => Counted es (initOS s) a p
    (Trace.stateAt next (initOS s) es (a + 1)).hw.cpu.cyclesCounter k t)
    (by have := h.before; omega : a + 1 ≤ b) h.inside.le ?_ ?_
  · refine ⟨hcurrent, ?_, ?_⟩
    · intro _
      rw [Trace.count_self, Nat.zero_add]
    · rw [Trace.count_self, Trace.count_self]
      decide
  · intro k e hak hkb he hk
    have hborn := h.born
    have hclocked := h.clocked (by omega : j < k) hkb.le
    rw [registers_current hk.current] at hclocked
    have hlive := h.lifetime.live (k + 1) (by omega) hkb
    rw [Trace.stateAt_succ he] at hlive
    have hquiet := h.quiet k (by omega) hkb
    rw [tickIn, he] at hquiet
    cases e with
    | worker u =>
      refine hk.worker rfl h.lifetime.slot.1 hak he hclocked hquiet ?_
      intro inst m hf
      have hidle : (Trace.stateAt next (initOS s) es k).kernel.currentActiveProcess ≠ -1 := by
        have := h.lifetime.slot
        have := hk.current
        omega
      exact h.program k _ u inst m (by omega) hkb he hk.current (executed_of_fetched hidle hf)
    | create host u progName =>
      obtain ⟨hcur, hcpu, hb, -⟩ := created_running host u progName
        (Trace.stateAt next (initOS s) es k)
      exact hk.idle rfl hak he rfl hcur hcpu hb
    | monitor active => exact hk.idle rfl hak he rfl rfl rfl rfl
    | restart =>
      refine absurd ?_ hlive.2.2
      simp [next, handleRestartCommand, initOS, forEachProcess, h.lifetime.slot]

end

/-- From a dispatch with nothing pending a process executes at most as many instructions as its
timer allows, and one more for every time its timer interrupt is passed over. -/
theorem quantum_bound (s : System) (es : List Event) (j a b : Nat) (p : Int)
    (h : Stretch (initOS s) es j p a b) :
    Trace.count next (initOS s) es (executes p) (a + 1) (b + 1) ≤
      (Trace.stateAt next (initOS s) es (a + 1)).hw.cpu.timerLimit +
        Trace.count next (initOS s) es (passesTimerOver p) (a + 1) b := by
  have hborn := h.born
  have hbefore := h.before
  have counted := h.counted
  have limit : (Trace.stateAt next (initOS s) es (a + 1)).hw.cpu.timerLimit = 2 := by
    obtain ⟨t, htick, hdisp⟩ := h.dispatch
    obtain ⟨e, he, ht⟩ := tick_in_event htick
    have hcurrent : (Trace.stateAt next (initOS s) es (a + 1)).kernel.currentActiveProcess = p := by
      rw [Trace.stateAt_succ he, next_of_tick ht]
      exact hdisp
    have hclocked := h.clocked (by omega : j < a + 1) hbefore
    rw [registers_current hcurrent] at hclocked
    exact hclocked.limit
  have inside := h.inside
  have last : es[b]? = some es[b] := List.getElem?_eq_getElem inside
  have hbound := counted.bound
  rw [limit, Trace.count_succ next (initOS s) es (executes p) (i := a + 1) hbefore last]
  split_ifs <;> omega

def timedStep (s : System) (e : Event) : Bool :=
  (executed s e).all (fun x => x.2.1.opCode ≠ .tti ∧ x.2.1.opCode ≠ .dhab)

theorem timed_executed {s : System} {e : Event} {u : Unspecified} {inst : Instruction}
    {m : Machine} (h : timedStep s e) (hx : executed s e = some (u, inst, m)) :
    inst.opCode ≠ .tti ∧ inst.opCode ≠ .dhab := by
  rw [timedStep, hx] at h
  simpa using h

/-- A program whose second instruction overflows just as its quantum runs out, and one that only
reads a register. -/
def overflowing : List Event :=
  session "_start 1\n.N 4\n.P A\n04000003\n00100001\n06000000\n09999999\n"
    "_start 1\n.N 2\n.P B\n06000000\n06000000\n" 4

theorem overflowing_stretch : Stretch (boot zeroKeys) overflowing 0 0 2 5 := by
  have timed : ∀ k < overflowing.length, ∀ e ∈ overflowing[k]?,
      timedStep (Trace.stateAt next (boot zeroKeys) overflowing k) e := by decide +kernel
  have ticks : ∀ k < 5, 2 ≤ k → (tickIn (boot zeroKeys) overflowing k).map dispatched =
      if k = 2 then some 0 else none := by decide +kernel
  refine ⟨.of_live ⟨_, _, _, rfl⟩ (by decide) (by decide +kernel),
    fun k e u inst m _ _ he _ hx => timed_executed (Trace.every_index timed he) hx,
    by decide, by decide, by decide, Option.map_eq_some_iff.mp (ticks 2 (by decide) (by decide)),
    by decide +kernel, ?_⟩
  intro k hk hk'
  have hnone := ticks k (by omega) (by omega)
  rw [if_neg (by omega)] at hnone
  exact Option.map_eq_none_iff.mp hnone

theorem quantum_bound_overflowing :
    Trace.count next (boot zeroKeys) overflowing (executes 0) 3 6 ≤ 2 + 1 := by
  have bound := quantum_bound (powerOn zeroKeys) overflowing 0 2 5 0 overflowing_stretch
  have counts : (Trace.stateAt next (boot zeroKeys) overflowing 3).hw.cpu.timerLimit = 2 ∧
      Trace.count next (boot zeroKeys) overflowing (passesTimerOver 0) 3 5 = 1 := by decide +kernel
  exact bound.trans (Nat.add_le_add counts.1.le counts.2.le)

def QuantumBound (s : System) (es : List Event) : Prop :=
  ∀ j a b p, Stretch s es j p a b → Trace.count next s es (executes p) (a + 1) (b + 1) ≤
    (Trace.stateAt next s es (a + 1)).hw.cpu.timerLimit

theorem not_quantum_bound_overflowing : ¬ QuantumBound (boot zeroKeys) overflowing := by
  intro h
  exact absurd (h 0 2 5 0 overflowing_stretch) (by decide +kernel)

end Lucario.Proofs
