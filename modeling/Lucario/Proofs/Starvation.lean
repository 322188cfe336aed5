import Lucario.Lib.Progress
import Lucario.Proofs.ProcessIdentity
import Lucario.Proofs.Quantum
import Lucario.Proofs.RoundRobin

namespace Lucario.Proofs

def WaitsReady (k : Kernel) (p : Int) : Prop := 0 ≤ p ∧ p < 20 ∧ (k.processTable p).state = .ready

def LeavesTimer (s : System) (e : Event) : Prop :=
  ∀ u inst m, executed s e = some (u, inst, m) → inst.opCode ≠ .tti ∧ inst.opCode ≠ .dhab

def AllClocked (s : System) : Prop := ∀ p, Live s.kernel p → Clocked (registers s p)

def iterates (_ : System) : Event → Bool
  | .worker _ => true
  | _ => false

def passesOver (s : System) (e : Event) : Bool := passesTimerOver s.kernel.currentActiveProcess s e

def quantumLeft (s : System) : Int :=
  if s.kernel.currentActiveProcess = -1 ∨ .timer ∈ s.hw.interruptBitmap then 0
  else 2 - s.hw.cpu.cyclesCounter

/-- What stands between slot `p` and its turn. -/
def ahead (p : Int) (s : System) : Int := 3 * lag s.kernel.currentActiveProcess p + quantumLeft s

section

variable {s : System} {e : Event} {u : Unspecified} {p : Int}

theorem next_clocked (hs : Scheduled s.kernel) (h : AllClocked s) (ht : LeavesTimer s e) :
    AllClocked (next s e) := by
  intro p hlive
  by_cases hold : Live s.kernel p
  · have clocked := h p hold
    cases e with
    | worker u =>
      by_cases hcur : s.kernel.currentActiveProcess = p
      · obtain ⟨hstatus, hregs⟩ := worker_registers_running u ⟨hold.1, hold.2.1⟩ hcur hlive
        have hc : s.kernel.currentActiveProcess ≠ -1 := by
          have := hold.1
          omega
        rw [registers_current hcur] at clocked
        rw [hregs]
        exact cpu_step_clocked u clocked hstatus
          (fun inst m hf => ht u inst m (executed_of_fetched hc hf))
      · rw [worker_registers_waiting u hs.current ⟨hold.1, hold.2.1⟩ hcur]
        exact clocked
    | create | monitor | restart =>
      rw [other_registers hlive hold (fun _ => Event.noConfusion)]
      exact clocked
  · obtain ⟨⟨host, u, progName, rfl⟩, -⟩ := born_pid hs hold hlive
    obtain ⟨entry, start, -, -, -, -, hborn⟩ := created_registers hs hold hlive
    rw [hborn]
    exact ⟨rfl, two_pos, rfl⟩

theorem boot_clocked (keyboard : Nat → Int) : AllClocked (boot keyboard) := by
  rintro p ⟨hl, hu, hfin⟩
  refine absurd ?_ hfin
  simp [boot, initOS, forEachProcess, hl, hu]

/-- The running process is clocked. -/
theorem AllClocked.running (h : AllClocked s) (hs : Scheduled s.kernel)
    (hc : s.kernel.currentActiveProcess ≠ -1) : Clocked s.hw.cpu := by
  have hslot := hs.current.resolve_left hc
  have hlive : Live s.kernel s.kernel.currentActiveProcess := by
    refine ⟨hslot.1, hslot.2, ?_⟩
    rw [hs.running hslot.1]
    decide
  have clocked := h _ hlive
  rwa [registers_current rfl] at clocked

theorem quantum_left_bounds (hs : Scheduled s.kernel) (h : AllClocked s) :
    0 ≤ quantumLeft s ∧ quantumLeft s ≤ 2 := by
  unfold quantumLeft
  split_ifs with hc
  · omega
  · have := (h.running hs (fun hidle => hc (Or.inl hidle))).cycles
    omega

theorem ahead_bounds (hs : Scheduled s.kernel) (h : AllClocked s) (p : Int) :
    0 ≤ ahead p s ∧ ahead p s ≤ 59 := by
  have left := quantum_left_bounds hs h
  have hlag := CyclicScan.distance_bounds (n := 20) (s.kernel.currentActiveProcess + 1) p (by omega)
  unfold ahead lag
  omega

theorem excuse_nonneg (b : Bool) : 0 ≤ if b then (1 : Int) else 0 := by
  cases b <;> decide

/-- A slot that waits ready is still ready when the tick of an iteration looks at it. -/
theorem ready_at_scan {t : System} (hs : Scheduled s.kernel) (hp : WaitsReady s.kernel p)
    (ht : tickAt s e = some t) : readyAtScan t p := by
  obtain ⟨hl, hu, hready⟩ := hp
  obtain ⟨hcur, hslots⟩ := worked_slots (tick_worked ht)
  have hne : s.kernel.currentActiveProcess ≠ p := by
    rintro rfl
    rw [hs.running hl] at hready
    cases hready
  have same : t.kernel.processTable p = s.kernel.processTable p := hslots p hne
  have hcur' : t.kernel.currentActiveProcess = s.kernel.currentActiveProcess := hcur
  rw [readyAtScan, before_scan_at t hl hu, hcur', if_neg (Ne.symm hne), same]
  unfold stirred unblockIo wakeSleeper
  simp [hready]

/-- An instruction after which the worker goes on with the same process has cost it a cycle, or has
had the timer passed over. -/
theorem quiet_quantum (hs : Scheduled s.kernel) (h : AllClocked s)
    (ht : LeavesTimer s (.worker u)) (hc : s.kernel.currentActiveProcess ≠ -1)
    (hquiet : tickAt s (.worker u) = none) :
    quantumLeft (next s (.worker u)) + 1 ≤
      quantumLeft s + if passesOver s (.worker u) then 1 else 0 := by
  obtain ⟨hstatus, hyield, hnext⟩ := quiet_iteration hc hquiet
  have clocked := h.running hs hc
  have before := quantum_left_bounds hs h
  cases hf : fetched s.hw with
  | none =>
    rw [cpu_step_unfetched u hf] at hstatus
    cases hstatus
  | some x =>
    obtain ⟨inst, m⟩ := x
    obtain ⟨w, -, -, hm, -⟩ := fetched_machine hf
    have hmc : Clocked m.cpu := by
      rw [hm]
      exact ⟨clocked.limit, clocked.cycles, clocked.enabled⟩
    have hmb : m.interruptBitmap = s.hw.interruptBitmap := by rw [hm]
    have hmy : m.cpu.cyclesCounter = s.hw.cpu.cyclesCounter := by rw [hm]
    have hx := executed_of_fetched (u := u) hc hf
    obtain ⟨htti, hdhab⟩ := ht u inst m hx
    obtain ⟨after, hshort⟩ := after_instruction_clocked u hmc htti hdhab
    rw [cpu_step_fetched u hf] at hstatus hyield hnext
    by_cases htimer : .timer ∈ (afterInstruction u inst m).interruptBitmap
    · obtain ⟨hcode, hstill⟩ := timer_passed_over u
        (s := { s with hw := afterInstruction u inst m }) htimer after.enabled hstatus hyield
      have passed : passesOver s (.worker u) = true := by
        simpa [passesOver, passesTimerOver, hx, htimer, or_assoc] using hcode
      have gone : quantumLeft (next s (.worker u)) = 0 := by
        rw [hnext, quantumLeft, if_pos (Or.inr hstill)]
      rw [gone, if_pos passed]
      omega
    · obtain ⟨hold, hcount⟩ := hshort htimer
      obtain ⟨⟨-, hkept⟩, -⟩ := check_interrupts_clock u hstatus
      have left : quantumLeft s = 2 - s.hw.cpu.cyclesCounter :=
        if_neg (not_or.mpr ⟨hc, hmb ▸ hold⟩)
      have spent : quantumLeft (next s (.worker u)) ≤ 2 - (s.hw.cpu.cyclesCounter + 1) := by
        have hlt := after.cycles
        rw [hcount, hmy] at hlt
        unfold quantumLeft
        rw [hnext, hkept]
        dsimp only
        rw [hcount, hmy]
        split_ifs <;> push_cast <;> omega
      have := excuse_nonneg (passesOver s (.worker u))
      omega

/-- An iteration with a tick lets the scan come closer; one without uses up the quantum of the
running process, or its timer is passed over. -/
theorem iteration_ahead (hs : Scheduled s.kernel) (h : AllClocked s)
    (ht : LeavesTimer s (.worker u)) (hp : WaitsReady s.kernel p)
    (hafter : WaitsReady (next s (.worker u)).kernel p) :
    ahead p (next s (.worker u)) + 1 ≤
      ahead p s + if passesOver s (.worker u) then 1 else 0 := by
  have scheduled := next_scheduled hs (.worker u)
  have bounds := quantum_left_bounds scheduled (next_clocked hs h ht)
  have before := quantum_left_bounds hs h
  have excuse := excuse_nonneg (passesOver s (.worker u))
  unfold ahead
  cases htick : tickAt s (.worker u) with
  | some t =>
    have hcur : t.kernel.currentActiveProcess = s.kernel.currentActiveProcess :=
      (worked_slots (tick_worked htick)).1
    have hnext := next_of_tick htick
    have hne : dispatched t ≠ p := by
      intro hd
      have running := scheduled.running
      rw [hnext] at running
      have hstate := running (by rw [← dispatched, hd]; exact hp.1)
      rw [← dispatched, hd] at hstate
      have hready := hafter.2.2
      rw [hnext, hstate] at hready
      cases hready
    have closer := lag_decreases (s := t) (hcur ▸ hs.current) hp.1 hp.2.1
      (ready_at_scan hs hp htick) hne
    have hlag : (next s (.worker u)).kernel.currentActiveProcess = dispatched t := by
      rw [hnext]
      rfl
    rw [hlag]
    rw [hcur] at closer
    omega
  | none =>
    have hc : s.kernel.currentActiveProcess ≠ -1 := by
      intro hidle
      simp [tickAt, workerStep, hidle] at htick
    have hcur := next_current (e := .worker u) (s := s) Event.noConfusion htick
    have quantum := quiet_quantum hs h ht hc htick
    rw [hcur]
    omega

/-- What else happens does not touch the turn of anybody. -/
theorem other_ahead (hr : e ≠ .restart) (he : ∀ u, e ≠ .worker u) :
    ahead p (next s e) = ahead p s := by
  cases e with
  | create host u progName =>
    obtain ⟨hcur, hcpu, hbitmap, -⟩ := created_running host u progName s
    simp only [ahead, quantumLeft, next, hcur, hcpu, hbitmap]
  | worker u => exact absurd rfl (he u)
  | monitor active => rfl
  | restart => exact absurd rfl hr

end

section

variable {keyboard : Nat → Int} {es : List Event}

theorem state_at_clocked (ht : ∀ k e, es[k]? = some e →
      LeavesTimer (Trace.stateAt next (boot keyboard) es k) e) {i : Nat} (hi : i ≤ es.length) :
    AllClocked (Trace.stateAt next (boot keyboard) es i) := by
  have both := @Trace.stateAt_window _ _ next (boot keyboard) es
    (fun s => Scheduled s.kernel ∧ AllClocked s) 0 i (Nat.zero_le i) hi
    ⟨init_scheduled _, boot_clocked keyboard⟩ (by
      rintro k e - - he ⟨hs, h⟩
      exact ⟨next_scheduled hs e, next_clocked hs h (ht k e he)⟩)
  exact both.2

end

end Lucario.Proofs
