import Lucario.Proofs.ContextSwitch
import Lucario.Proofs.ServiceCall
import Lucario.Proofs.Sessions

namespace Lucario.Proofs

def Runs (s : System) (e : Event) (p : Int) : Prop :=
  s.kernel.currentActiveProcess = p ∧ ∃ u, e = .worker u

/-- The process in slot `p` makes a print or read call at index `i`, and at every further attempt
up to index `n` it finds the monitor closed. -/
structure Attempts (s : System) (es : List Event) (i n : Nat) (p : Int) : Prop where
  order : i ≤ n
  length : n ≤ es.length
  slot : 0 ≤ p ∧ p < 20
  current : (Trace.stateAt next s es i).kernel.currentActiveProcess = p
  calling : Calling (Trace.stateAt next s es i)
  kept : ∀ k e, i ≤ k → k < n → es[k]? = some e → e ≠ .restart
  closed : ∀ k e, i ≤ k → k < n → es[k]? = some e → Runs (Trace.stateAt next s es k) e p →
    (Trace.stateAt next s es k).monitor.active = false ∧
      Unpreempted (Trace.stateAt next s es k).hw.interruptBitmap

def pcWord (c : Cpu) : Int := translate c c.psw.pc

/-- The instruction that makes the call stays in RAM: it does not lie where the frame of the call
goes, and nobody else overwrites it. -/
structure CallKept (s : System) (es : List Event) (i n : Nat) (p : Int) : Prop where
  clear : ¬ ((Trace.stateAt next s es i).hw.cpu.sp - 7 ≤ (Trace.stateAt next s es i).hw.cpu.psw.pc ∧
    (Trace.stateAt next s es i).hw.cpu.psw.pc < (Trace.stateAt next s es i).hw.cpu.sp)
  spared : ∀ k e, i ≤ k → k < n → es[k]? = some e → ¬ Runs (Trace.stateAt next s es k) e p →
    (Trace.stateAt next s es (k + 1)).hw.ram (pcWord (Trace.stateAt next s es i).hw.cpu) =
      (Trace.stateAt next s es k).hw.ram (pcWord (Trace.stateAt next s es i).hw.cpu)

/-- The call is made over and over, without effect while the monitor is closed, and takes effect
once when it is open. -/
structure CalledOnce (s : System) (es : List Event) (i n : Nat) (p : Int) : Prop where
  same : ∀ k, i ≤ k → k ≤ n → (Trace.stateAt next s es k).kernel.currentActiveProcess = p →
    ProgramKept (Trace.stateAt next s es k).hw.cpu (Trace.stateAt next s es i).hw.cpu
  silent : ∀ k e, i ≤ k → k < n → es[k]? = some e → Runs (Trace.stateAt next s es k) e p →
    (Trace.stateAt next s es (k + 1)).monitor = (Trace.stateAt next s es k).monitor
  served : ∀ e, es[n]? = some e → Runs (Trace.stateAt next s es n) e p →
    (Trace.stateAt next s es n).monitor.active = true →
    Unpreempted (Trace.stateAt next s es n).hw.interruptBitmap →
    ServedCall (Trace.stateAt next s es n) (Trace.stateAt next s es (n + 1))

theorem ProgramKept.view {c d : Cpu} (h : ProgramKept c d) : SameView c d :=
  ⟨by rw [h.psw], h.rb, h.rl⟩

theorem ProgramKept.trans {c d e : Cpu} (h : ProgramKept c d) (h' : ProgramKept d e) :
    ProgramKept c e :=
  ⟨h.ac.trans h'.ac, h.psw.trans h'.psw, h.rb.trans h'.rb, h.rl.trans h'.rl, h.rx.trans h'.rx,
    h.sp.trans h'.sp⟩

theorem ProgramKept.refl (c : Cpu) : ProgramKept c c := ⟨rfl, rfl, rfl, rfl, rfl, rfl⟩

theorem ProgramKept.pcWord {c d : Cpu} (h : ProgramKept c d) :
    Proofs.pcWord c = Proofs.pcWord d := by
  rw [Proofs.pcWord, Proofs.pcWord, translate_congr h.view, h.psw]

/-- Which instruction is fetched depends on the program's registers and the word alone. -/
theorem fetched_of_word {m n : Machine} {inst : Instruction} (hf : ∃ k, fetched n = some (inst, k))
    (hc : ProgramKept m.cpu n.cpu) (hw : m.ram (pcWord n.cpu) = n.ram (pcWord n.cpu)) :
    ∃ k, fetched m = some (inst, k) := by
  obtain ⟨k, hf⟩ := hf
  obtain ⟨w, hword, ha, hk, hinst⟩ := fetched_machine hf
  have ha' : Accessible m.cpu m.cpu.psw.pc := by
    rw [accessible_congr hc.view, hc.psw]
    exact ha
  have hread : readMemory m.cpu.psw.pc { m with cpu.mar := m.cpu.psw.pc } = .ok w := by
    have ha'' : Accessible { m with cpu.mar := m.cpu.psw.pc }.cpu m.cpu.psw.pc := ha'
    rw [read_accessible ha'', ← hword]
    refine congrArg Except.ok (Eq.trans ?_ hw)
    exact congrArg m.ram hc.pcWord
  refine ⟨{ m with cpu := { m.cpu with
    mar := m.cpu.psw.pc, mdr := w, ir := w, psw.pc := m.cpu.psw.pc + 1 } }, ?_⟩
  rw [fetched, fetch]
  dsimp only
  rw [hread, hinst, hk]
  rfl

/-- The caller stands at the call again, or its registers wait in its slot. -/
structure Retrying (s0 s : System) (p : Int) : Prop where
  word : s.hw.ram (pcWord s0.hw.cpu) = s0.hw.ram (pcWord s0.hw.cpu)
  place : s.kernel.currentActiveProcess = p ∧ ProgramKept s.hw.cpu s0.hw.cpu ∨
    ∃ pid cpu, ProgramKept cpu s0.hw.cpu ∧ Parked s.kernel p pid cpu

theorem Retrying.running {s0 s : System} {p : Int} (h : Retrying s0 s p)
    (hcur : s.kernel.currentActiveProcess = p) : ProgramKept s.hw.cpu s0.hw.cpu := by
  rcases h.place with ⟨-, hc⟩ | ⟨pid, cpu, -, parked⟩
  · exact hc
  · exact absurd hcur.symm parked.waiting

/-- Dispatched again, the caller makes the same call. -/
theorem Retrying.calling {s0 s : System} {p : Int} (h : Retrying s0 s p) (h0 : Calling s0)
    (hcur : s.kernel.currentActiveProcess = p) (hp : Unpreempted s.hw.interruptBitmap) :
    Calling s := by
  have hc := h.running hcur
  obtain ⟨inst, m, hf, hop⟩ := h0.svc
  obtain ⟨k, hk⟩ := fetched_of_word ⟨m, hf⟩ hc h.word
  refine ⟨⟨inst, k, hk, hop⟩, ?_, ?_, hp, ?_, ?_, ?_⟩
  · rw [hc.ac]
    exact h0.service
  · rw [hc.psw]
    exact h0.enabled
  · rw [accessible_congr hc.view, hc.sp]
    exact h0.operand
  · intro j hl hu
    rw [accessible_congr hc.view, hc.sp]
    exact h0.writable j hl hu
  · refine ⟨?_, ?_, ?_, ?_, ?_⟩
    · rw [hc.ac]
      exact h0.valid.ac
    · rw [hc.psw]
      exact h0.valid.pc
    · rw [hc.rx]
      exact h0.valid.rx
    · rw [hc.rb]
      exact h0.valid.rb
    · rw [hc.rl]
      exact h0.valid.rl

/-- A caller that is blocked in its step makes way to the scheduler. -/
theorem blocked_tick {s : System} {u : Unspecified} (hs : s.kernel.currentActiveProcess ≠ -1)
    (h1 : (cpuStep u s).1 = true) (h : WaitsForMonitor s (cpuStep u s).2) :
    tickAt s (.worker u) = some { (cpuStep u s).2 with
      kernel := { (cpuStep u s).2.kernel with osYield := false } } := by
  have hy : (cpuStep u s).2.kernel.osYield = true := by
    rw [h.kernel]
  have hstep : workerStep u s = (true, { (cpuStep u s).2 with
      kernel := { (cpuStep u s).2.kernel with osYield := false } }) := by
    rw [workerStep, if_pos hs]
    generalize cpuStep u s = r at h1 hy
    obtain ⟨status, t⟩ := r
    obtain rfl : status = true := h1
    dsimp only at hy ⊢
    rw [if_pos hy]
  rw [tickAt, hstep]
  rfl

/-- An attempt that finds the monitor closed: nothing is printed or consumed, the registers go to
the caller's slot, and the instruction stays where it is. -/
theorem attempt_parks {s : System} {u : Unspecified} {p : Int} (h : Calling s)
    (hs : Scheduled s.kernel) (hp : 0 ≤ p ∧ p < 20) (hcur : s.kernel.currentActiveProcess = p)
    (hm : s.monitor.active = false)
    (hclear : ¬ (s.hw.cpu.sp - 7 ≤ s.hw.cpu.psw.pc ∧ s.hw.cpu.psw.pc < s.hw.cpu.sp)) :
    (next s (.worker u)).monitor = s.monitor ∧
    (next s (.worker u)).hw.ram (pcWord s.hw.cpu) = s.hw.ram (pcWord s.hw.cpu) ∧
    ∃ pid cpu, ProgramKept cpu s.hw.cpu ∧ Parked (next s (.worker u)).kernel p pid cpu := by
  obtain ⟨hstatus, waits⟩ := h.blocks hm u
  have htick := blocked_tick (u := u) (by omega) hstatus waits
  have at_tick := (worked_at_tick hs (tick_worked htick)).1
  rw [next_of_tick htick]
  generalize ht : ({ (cpuStep u s).2 with
    kernel := { (cpuStep u s).2.kernel with osYield := false } } : System) = t at at_tick ⊢
  have hmon : t.monitor = s.monitor := by
    rw [← ht]
    exact waits.monitor
  have hcur' : t.kernel.currentActiveProcess = p := by
    rw [← ht]
    dsimp only
    rw [waits.kernel]
    exact hcur
  have hstate : (t.kernel.processTable p).state = .blockedIo := by
    rw [← ht]
    dsimp only
    rw [waits.kernel, hcur]
    simp [Kernel.modifyProcess]
  have hcpu : t.hw.cpu = (cpuStep u s).2.hw.cpu := by rw [← ht]
  have hram : t.hw.ram = (cpuStep u s).2.hw.ram := by rw [← ht]
  -- the monitor is closed, so the tick leaves the caller blocked
  have hslot : ((beforeScan t).processTable p).state = .blockedIo := by
    rw [before_scan_at t hp.1 hp.2, if_pos hcur'.symm]
    simp [saved, stirred, wakeSleeper, hmon, hm, hstate]
  have hne : dispatched t ≠ p := by
    unfold dispatched
    rcases tick_cases at_tick.current with ⟨n, -, -, hready, -, hn⟩ | ⟨-, hn⟩
    · rw [hn]
      rintro rfl
      change ((beforeScan t).processTable n).state = .blockedIo at hslot
      rw [hready] at hslot
      cases hslot
    · rw [hn]
      change (-1 : Int) ≠ p
      omega
  have hpassed := passed_slot at_tick.current hne
  obtain ⟨cpu, k, hkept⟩ := tick_kept t
  refine ⟨?_, ?_, _, t.hw.cpu, ?_, hp, Ne.symm hne, ?_, rfl, ?_⟩
  · rw [hkept, ← hmon]
  · rw [hkept]
    dsimp only
    rw [hram]
    refine waits.ram _ ?_
    intro k hl hu he
    have := translate_injective he
    exact hclear ⟨by omega, by omega⟩
  · rw [hcpu]
    exact waits.cpu
  · rw [hpassed, hslot]
    decide
  · rw [hpassed]
    exact (outgoing_saved hp hcur').1

/-- An attempt that finds the monitor open. -/
theorem attempt_served {s : System} {u : Unspecified} (h : Calling s)
    (hcur : s.kernel.currentActiveProcess ≠ -1) (hy : s.kernel.osYield = false)
    (hm : s.monitor.active = true) : ServedCall s (next s (.worker u)) := by
  obtain ⟨hstatus, hserved⟩ := h.serves hm u
  have hy' : (cpuStep u s).2.kernel.osYield = false := by
    rw [hserved.kernel]
    exact hy
  have hnext : next s (.worker u) = (cpuStep u s).2 := by
    rw [next, workerIteration, workerStep, if_pos hcur]
    generalize cpuStep u s = r at hstatus hy'
    obtain ⟨status, t⟩ := r
    obtain rfl : status = true := hstatus
    dsimp only at hy' ⊢
    rw [hy']
    rfl
  rw [hnext]
  exact hserved

/-- A caller in its slot stays there until a tick dispatches it with its registers. -/
theorem parked_or_running {s : System} {e : Event} {p pid : Int} {cpu : Cpu}
    (hs : Scheduled s.kernel) (h : Parked s.kernel p pid cpu) (hr : e ≠ .restart) :
    (next s e).kernel.currentActiveProcess = p ∧ (next s e).hw.cpu = cpu ∨
      Parked (next s e).kernel p pid cpu := by
  cases htick : tickAt s e with
  | none => exact Or.inr (next_parked hs.current h hr (fun t ht => by rw [htick] at ht; cases ht))
  | some t =>
    have worked := tick_worked htick
    have at_tick := (worked_at_tick hs worked).1
    by_cases hd : dispatched t = p
    · have back := before_scan_parked (worked_parked worked h)
      refine Or.inl ⟨?_, ?_⟩
      · rw [next_of_tick htick]
        exact hd
      · rw [next_of_tick htick, (dispatched_slot at_tick.current h.slot.1 hd).1]
        exact back.context
    · rw [next_of_tick htick]
      exact Or.inr (tick_parked at_tick.current (worked_parked worked h) hd)

/-- Creations and the monitor leave the running process alone. -/
theorem bystander_running {s : System} {e : Event} (hr : e ≠ .restart)
    (hw : ¬ ∃ u, e = .worker u) :
    (next s e).kernel.currentActiveProcess = s.kernel.currentActiveProcess ∧
      (next s e).hw.cpu = s.hw.cpu := by
  cases e with
  | create host u progName =>
    obtain ⟨hcur, hcpu, -⟩ := created_running host u progName s
    exact ⟨hcur, hcpu⟩
  | worker u => exact absurd ⟨u, rfl⟩ hw
  | monitor active => exact ⟨rfl, rfl⟩
  | restart => exact absurd rfl hr

theorem state_at_yield (keyboard : Nat → Int) (es : List Event) (i : Nat) :
    (Trace.stateAt next (boot keyboard) es i).kernel.osYield = false :=
  Trace.stateAt_invariant (fun s : System => s.kernel.osYield = false) rfl
    (fun _ e _ h => next_yield h e) i

/-- One event of a run brings the caller no further than to the same call. -/
theorem retrying_step {keyboard : Nat → Int} {es : List Event} {i n : Nat} {p : Int}
    (h : Attempts (boot keyboard) es i n p) (hkept : CallKept (boot keyboard) es i n p)
    {k : Nat} {e : Event} (hik : i ≤ k) (hkn : k < n) (he : es[k]? = some e)
    (hk : Retrying (Trace.stateAt next (boot keyboard) es i)
      (Trace.stateAt next (boot keyboard) es k) p) :
    Retrying (Trace.stateAt next (boot keyboard) es i)
      (Trace.stateAt next (boot keyboard) es (k + 1)) p ∧
    (Runs (Trace.stateAt next (boot keyboard) es k) e p →
      (Trace.stateAt next (boot keyboard) es (k + 1)).monitor =
        (Trace.stateAt next (boot keyboard) es k).monitor) := by
  have hs : Scheduled (Trace.stateAt next (boot keyboard) es k).kernel :=
    state_at_scheduled _ es k
  have hr := h.kept k e hik hkn he
  have hspared := hkept.spared k e hik hkn he
  have hclosed := h.closed k e hik hkn he
  have hclear := hkept.clear
  have hcalling := h.calling
  rw [Trace.stateAt_succ he] at hspared ⊢
  generalize Trace.stateAt next (boot keyboard) es k = s at hk hs hspared hclosed ⊢
  generalize Trace.stateAt next (boot keyboard) es i = s0 at hk hspared hclear hcalling ⊢
  by_cases hruns : Runs s e p
  · obtain ⟨hm, hp⟩ := hclosed hruns
    obtain ⟨hcur, u, rfl⟩ := hruns
    have regs := hk.running hcur
    have calling := hk.calling hcalling hcur hp
    rw [← regs.sp, ← regs.psw] at hclear
    obtain ⟨hmon, hram, pid, cpu, hcpu, parked⟩ := attempt_parks (u := u) calling hs h.slot hcur hm
      hclear
    rw [regs.pcWord] at hram
    exact ⟨⟨hram.trans hk.word, Or.inr ⟨pid, cpu, hcpu.trans regs, parked⟩⟩, fun _ => hmon⟩
  · refine ⟨⟨(hspared hruns).trans hk.word, ?_⟩, fun hrun => absurd hrun hruns⟩
    rcases hk.place with ⟨hcur, regs⟩ | ⟨pid, cpu, hcpu, parked⟩
    · have hw : ¬ ∃ u, e = .worker u := fun hw => hruns ⟨hcur, hw⟩
      obtain ⟨hcur', hcpu⟩ := bystander_running hr hw
      refine Or.inl ⟨hcur'.trans hcur, ?_⟩
      rw [hcpu]
      exact regs
    · rcases parked_or_running hs parked hr with ⟨hcur, hregs⟩ | hparked
      · refine Or.inl ⟨hcur, ?_⟩
        rw [hregs]
        exact hcpu
      · exact Or.inr ⟨pid, cpu, hcpu, hparked⟩

theorem retrying_run {keyboard : Nat → Int} {es : List Event} {i n : Nat} {p : Int}
    (h : Attempts (boot keyboard) es i n p) (hkept : CallKept (boot keyboard) es i n p)
    {k : Nat} (hik : i ≤ k) (hkn : k ≤ n) :
    Retrying (Trace.stateAt next (boot keyboard) es i)
      (Trace.stateAt next (boot keyboard) es k) p := by
  have hlen := h.length
  induction k, hik using Nat.le_induction with
  | base => exact ⟨rfl, Or.inl ⟨h.current, ProgramKept.refl _⟩⟩
  | succ k hik ih =>
    have he : es[k]? = some es[k] := List.getElem?_eq_getElem (by omega)
    exact (retrying_step h hkept hik (by omega) he (ih (by omega))).1

/-- A call that finds the monitor closed leaves its process blocked at the call; and as long as the
calling instruction stays in RAM, the call is made again until it finds the monitor open and then
takes effect once. -/
theorem blocking_io_once :
    (∀ (s : System) (u : Unspecified), Calling s → s.monitor.active = false →
      (cpuStep u s).1 = true ∧ WaitsForMonitor s (cpuStep u s).2) ∧
    ∀ (keyboard : Nat → Int) (es : List Event) (i n : Nat) (p : Int),
      Attempts (boot keyboard) es i n p → CallKept (boot keyboard) es i n p →
      CalledOnce (boot keyboard) es i n p := by
  refine ⟨fun s u h hc => h.blocks hc u, ?_⟩
  intro keyboard es i n p h hkept
  refine ⟨?_, ?_, ?_⟩
  · intro k hik hkn hcur
    exact (retrying_run h hkept hik hkn).running hcur
  · intro k e hik hkn he hruns
    exact (retrying_step h hkept hik hkn he (retrying_run h hkept hik hkn.le)).2 hruns
  · intro e he hruns hm hp
    obtain ⟨hcur, u, rfl⟩ := hruns
    have calling := (retrying_run h hkept h.order le_rfl).calling h.calling hcur hp
    rw [Trace.stateAt_succ he]
    have hslot := h.slot
    exact attempt_served calling (by omega) (state_at_yield keyboard es n) hm

/-- A caller that is not dispatched again before index `n` makes one attempt. -/
theorem attempts_single {s : System} {es : List Event} {i n : Nat} {p : Int}
    (hi : i < n) (hn : n ≤ es.length) (hp : 0 ≤ p ∧ p < 20) (hr : ∀ e ∈ es, e ≠ .restart)
    (hcalling : Calling (Trace.stateAt next s es i))
    (hcur : (Trace.stateAt next s es i).kernel.currentActiveProcess = p ∧
      (Trace.stateAt next s es i).monitor.active = false)
    (hother : ∀ k ∈ List.range' (i + 1) (n - (i + 1)),
      (Trace.stateAt next s es k).kernel.currentActiveProcess ≠ p) : Attempts s es i n p := by
  refine ⟨hi.le, hn, hp, hcur.1, hcalling, ?_, ?_⟩
  · intro k e _ _ he
    exact hr e (List.mem_of_getElem? he)
  · intro k e hik hkn _ hruns
    rcases Nat.eq_or_lt_of_le hik with rfl | hlt
    · exact ⟨hcur.2, hcalling.unpreempted⟩
    · refine absurd hruns.1 (hother k ?_)
      rw [List.mem_range'_1]
      omega

def printsLater : List Event :=
  .create (hostOf "_start 1\n.N 2\n.P A\n04100002\n13000000\n" "") zeros ['a'] ::
    (List.replicate 3 (.worker zeros) ++ .monitor true :: List.replicate 2 (.worker zeros))

theorem blocking_io_once_prints_later : CalledOnce (boot zeroKeys) printsLater 3 6 0 := by
  refine blocking_io_once.2 zeroKeys printsLater 3 6 0 (attempts_single (by decide) (by decide)
    (by decide) ?_ (calling_of_user (by decide +kernel)) (by decide +kernel) (by decide +kernel))
    ⟨by decide +kernel, ?_⟩
  · intro e he
    simp only [printsLater, List.mem_cons, List.mem_append, List.mem_replicate] at he
    rcases he with rfl | ⟨-, rfl⟩ | rfl | ⟨-, rfl⟩ <;> exact Event.noConfusion
  · intro k e hik hkn he hruns
    interval_cases k
    · exact absurd ⟨by decide +kernel, zeros, Option.some.inj he.symm⟩ hruns
    · decide +kernel
    · decide +kernel

/-- A program that puts its call among the seven words below its stack pointer. -/
def callInFrame : List Event :=
  .create (hostOf ("_start 1\n.N 6\n.P A\n17100000\n04000005\n05000080\n04100002\n27000080\n" ++
      "13000000\n") "") zeros ['a'] ::
    (List.replicate 7 (.worker zeros) ++ .monitor true :: List.replicate 2 (.worker zeros))

/-- A program whose call is overwritten, while it waits, by another program's transfer. -/
def callOverwritten : List Event :=
  let host := hostOf "_start 1\n.N 2\n.P A\n04100002\n13000000\n"
    "_start 1\n.N 5\n.P B\n32000004\n33000000\n06000000\n06000000\n10000084\n"
  .create host zeros ['a'] :: .create host zeros ['b'] ::
    (List.replicate 5 (.worker zeros) ++ .monitor true :: List.replicate 3 (.worker zeros))

/-- A call that prints nothing in its last attempt did not take effect. -/
theorem not_called_once {s : System} {es : List Event} {n i : Nat} {p : Int} {u : Unspecified}
    (he : es[n]? = some (.worker u))
    (h : (Trace.stateAt next s es n).kernel.currentActiveProcess = p ∧
      (Trace.stateAt next s es n).monitor.active = true ∧
      Unpreempted (Trace.stateAt next s es n).hw.interruptBitmap ∧
      wordToInt (Trace.stateAt next s es n).hw.cpu.ac = 2 ∧
      (Trace.stateAt next s es (n + 1)).monitor.printed = []) : ¬ CalledOnce s es i n p := by
  obtain ⟨hcur, hm, hp, hac, hprinted⟩ := h
  intro once
  have printed := ((once.served _ he ⟨hcur, u, rfl⟩ hm hp).print hac).2.2
  rw [hprinted] at printed
  exact absurd printed.symm (List.append_ne_nil_of_right_ne_nil _ (List.cons_ne_nil _ _))

/-- Neither the frame nor another program may overwrite the call: without that it is lost. -/
theorem not_blocking_io_once :
    (Attempts (boot zeroKeys) callInFrame 7 10 0 ∧
      ¬ CalledOnce (boot zeroKeys) callInFrame 7 10 0) ∧
    (Attempts (boot zeroKeys) callOverwritten 4 10 0 ∧
      ¬ CalledOnce (boot zeroKeys) callOverwritten 4 10 0) := by
  refine ⟨⟨attempts_single (by decide) (by decide) (by decide) ?_
    (calling_of_user (by decide +kernel)) (by decide +kernel) (by decide +kernel), ?_⟩,
    attempts_single (by decide) (by decide) (by decide) ?_
    (calling_of_user (by decide +kernel)) (by decide +kernel) (by decide +kernel), ?_⟩
  · intro e he
    simp only [callInFrame, List.mem_cons, List.mem_append, List.mem_replicate] at he
    rcases he with rfl | ⟨-, rfl⟩ | rfl | ⟨-, rfl⟩ <;> exact Event.noConfusion
  · exact not_called_once rfl (by decide +kernel)
  · intro e he
    simp only [callOverwritten, List.mem_cons, List.mem_append, List.mem_replicate] at he
    rcases he with rfl | rfl | ⟨-, rfl⟩ | rfl | ⟨-, rfl⟩ <;> exact Event.noConfusion
  · exact not_called_once rfl (by decide +kernel)

end Lucario.Proofs
