import Lucario.Proofs.Lifetime
import Lucario.Proofs.ServiceCall

namespace Lucario.Proofs

def PutsToSleep (s : System) (e : Event) (n : Int) : Prop :=
  ∃ u inst m w, executed s e = some (u, inst, m) ∧
    (afterInstruction u inst m).cpu.psw.interruptEnable = .enabled ∧
    (afterInstruction u inst m).interruptBitmap ≠ ∅ ∧
    codeToHandle (afterInstruction u inst m).interruptBitmap = .syscall ∧
    wordToInt (afterInstruction u inst m).cpu.ac = 4 ∧
    readMemory (afterInstruction u inst m).cpu.sp (afterInstruction u inst m) = .ok w ∧
    wordToInt w = n

def ticks (s : System) (es : List Event) (i j : Nat) : Nat :=
  Trace.count next s es (fun t e => (tickAt t e).isSome) i j

/-- The process `pid` sleeps in slot `p` for `n` more ticks. -/
structure Asleep (k : Kernel) (p pid n : Int) : Prop where
  slot : 0 ≤ p ∧ p < 20
  same : (k.processTable p).pid = pid
  state : (k.processTable p).state = .blocked
  left : (k.processTable p).sleepTics = n

def Awake (k : Kernel) (p pid : Int) : Prop :=
  (k.processTable p).pid = pid ∧ ((k.processTable p).state = .ready ∨
    (k.processTable p).state = .executing ∧ k.currentActiveProcess = p)

section

variable {s t : System} {p pid n : Int}

theorem Asleep.of_same_slot {k k' : Kernel} (h : Asleep k p pid n)
    (hslot : k'.processTable p = k.processTable p) : Asleep k' p pid n := by
  refine ⟨h.slot, ?_, ?_, ?_⟩
  · rw [hslot]
    exact h.same
  · rw [hslot]
    exact h.state
  · rw [hslot]
    exact h.left

/-- The loops of a tick count a sleeper down and wake it at 0. -/
theorem stirred_asleep {k : Pcb} (hstate : k.state = .blocked) (hleft : k.sleepTics = n)
    (hn : 1 ≤ n) : (stirred s k).pid = k.pid ∧
      (n = 1 → (stirred s k).state = .ready) ∧
      (n ≠ 1 → (stirred s k).state = .blocked ∧ (stirred s k).sleepTics = n - 1) := by
  have woken : wakeSleeper k = { k with
      sleepTics := n - 1, state := if n - 1 = 0 then .ready else .blocked } := by
    unfold wakeSleeper
    rw [if_pos ⟨hstate, by omega⟩, hleft]
    dsimp only
    split_ifs
    · rfl
    · rw [← hstate]
  have unblocked : unblockIo (wakeSleeper k) = wakeSleeper k := by
    unfold unblockIo
    rw [woken]
    split_ifs <;> simp_all
  have hstirred : stirred s k = wakeSleeper k := by
    unfold stirred
    rw [unblocked, ite_self]
  rw [hstirred, woken]
  refine ⟨rfl, ?_, ?_⟩
  · intro h
    simp [h]
  · intro h
    exact ⟨if_neg (by omega), rfl⟩

/-- Where the scan of a tick begins a sleeper has one tick less to go, whoever is being switched
out. -/
theorem before_scan_asleep (h : Asleep s.kernel p pid n) (hn : 1 ≤ n) :
    ((beforeScan s).processTable p).pid = pid ∧
      (n = 1 → ((beforeScan s).processTable p).state = .ready) ∧
      (n ≠ 1 → Asleep (beforeScan s) p pid (n - 1)) := by
  obtain ⟨hpid, hone, hmore⟩ := stirred_asleep (s := s) h.state h.left hn
  have hslot := before_scan_at s h.slot.1 h.slot.2
  have kept : ((beforeScan s).processTable p).pid = (stirred s (s.kernel.processTable p)).pid ∧
      ((stirred s (s.kernel.processTable p)).state ≠ .executing →
        ((beforeScan s).processTable p).state = (stirred s (s.kernel.processTable p)).state) ∧
      ((beforeScan s).processTable p).sleepTics =
        (stirred s (s.kernel.processTable p)).sleepTics := by
    rw [hslot]
    split_ifs
    · exact ⟨rfl, fun hne => if_neg hne, rfl⟩
    · exact ⟨rfl, fun _ => rfl, rfl⟩
  obtain ⟨kpid, kstate, kleft⟩ := kept
  refine ⟨by rw [kpid, hpid, h.same], ?_, ?_⟩
  · intro h1
    have hready := hone h1
    rw [kstate (by rw [hready]; decide), hready]
  · intro h1
    obtain ⟨hblocked, hcount⟩ := hmore h1
    refine ⟨h.slot, by rw [kpid, hpid, h.same], ?_, by rw [kleft, hcount]⟩
    rw [kstate (by rw [hblocked]; decide), hblocked]

/-- One tick brings a sleeper one step closer to the end of its sleep. -/
theorem tick_asleep (hc : ValidCurrent s.kernel.currentActiveProcess)
    (h : Asleep s.kernel p pid n) (hn : 1 ≤ n) :
    (n = 1 → Awake (schedulerTick s).kernel p pid) ∧
      (n ≠ 1 → Asleep (schedulerTick s).kernel p pid (n - 1)) := by
  obtain ⟨hpid, hone, hmore⟩ := before_scan_asleep h hn
  constructor
  · intro h1
    by_cases hd : dispatched s = p
    · refine ⟨?_, Or.inr ⟨(tick_dispatched hc h.slot.1 hd).1, hd⟩⟩
      rw [(dispatched_slot hc h.slot.1 hd).2, hpid]
    · have hslot := passed_slot hc hd
      rw [Awake, hslot]
      exact ⟨hpid, Or.inl (hone h1)⟩
  · intro h1
    have asleep := hmore h1
    refine asleep.of_same_slot (passed_slot hc ?_)
    intro hd
    have hready := (tick_dispatched hc h.slot.1 hd).2
    rw [asleep.state] at hready
    cases hready

/-- What the kernel makes of a sleep call with a positive argument. -/
theorem sleep_call (u : Unspecified) {w : Int} (hac : wordToInt s.hw.cpu.ac = 4)
    (hw : readMemory (s.hw.cpu.sp + 7) s.hw = .ok w) (hn : 1 ≤ wordToInt w) :
    handleSyscall u s = (.block, s.modifyProcess s.kernel.currentActiveProcess
      (fun p => { p with sleepTics := wordToInt w, state := .blocked })) := by
  have hneg : ¬ wordToInt w < 0 := by omega
  have hzero : wordToInt w ≠ 0 := by omega
  unfold handleSyscall
  simp only [hac, hw, if_neg hneg, if_neg hzero]

/-- The iteration in which a sleep call is handled ends in a tick, and that tick already finds the
caller asleep. -/
theorem sleep_ticks {e : Event} (hs : Scheduled s.kernel) (h : PutsToSleep s e n) (hn : 1 ≤ n) :
    ∃ t, tickAt s e = some t ∧
      t.kernel.currentActiveProcess = s.kernel.currentActiveProcess ∧
      Asleep t.kernel s.kernel.currentActiveProcess (runningPid s) n := by
  obtain ⟨u, inst, m, w, hx, henabled, hpending, hcode, hac, hread, hw⟩ := h
  obtain ⟨rfl, hc, hf⟩ := executed_worker hx
  have hslot : 0 ≤ s.kernel.currentActiveProcess ∧ s.kernel.currentActiveProcess < 20 :=
    hs.current.resolve_left hc
  have hstep := cpu_step_fetched u hf
  generalize afterInstruction u inst m = k at henabled hpending hcode hac hread hstep
  have hsp : Accessible k.cpu k.cpu.sp := by
    by_contra hno
    obtain ⟨status, herr⟩ := read_inaccessible hno
    rw [herr] at hread
    cases hread
  have hword : k.ram (translate k.cpu k.cpu.sp) = w := by
    rw [read_accessible hsp] at hread
    exact Except.ok.inj hread
  have called := sleep_call (s := entered { s with hw := k }) u
    (by rw [entered_accumulator]; exact hac)
    (entered_argument (s := { s with hw := k }) hsp) (by dsimp only; rw [hword, hw]; exact hn)
  dsimp only at called
  rw [hword, hw] at called
  have taken := check_interrupts_taken u (s := { s with hw := k }) hpending henabled
  dsimp only at taken
  rw [hcode, handleInterrupt, called] at taken
  rw [taken] at hstep
  refine ⟨(workerStep u s).2, ?_, ?_, ?_⟩
  · simp only [tickAt, workerStep, if_pos hc, hstep]
    rfl
  · simp only [workerStep, if_pos hc, hstep]
    rfl
  · simp only [workerStep, if_pos hc, hstep]
    refine ⟨hslot, ?_, ?_, ?_⟩ <;>
      simp [leave, System.setYield, System.modifyProcess, Kernel.modifyProcess, entered, runningPid]

/-- Whatever else happens, a sleeper is left alone until the next tick. -/
theorem next_asleep {e : Event} (hs : Scheduled s.kernel) (h : Asleep s.kernel p pid n)
    (he : e ≠ .restart) :
    (tickAt s e = none → Asleep (next s e).kernel p pid n) ∧
      ∀ t, tickAt s e = some t → Asleep t.kernel p pid n := by
  have hcur : s.kernel.currentActiveProcess ≠ p := by
    intro hcur
    have hstate := hs.running (hcur ▸ h.slot.1)
    rw [hcur, h.state] at hstate
    cases hstate
  constructor
  · intro hno
    cases e with
    | create host u progName =>
      have slots := (created_slots (create_process_created host u progName s)).2
      exact h.of_same_slot (slots p (by simp [h.state]))
    | worker u =>
      have worked := worker_step_worked u s
      rw [next_without_tick hno] at worked
      exact h.of_same_slot ((worked_slots worked).2 p hcur)
    | monitor active => exact h
    | restart => exact absurd rfl he
  · intro t ht
    exact h.of_same_slot ((worked_slots (tick_worked ht)).2 p hcur)

/-- After `c` ticks one more either leaves the sleeper blocked or is the last. -/
theorem tick_countdown {c : Nat} (hc : ValidCurrent s.kernel.currentActiveProcess)
    (h : Asleep s.kernel p pid (n - c)) (hlt : (c : Int) < n) :
    (((c + 1 : Nat) : Int) < n → Asleep (schedulerTick s).kernel p pid (n - (c + 1 : Nat))) ∧
      (((c + 1 : Nat) : Int) = n → Awake (schedulerTick s).kernel p pid) := by
  obtain ⟨hlast, hmore⟩ := tick_asleep hc h (by omega)
  push_cast
  constructor
  · intro hnext
    rw [← Int.sub_sub]
    exact hmore (by omega)
  · intro hend
    exact hlast (by omega)

end

/-- A sleep of `n` ticks: the tick that switches the caller out is the first of them, after each
one before the last it stays blocked with one less to go, and the last makes it ready again. -/
theorem exact_sleep (s : System) (es : List Event) (i : Nat) (e : Event) (n : Int)
    (he : es[i]? = some e) (hn : 1 ≤ n)
    (hcall : PutsToSleep (Trace.stateAt next (initOS s) es i) e n) (j : Nat) (hij : i < j)
    (hj : j ≤ es.length) (hrestart : ∀ k, i < k → k < j → es[k]? ≠ some .restart) :
    ((ticks (initOS s) es i j : Int) < n →
      Asleep (Trace.stateAt next (initOS s) es j).kernel
        (Trace.stateAt next (initOS s) es i).kernel.currentActiveProcess
        (runningPid (Trace.stateAt next (initOS s) es i)) (n - ticks (initOS s) es i j)) ∧
    ∀ k t, j = k + 1 → tickIn (initOS s) es k = some t → (ticks (initOS s) es i j : Int) = n →
      Awake (Trace.stateAt next (initOS s) es j).kernel
        (Trace.stateAt next (initOS s) es i).kernel.currentActiveProcess
        (runningPid (Trace.stateAt next (initOS s) es i)) := by
  generalize hp : (Trace.stateAt next (initOS s) es i).kernel.currentActiveProcess = p
  generalize hpid : runningPid (Trace.stateAt next (initOS s) es i) = pid
  refine Trace.stateAt_window_index (fun (k : Nat) (t : System) => ((ticks (initOS s) es i k : Int) < n →
    Asleep t.kernel p pid (n - ticks (initOS s) es i k)) ∧
    ∀ k' t', k = k' + 1 → tickIn (initOS s) es k' = some t' →
      (ticks (initOS s) es i k : Int) = n → Awake t.kernel p pid)
    (by omega : i + 1 ≤ j) hj ?_ ?_
  · obtain ⟨t, ht, hcur, hasleep⟩ := sleep_ticks (state_at_scheduled s es i) hcall hn
    have hone : ticks (initOS s) es i (i + 1) = 0 + 1 := by
      rw [ticks, Trace.count_succ _ _ _ _ le_rfl he, Trace.count_self, ht]
      rfl
    have hvalid : ValidCurrent t.kernel.currentActiveProcess := by
      rw [hcur]
      exact (state_at_scheduled s es i).current
    rw [hp, hpid, ← Int.sub_zero n] at hasleep
    obtain ⟨hmore, hlast⟩ := tick_countdown (c := 0) hvalid hasleep (by push_cast; omega)
    rw [Trace.stateAt_succ he, next_of_tick ht, hone]
    exact ⟨hmore, fun _ _ _ _ => hlast⟩
  · intro k d hik hkj hd hk
    have hrest : d ≠ .restart := by
      rintro rfl
      exact hrestart k (by omega) hkj hd
    have hscheduled := state_at_scheduled s es k
    cases htick : tickAt (Trace.stateAt next (initOS s) es k) d with
    | none =>
      have hsame : ticks (initOS s) es i (k + 1) = ticks (initOS s) es i k := by
        rw [ticks, Trace.count_succ _ _ _ _ (by omega) hd, htick]
        rfl
      rw [hsame]
      refine ⟨fun hlt => (next_asleep hscheduled (hk.1 hlt) hrest).1 htick, ?_⟩
      intro k' t' hk' htick'
      obtain rfl : k = k' := by omega
      simp [tickIn, hd, htick] at htick'
    | some t =>
      have hsucc : ticks (initOS s) es i (k + 1) = ticks (initOS s) es i k + 1 := by
        rw [ticks, Trace.count_succ _ _ _ _ (by omega) hd, htick]
        rfl
      have hvalid : ValidCurrent t.kernel.currentActiveProcess :=
        (worked_at_tick hscheduled (tick_worked htick)).1.current
      have countdown : (ticks (initOS s) es i k : Int) < n → _ := fun hlt =>
        tick_countdown hvalid ((next_asleep hscheduled (hk.1 hlt) hrest).2 t htick) hlt
      rw [next_of_tick htick, hsucc]
      push_cast at countdown ⊢
      exact ⟨fun hlt => (countdown (by omega)).1 hlt,
        fun _ _ _ _ hend => (countdown (by omega)).2 hend⟩

def sleeper : List Event :=
  session "_start 1\n.N 4\n.P A\n04100002\n25000000\n04100004\n13000000\n"
    "_start 1\n.N 3\n.P B\n06000000\n06000000\n06000000\n" 7

/-- What is to be checked of a sleep call. -/
theorem puts_to_sleep {s : System} {e : Event} {n : Int}
    (h : (executed s e).map (fun x => (afterInstruction x.1 x.2.1 x.2.2).cpu.psw.interruptEnable) =
        some .enabled ∧
      (executed s e).map (fun x =>
        codeToHandle (afterInstruction x.1 x.2.1 x.2.2).interruptBitmap) = some .syscall ∧
      (executed s e).map (fun x => wordToInt (afterInstruction x.1 x.2.1 x.2.2).cpu.ac) = some 4 ∧
      (executed s e).map (fun x => ((readMemory (afterInstruction x.1 x.2.1 x.2.2).cpu.sp
        (afterInstruction x.1 x.2.1 x.2.2)).toOption.map wordToInt)) = some (some n)) :
    PutsToSleep s e n := by
  cases hx : executed s e with
  | none =>
    rw [hx] at h
    cases h.1
  | some x =>
    obtain ⟨u, inst, m⟩ := x
    rw [hx] at h
    simp only [Option.map_some, Option.some.injEq] at h
    obtain ⟨he, hcode, hac, hread⟩ := h
    refine ⟨u, inst, m, ?_⟩
    cases hw : readMemory (afterInstruction u inst m).cpu.sp (afterInstruction u inst m) with
    | error status =>
      rw [hw] at hread
      cases hread
    | ok w =>
      rw [hw] at hread
      refine ⟨w, hx, he, ?_, hcode, hac, rfl, Option.some.inj hread⟩
      intro hempty
      rw [hempty] at hcode
      exact absurd hcode (by decide)

theorem exact_sleep_sleeper :
    Asleep (Trace.stateAt next (boot zeroKeys) sleeper 9).kernel 0 1 1 := by
  have call : PutsToSleep (Trace.stateAt next (boot zeroKeys) sleeper 8) (.worker zeros) 2 :=
    puts_to_sleep (by decide +kernel)
  have first : ticks (boot zeroKeys) sleeper 8 9 = 1 ∧
      (Trace.stateAt next (boot zeroKeys) sleeper 8).kernel.currentActiveProcess = 0 ∧
      runningPid (Trace.stateAt next (boot zeroKeys) sleeper 8) = 1 := by decide +kernel
  obtain ⟨hone, hcur, hpid⟩ := first
  have asleep := (exact_sleep (powerOn zeroKeys) sleeper 8 (.worker zeros) 2 rfl (by decide) call 9
    (by decide) (by decide) (fun k _ _ => by omega)).1
  rw [← boot] at asleep
  rw [hone, hcur, hpid] at asleep
  exact asleep (by decide)

end Lucario.Proofs
