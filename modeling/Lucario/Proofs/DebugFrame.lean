import Lucario.Proofs.DebugRuns
import Lucario.Proofs.Protection
import Lucario.Proofs.Sessions
import Lucario.Proofs.Stores
import Lucario.Proofs.TableIndex

namespace Lucario.Proofs

open Footprint

/-- The last address of the memory a debugged program is given, counted from `osReservedSize` on,
whatever the partitions say. -/
def debugLimit (host : Host) (argument : List Char) : Option Int :=
  if argument = [] then none
  else
    match host argument with
    | none => none
    | some file =>
      let wordCount := (programInfo file).1.wordCount
      if ramSize < osReservedSize + minStackSize + wordCount then none
      else some (osReservedSize + stackMemory wordCount + wordCount)

def Occupied (k : Kernel) (b : Int) : Prop :=
  0 ≤ b ∧ b < maxProcesses ∧ k.freePartitions b = false

instance (k : Kernel) (b : Int) : Decidable (Occupied k b) := inferInstanceAs (Decidable (_ ∧ _))

theorem occupied_above {k : Kernel} {limit : Int}
    (h : ∀ n ∈ List.range 20, k.freePartitions n = false → limit < getBaseRegister n) {b : Int}
    (hb : Occupied k b) : limit < getBaseRegister b := by
  obtain ⟨n, rfl⟩ := Int.eq_ofNat_of_zero_le hb.1
  have hn := hb.2.1
  simp only [maxProcesses] at hn
  exact h n (List.mem_range.mpr (by omega)) hb.2.2

def InBlock (b a : Int) : Prop := getBaseRegister b ≤ a ∧ a < getBaseRegister b + partitionSize

/-- The event with index `i` opens the debugger, and up to index `j` nothing but debugger commands
follows. -/
structure DebugWindow (keyboard : Nat → Int) (es : List ConsoleEvent) (i j : Nat) : Prop where
  opened : ∃ host argument, es[i]? = some (.debug host argument)
  prompt : (Trace.stateAt consoleNext (consoleBoot keyboard) es i).debugging = false
  after : i < j
  within : j ≤ es.length
  commands : ∀ k e, i < k → k < j → es[k]? = some e → (∃ u, e = .step u) ∨ e = .quit

def BlockUndisturbed (b : Int) (s t : System) : Prop := ∀ a, InBlock b a → t.hw.ram a = s.hw.ram a

def MemoryUndisturbed (s t : System) : Prop := ∀ b, Occupied s.kernel b → BlockUndisturbed b s t

def RegistersUndisturbed (s t : System) : Prop :=
  ∀ p, Live s.kernel p → registers t p = registers s p

/-- The step executes nothing that frees the program and no transfer into partition `b`, is not
interrupted without room for the saved base register, and makes no call by the running process when
there is none. -/
def StaysOff (b : Int) (c : Console) : ConsoleEvent → Prop
  | .step u => c.debugging = true →
    (∀ inst m, fetched c.system.hw = some (inst, m) →
      ¬ Elevates inst ∧
      (inst.opCode = .sdmaon → m.dma.ioDirection ≠ 1 → ¬ InBlock b m.dma.memAddr) ∧
      (TakesInterrupt (afterInstruction u inst m) → 3 ≤ (afterInstruction u inst m).cpu.sp)) ∧
    (c.system.kernel.currentActiveProcess = -1 → ¬ CallsThroughSlot u c.system)
  | _ => True

section

variable {m : Machine}

/-- The loader stores the words of the program from `osReservedSize` on. -/
theorem load_words_stores (count : Nat) (i : Int) (file : List Char) (m : Machine)
    (hm : m.cpu.psw.mode = .kernel) :
    Changes (fun x _ => osReservedSize + i ≤ x ∧ x < osReservedSize + i + count) m.ram
      (loadWords count i file m).2.ram := by
  induction count generalizing i file m with
  | zero => exact Changes.refl _
  | succ count ih =>
    rw [loadWords]
    dsimp only
    generalize (readProgramWord file).1 = w
    generalize (readProgramWord file).2 = rest
    by_cases h : Accessible m.cpu (osReservedSize + i) ∧ isValidInstruction w
    · rw [write_accessible h.1 h.2]
      have htranslate : translate m.cpu (osReservedSize + i) = osReservedSize + i := if_pos hm
      have first : Changes (fun x _ => osReservedSize + i ≤ x ∧
          x < osReservedSize + i + (count + 1 : Nat)) m.ram
          (storeRam (translate m.cpu (osReservedSize + i)) w m).ram := by
        refine Changes.update ?_
        rw [htranslate]
        omega
      have others := ih (i + 1) rest (storeRam (translate m.cpu (osReservedSize + i)) w m) hm
      refine first.trans (others.mono ?_)
      intro x _ hx
      omega
    · obtain ⟨status, hs⟩ := write_refused h
      rw [hs]
      exact Changes.refl _

/-- Opening the debugger changes memory up to the limit of the debugged program, which it starts
in user mode within its bounds. -/
theorem start_debugging_effect (host : Host) (argument : List Char) (s : System) :
    Changes (fun x _ => ∃ limit, debugLimit host argument = some limit ∧ x ≤ limit) s.hw.ram
        (startDebugging host argument s).2.hw.ram ∧
      ((startDebugging host argument s).1 = true →
        ∃ limit, debugLimit host argument = some limit ∧
          Enclosed 300 limit (startDebugging host argument s).2.hw.cpu) := by
  unfold startDebugging debugLimit
  by_cases harg : argument = []
  · simp only [harg, if_true]
    exact ⟨Changes.refl _, fun h => by cases h⟩
  · simp only [harg, if_false]
    unfold loadProgram
    cases host argument with
    | none => exact ⟨Changes.refl _, fun h => by cases h⟩
    | some file =>
      dsimp only
      generalize programInfo file = r
      obtain ⟨header, rest⟩ := r
      dsimp only
      split_ifs with hbig
      · exact ⟨Changes.refl _, fun h => by cases h⟩
      · have stores := load_words_stores header.wordCount.toNat 0 rest
          { cpuReset s.hw with cpu := { (cpuReset s.hw).cpu with psw.mode := .kernel } } rfl
        have below : Changes (fun x _ => ∃ limit, some (osReservedSize +
            stackMemory header.wordCount + header.wordCount) = some limit ∧ x ≤ limit) s.hw.ram
            (loadWords header.wordCount.toNat 0 rest { cpuReset s.hw with
              cpu := { (cpuReset s.hw).cpu with psw.mode := .kernel } }).2.ram := by
          refine stores.mono ?_
          intro x _ hx
          refine ⟨_, rfl, ?_⟩
          rw [stack_memory_eq]
          simp only [osReservedSize, minStackSize, ramSize] at hx hbig ⊢
          omega
        generalize loadWords header.wordCount.toNat 0 rest { cpuReset s.hw with
          cpu := { (cpuReset s.hw).cpu with psw.mode := .kernel } } = r at below ⊢
        obtain ⟨status, n⟩ := r
        cases status with
        | success =>
          refine ⟨below, fun _ => ⟨_, rfl, ⟨rfl, rfl, rfl⟩, ?_⟩⟩
          simp only [startRegisters, osReservedSize]
          omega
        | fileError => exact ⟨below, fun h => by cases h⟩
        | memoryError => exact ⟨below, fun h => by cases h⟩

theorem stored_below {limit : Int} {c : Cpu} {a v x w : Int} (hc : InPartition 300 limit c)
    (h : StoredAt c a v x w) : x ≤ limit := by
  obtain ⟨ha, -, hx, -⟩ := h
  rw [hx]
  exact (translate_inside hc ha).2

/-- A debugger step of a program that stays within its bounds stores nothing into a partition above
them and goes on within them. -/
theorem debug_step_off (u : Unspecified) {s : System} {limit b : Int}
    (h : Enclosed 300 limit s.hw.cpu) (hlimit : limit < 2000) (hb : limit < getBaseRegister b)
    (hstay : ∀ inst m, fetched s.hw = some (inst, m) → ¬ Elevates inst ∧
      (inst.opCode = .sdmaon → m.dma.ioDirection ≠ 1 → ¬ InBlock b m.dma.memAddr) ∧
      (TakesInterrupt (afterInstruction u inst m) → 3 ≤ (afterInstruction u inst m).cpu.sp)) :
    Changes (fun x _ => ¬ InBlock b x) s.hw.ram (cpuStep u s).2.hw.ram ∧
      ((cpuStep u s).1 = true → Enclosed 300 limit (cpuStep u s).2.hw.cpu) := by
  have outside : ∀ {x : Int}, x ≤ limit → ¬ InBlock b x := fun hx hin => by
    have := hin.1
    omega
  constructor
  · refine cpu_step_stores u s ?_
    intro inst m hf
    obtain ⟨helev, hdma, -⟩ := hstay inst m hf
    obtain ⟨w, -, -, hm, -⟩ := fetched_machine hf
    have running : Enclosed 300 limit m.cpu := by
      rw [hm]
      exact h
    have executed := after_instruction_enclosed (u := u) running helev
    constructor
    · rintro x w (⟨a, hs⟩ | ⟨hop, hdir, rfl, -⟩)
      · exact outside (stored_below running.1 hs)
      · exact hdma hop hdir
    · rintro - x w (⟨i, hi, hs⟩ | ⟨k, v, -, hs⟩)
      · exact outside (stored_below executed.1 hs)
      · exact outside (stored_below executed.1 hs)
  · intro hs
    have nonempty : 300 ≤ limit := by
      cases hf : fetched s.hw with
      | none =>
        rw [cpu_step_unfetched u hf] at hs
        cases hs
      | some x =>
        obtain ⟨w, -, ha, -⟩ := fetched_machine hf
        have := translate_inside h.1 ha
        exact this.1.trans this.2
    refine cpu_step_enclosed u h (by norm_num) nonempty hlimit hs ?_
    intro inst m hf
    obtain ⟨helev, -, hroom⟩ := hstay inst m hf
    exact ⟨helev, fun hp he => hroom ⟨hp, he⟩⟩

structure Beside (b limit : Int) (s : System) (c : Console) : Prop where
  memory : BlockUndisturbed b s c.system
  bounds : c.debugging = true → Enclosed 300 limit c.system.hw.cpu

theorem console_next_beside {limit b : Int} {s : System} {c : Console} {e : ConsoleEvent}
    (h : Beside b limit s c) (hlimit : limit < 2000) (hb : limit < getBaseRegister b)
    (he : (∃ u, e = .step u) ∨ e = .quit) (hstay : StaysOff b c e) :
    Beside b limit s (consoleNext c e) := by
  obtain ⟨t, debugging⟩ := c
  rcases he with ⟨u, rfl⟩ | rfl
  · cases debugging with
    | false => exact h
    | true =>
      obtain ⟨stores, bounds⟩ := debug_step_off u (h.bounds rfl) hlimit hb (hstay rfl).1
      refine ⟨?_, bounds⟩
      intro a ha
      exact (stores.frame (fun _ => not_not.mpr ha)).trans (h.memory a ha)
  · exact ⟨h.memory, fun hd => by cases hd⟩

end

variable {keyboard : Nat → Int} {es : List ConsoleEvent} {i j : Nat}

section

variable {host : Host} {argument : List Char}

theorem debug_opened (h : DebugWindow keyboard es i j)
    (he : es[i]? = some (.debug host argument)) :
    Trace.stateAt consoleNext (consoleBoot keyboard) es (i + 1) =
      ⟨(startDebugging host argument
          (Trace.stateAt consoleNext (consoleBoot keyboard) es i).system).2,
        (startDebugging host argument
          (Trace.stateAt consoleNext (consoleBoot keyboard) es i).system).1⟩ := by
  have hprompt := h.prompt
  rw [Trace.stateAt_succ he]
  simp only [consoleNext, hprompt, Bool.false_eq_true, if_false]

/-- Where no memory is given the debugger never gets to its prompt, and its commands fall on the
console's. -/
theorem debug_refused (h : DebugWindow keyboard es i j)
    (he : es[i]? = some (.debug host argument)) (hlimit : debugLimit host argument = none) :
    (Trace.stateAt consoleNext (consoleBoot keyboard) es j).system.hw.ram =
      (Trace.stateAt consoleNext (consoleBoot keyboard) es i).system.hw.ram := by
  have hcommands := h.commands
  have hopened := debug_opened h he
  generalize Trace.stateAt consoleNext (consoleBoot keyboard) es i = c at hopened ⊢
  obtain ⟨stores, starts⟩ := start_debugging_effect host argument c.system
  have unchanged : (Trace.stateAt consoleNext (consoleBoot keyboard) es j).debugging = false ∧
      (Trace.stateAt consoleNext (consoleBoot keyboard) es j).system.hw.ram = c.system.hw.ram := by
    refine Trace.stateAt_window
      (fun d : Console => d.debugging = false ∧ d.system.hw.ram = c.system.hw.ram) (i := i + 1)
      h.after h.within ?_ ?_
    · rw [hopened]
      constructor
      · dsimp only
        by_contra hd
        obtain ⟨limit, hsome, -⟩ := starts (by simpa using hd)
        rw [hlimit] at hsome
        cases hsome
      · funext x
        refine stores.frame ?_
        rintro w ⟨limit, hsome, -⟩
        rw [hlimit] at hsome
        cases hsome
    · intro k e hk hkj hek hd
      rcases hcommands k e (by omega) hkj hek with ⟨u, rfl⟩ | rfl
      · simp only [consoleNext, hd.1, Bool.false_eq_true, if_false]
        exact ⟨trivial, hd.2⟩
      · exact ⟨rfl, hd.2⟩
  exact unchanged.2

/-- A debugging session changes no word of an occupied partition above its memory. -/
theorem debug_memory (h : DebugWindow keyboard es i j)
    (he : es[i]? = some (.debug host argument)) {limit b : Int}
    (hlimit : debugLimit host argument = some limit)
    (hb : Occupied (Trace.stateAt consoleNext (consoleBoot keyboard) es i).system.kernel b)
    (hlow : limit < getBaseRegister b)
    (hstay : ∀ k e, i < k → k < j → es[k]? = some e →
      StaysOff b (Trace.stateAt consoleNext (consoleBoot keyboard) es k) e) :
    BlockUndisturbed b (Trace.stateAt consoleNext (consoleBoot keyboard) es i).system
      (Trace.stateAt consoleNext (consoleBoot keyboard) es j).system := by
  have hcommands := h.commands
  have hopened := debug_opened h he
  generalize Trace.stateAt consoleNext (consoleBoot keyboard) es i = c at hb hopened ⊢
  obtain ⟨stores, starts⟩ := start_debugging_effect host argument c.system
  have hblock : limit < 2000 := by
    have hsize : partitionSize = 85 := by decide
    have hb20 := hb.2.1
    simp only [getBaseRegister, osReservedSize, hsize, maxProcesses] at hlow hb20
    omega
  have given : ∀ {l}, debugLimit host argument = some l → l = limit := by
    intro l hl
    exact Option.some.inj (hl.symm.trans hlimit)
  have beside : Beside b limit c.system
      (Trace.stateAt consoleNext (consoleBoot keyboard) es j) := by
    refine Trace.stateAt_window (Beside b limit c.system) (i := i + 1) h.after h.within ?_ ?_
    · rw [hopened]
      constructor
      · intro x hx
        refine stores.frame ?_
        rintro w ⟨l, hsome, hle⟩
        have hl := given hsome
        have hbase := hx.1
        omega
      · intro hd
        obtain ⟨l, hsome, henclosed⟩ := starts hd
        rw [given hsome] at henclosed
        exact henclosed
    · intro k e hk hkj hek hd
      exact console_next_beside hd hblock hlow (hcommands k e (by omega) hkj hek)
        (hstay k e (by omega) hkj hek)
  exact beside.memory

end

def consoleTick (c : Console) : ConsoleEvent → Option System
  | .kernel (.worker u) => tickAt c.system (.worker u)
  | _ => none

theorem console_tick_kernel (c : Console) (e : Event) :
    consoleTick c (.kernel e) = tickAt c.system e := by
  cases e <;> rfl

/-- Only the worker thread ticks. -/
theorem console_tick_event {c : Console} {e : ConsoleEvent} {r : System}
    (h : consoleTick c e = some r) : ∃ u, e = .kernel (.worker u) := by
  cases e with
  | kernel e =>
    cases e with
    | worker u => exact ⟨u, rfl⟩
    | create | monitor | restart => cases h
  | debug | step | quit => cases h

theorem console_next_of_tick {c : Console} {e : ConsoleEvent} {r : System}
    (h : consoleTick c e = some r) : (consoleNext c e).system = schedulerTick r := by
  obtain ⟨u, rfl⟩ := console_tick_event h
  exact next_of_tick (e := .worker u) h

theorem console_tick_worked {c : Console} {e : ConsoleEvent} {r : System}
    (h : consoleTick c e = some r) : Worked c.system (true, r) := by
  obtain ⟨u, rfl⟩ := console_tick_event h
  exact tick_worked (e := .worker u) h

/-- No restart, and no call by the running process made in the debugger when there is none. -/
def KeepsProcesses (c : Console) : ConsoleEvent → Prop
  | .kernel .restart => False
  | .step u => c.debugging = true → c.system.kernel.currentActiveProcess = -1 →
    ¬ CallsThroughSlot u c.system
  | _ => True

/-- A waiting process is out of reach of the debugger as it is of the other processes. -/
theorem console_next_parked {c : Console} {e : ConsoleEvent} {p pid : Int} {cpu : Cpu}
    (hc : ValidCurrent c.system.kernel.currentActiveProcess)
    (h : Parked c.system.kernel p pid cpu) (hkeeps : KeepsProcesses c e)
    (hd : ∀ t, consoleTick c e = some t → dispatched t ≠ p) :
    Parked (consoleNext c e).system.kernel p pid cpu := by
  have step := console_next_step c e
  generalize consoleNext c e = d at step ⊢
  cases step with
  | ignored => exact h
  | closed => exact h
  | kernel e =>
    rw [console_tick_kernel] at hd
    refine next_parked hc h ?_ hd
    rintro rfl
    exact hkeeps
  | opened host argument =>
    obtain ⟨cpu, ram, hs⟩ := start_debugging_machine host argument c.system
    rw [hs]
    exact h
  | stepped u =>
    have stepped := cpu_step_stepped u c.system
    generalize cpuStep u c.system = r at stepped ⊢
    cases stepped with
    | plain => exact h
    | yielded => exact h.of_same_slot rfl rfl
    | blocked hw f hf => exact h.of_same_slot rfl (Function.update_of_ne h.waiting _ _)

/-- The first tick after `i` to dispatch the slot `p` is that of event `n`, made in `r`. -/
structure NextDispatch (keyboard : Nat → Int) (es : List ConsoleEvent) (i : Nat) (p : Int)
    (n : Nat) (r : System) : Prop where
  after : i < n
  tick : ∃ e, es[n]? = some e ∧
    consoleTick (Trace.stateAt consoleNext (consoleBoot keyboard) es n) e = some r
  slot : dispatched r = p
  first : ∀ k e q, i < k → k < n → es[k]? = some e →
    consoleTick (Trace.stateAt consoleNext (consoleBoot keyboard) es k) e = some q →
    dispatched q ≠ p

/-- A process that waits when the debugger is opened waits on with the registers it had, however
often the debugger is used, until it is dispatched. -/
theorem debug_parked {host : Host} {argument : List Char}
    (he : es[i]? = some (.debug host argument)) {p : Int} {n : Nat} (hin : i ≤ n)
    (hn : n ≤ es.length)
    (hlive : Live (Trace.stateAt consoleNext (consoleBoot keyboard) es i).system.kernel p)
    (hwaits : p ≠ (Trace.stateAt consoleNext
      (consoleBoot keyboard) es i).system.kernel.currentActiveProcess)
    (hkeeps : ∀ k e, i < k → k < n → es[k]? = some e →
      KeepsProcesses (Trace.stateAt consoleNext (consoleBoot keyboard) es k) e ∧
      ∀ q, consoleTick (Trace.stateAt consoleNext (consoleBoot keyboard) es k) e = some q →
        dispatched q ≠ p) :
    Parked (Trace.stateAt consoleNext (consoleBoot keyboard) es n).system.kernel p
      ((Trace.stateAt consoleNext (consoleBoot keyboard) es i).system.kernel.processTable p).pid
      (registers (Trace.stateAt consoleNext (consoleBoot keyboard) es i).system p) := by
  have parked : Parked (Trace.stateAt consoleNext (consoleBoot keyboard) es i).system.kernel p
      ((Trace.stateAt consoleNext (consoleBoot keyboard) es i).system.kernel.processTable p).pid
      (registers (Trace.stateAt consoleNext (consoleBoot keyboard) es i).system p) :=
    ⟨⟨hlive.1, hlive.2.1⟩, hwaits, hlive.2.2, rfl, (registers_waiting (Ne.symm hwaits)).symm⟩
  refine Trace.stateAt_window (fun c : Console => Parked c.system.kernel p _ _) hin hn parked ?_
  intro k d hik hkn hd hk
  have current := console_current keyboard es k
  by_cases hki : k = i
  · subst hki
    obtain rfl : d = .debug host argument := Option.some.inj (hd.symm.trans he)
    exact console_next_parked current hk trivial (fun t ht => by cases ht)
  · obtain ⟨keeps, passed⟩ := hkeeps k d (by omega) hkn hd
    exact console_next_parked current hk keeps passed

/-- The debugger works on memory and registers of its own making. A session leaves an occupied
partition alone if that lies above the memory it is given and the program does not get there, and
every process that does not run when it is opened has its registers afterwards and continues with
them. -/
theorem debugger_frame (h : DebugWindow keyboard es i j) (host : Host) (argument : List Char)
    (he : es[i]? = some (.debug host argument)) :
    (debugLimit host argument = none →
      (Trace.stateAt consoleNext (consoleBoot keyboard) es j).system.hw.ram =
        (Trace.stateAt consoleNext (consoleBoot keyboard) es i).system.hw.ram) ∧
    (∀ limit, debugLimit host argument = some limit →
      ∀ b, Occupied (Trace.stateAt consoleNext (consoleBoot keyboard) es i).system.kernel b →
      limit < getBaseRegister b →
      (∀ k e, i < k → k < j → es[k]? = some e →
        StaysOff b (Trace.stateAt consoleNext (consoleBoot keyboard) es k) e) →
      BlockUndisturbed b (Trace.stateAt consoleNext (consoleBoot keyboard) es i).system
        (Trace.stateAt consoleNext (consoleBoot keyboard) es j).system) ∧
    ∀ p, Live (Trace.stateAt consoleNext (consoleBoot keyboard) es i).system.kernel p →
      p ≠ (Trace.stateAt consoleNext
        (consoleBoot keyboard) es i).system.kernel.currentActiveProcess →
      ((∀ k e, i < k → k < j → es[k]? = some e →
          KeepsProcesses (Trace.stateAt consoleNext (consoleBoot keyboard) es k) e) →
        Live (Trace.stateAt consoleNext (consoleBoot keyboard) es j).system.kernel p ∧
        registers (Trace.stateAt consoleNext (consoleBoot keyboard) es j).system p =
          registers (Trace.stateAt consoleNext (consoleBoot keyboard) es i).system p) ∧
      ∀ n r, NextDispatch keyboard es i p n r →
        (∀ k e, i < k → k < n → es[k]? = some e →
          KeepsProcesses (Trace.stateAt consoleNext (consoleBoot keyboard) es k) e) →
        (schedulerTick r).hw.cpu =
          registers (Trace.stateAt consoleNext (consoleBoot keyboard) es i).system p := by
  refine ⟨debug_refused h he,
    fun limit hlimit b hb hlow hstay => debug_memory h he hlimit hb hlow hstay, ?_⟩
  intro p hlive hwaits
  constructor
  · intro hkeeps
    have parked := debug_parked he h.after.le h.within hlive hwaits (by
      intro k e hik hkj hek
      refine ⟨hkeeps k e hik hkj hek, ?_⟩
      intro q hq
      rcases h.commands k e hik hkj hek with ⟨u, rfl⟩ | rfl <;> cases hq)
    refine ⟨⟨hlive.1, hlive.2.1, parked.live⟩, ?_⟩
    rw [registers_waiting (Ne.symm parked.waiting)]
    exact parked.context
  · intro n r hnext hkeeps
    obtain ⟨e, hen, htick⟩ := hnext.tick
    have hn : n < es.length := (List.getElem?_eq_some_iff.mp hen).1
    have parked := debug_parked he hnext.after.le hn.le hlive hwaits
      (fun k d hik hkn hd => ⟨hkeeps k d hik hkn hd, fun q => hnext.first k d q hik hkn hd⟩)
    have worked := console_tick_worked htick
    have waits := before_scan_parked (worked_parked worked parked)
    have hcurrent : ValidCurrent r.kernel.currentActiveProcess :=
      (worked_slots worked).1.symm ▸ console_current keyboard es n
    rw [(dispatched_slot hcurrent hlive.1 hnext.slot).1]
    exact waits.context

/-- A program too long for one partition, which dies at its first instruction, and one that exits
at its second. -/
def deadFirst : Host :=
  hostOf "_start 1\n.N 100\n.P A\n99000000\n" "_start 1\n.N 2\n.P B\n04100001\n13000000\n"

/-- The long program has died below two processes of the other when that is debugged. -/
def apart : List ConsoleEvent :=
  [.kernel (.create deadFirst zeros ['a']), .kernel (.create deadFirst zeros ['b']),
    .kernel (.create deadFirst zeros ['b']), .kernel (.worker zeros), .kernel (.worker zeros),
    .debug deadFirst ['b'], .step zeros, .kernel (.worker zeros)]

theorem debugger_frame_apart :
    MemoryUndisturbed (Trace.stateAt consoleNext (consoleBoot zeroKeys) apart 5).system
      (Trace.stateAt consoleNext (consoleBoot zeroKeys) apart 7).system ∧
    registers (Trace.stateAt consoleNext (consoleBoot zeroKeys) apart 7).system 2 =
      registers (Trace.stateAt consoleNext (consoleBoot zeroKeys) apart 5).system 2 ∧
    (Trace.stateAt consoleNext (consoleBoot zeroKeys) apart 8).system.hw.cpu =
      registers (Trace.stateAt consoleNext (consoleBoot zeroKeys) apart 5).system 2 := by
  have commands : ∀ k e, 5 < k → k < 7 → apart[k]? = some e → k = 6 ∧ e = .step zeros := by
    intro k e hk hkj he
    obtain rfl : k = 6 := by omega
    exact ⟨rfl, (Option.some.inj he).symm⟩
  have window : DebugWindow zeroKeys apart 5 7 := by
    refine ⟨⟨deadFirst, ['b'], rfl⟩, by decide +kernel, by decide, by decide, ?_⟩
    intro k e hk hkj he
    exact Or.inl ⟨zeros, (commands k e hk hkj he).2⟩
  have keeps : ∀ k e, 5 < k → k < 7 → apart[k]? = some e →
      KeepsProcesses (Trace.stateAt consoleNext (consoleBoot zeroKeys) apart k) e := by
    intro k e hk hkj he
    obtain ⟨rfl, rfl⟩ := commands k e hk hkj he
    have running : (Trace.stateAt consoleNext (consoleBoot zeroKeys)
        apart 6).system.kernel.currentActiveProcess = 1 := by decide +kernel
    intro _ hidle
    rw [running] at hidle
    cases hidle
  obtain ⟨-, memory, processes⟩ := debugger_frame window deadFirst ['b'] rfl
  obtain ⟨closing, dispatch⟩ := processes 2 (by decide +kernel) (by decide +kernel)
  refine ⟨?_, (closing keeps).2, ?_⟩
  · intro b hb
    refine memory 402 (by decide +kernel) b hb (occupied_above (by decide +kernel) hb) ?_
    · intro k e hk hkj he
      obtain ⟨rfl, rfl⟩ := commands k e hk hkj he
      intro _
      refine ⟨?_, keeps 6 (.step zeros) hk hkj rfl ‹_›⟩
      intro inst m hf
      have load : (fetched (Trace.stateAt consoleNext (consoleBoot zeroKeys) apart 6).system.hw).map
          (fun x => (x.1.opCode, (afterInstruction zeros x.1 x.2).cpu.sp)) = some (.load, 102) := by
        decide +kernel
      rw [hf] at load
      obtain ⟨hop, hsp⟩ := Prod.mk.inj (Option.some.inj load)
      dsimp only at hop hsp
      rw [Elevates, hop, hsp]
      exact ⟨by simp, by simp, by simp⟩
  · have exits : (workerStep zeros (Trace.stateAt consoleNext
        (consoleBoot zeroKeys) apart 7).system).1 = true := by decide +kernel
    have tick : consoleTick (Trace.stateAt consoleNext (consoleBoot zeroKeys) apart 7)
        (.kernel (.worker zeros)) = some (workerStep zeros (Trace.stateAt consoleNext
          (consoleBoot zeroKeys) apart 7).system).2 := by
      simp only [consoleTick, tickAt, exits, if_true]
    have dispatched_second : (Trace.stateAt consoleNext (consoleBoot zeroKeys) apart 8).system =
        schedulerTick (workerStep zeros (Trace.stateAt consoleNext
          (consoleBoot zeroKeys) apart 7).system).2 := by
      have last : apart[7]? = some (.kernel (.worker zeros)) := rfl
      rw [Trace.stateAt_succ last]
      exact console_next_of_tick tick
    rw [dispatched_second]
    refine dispatch 7 _ ⟨by decide, ⟨_, rfl, tick⟩, by decide +kernel, ?_⟩ keeps
    intro k e q hk hkj he hq
    obtain ⟨rfl, rfl⟩ := commands k e hk hkj he
    cases hq

def overlaid : List ConsoleEvent :=
  [.kernel (.create (hostOf "_start 1\n.N 1\n.P A\n06000000\n" "_start 1\n.N 1\n.P B\n08000000\n")
      zeros ['a']), .kernel (.worker zeros),
    .debug (hostOf "_start 1\n.N 1\n.P A\n06000000\n" "_start 1\n.N 1\n.P B\n08000000\n") ['b']]

/-- A program too long for one partition, which dies at its first instruction, and one that lifts
its limit and stores beyond it. -/
def deadBelowClimber : Host :=
  hostOf "_start 1\n.N 100\n.P A\n99000000\n"
    "_start 1\n.N 3\n.P B\n04100999\n22000000\n05000170\n"

def climbing : List ConsoleEvent :=
  [.kernel (.create deadBelowClimber zeros ['a']), .kernel (.create deadBelowClimber zeros ['b']),
    .kernel (.worker zeros), .kernel (.worker zeros), .debug deadBelowClimber ['b'], .step zeros,
    .step zeros, .step zeros]

/-- The debugger writes over an occupied partition and over the registers of the running process;
and where all occupied partitions lie above its memory, the debugged program may still reach
one. -/
theorem not_debugger_frame :
    (¬ ∀ (keyboard : Nat → Int) (es : List ConsoleEvent) (i j : Nat),
      DebugWindow keyboard es i j →
      MemoryUndisturbed (Trace.stateAt consoleNext (consoleBoot keyboard) es i).system
        (Trace.stateAt consoleNext (consoleBoot keyboard) es j).system) ∧
    (¬ ∀ (keyboard : Nat → Int) (es : List ConsoleEvent) (i j : Nat),
      DebugWindow keyboard es i j →
      RegistersUndisturbed (Trace.stateAt consoleNext (consoleBoot keyboard) es i).system
        (Trace.stateAt consoleNext (consoleBoot keyboard) es j).system) ∧
    ¬ ∀ (keyboard : Nat → Int) (es : List ConsoleEvent) (i j : Nat),
      DebugWindow keyboard es i j →
      (∀ host argument, es[i]? = some (.debug host argument) →
        ∀ limit, debugLimit host argument = some limit →
        ∀ b, Occupied (Trace.stateAt consoleNext (consoleBoot keyboard) es i).system.kernel b →
          limit < getBaseRegister b) →
      MemoryUndisturbed (Trace.stateAt consoleNext (consoleBoot keyboard) es i).system
        (Trace.stateAt consoleNext (consoleBoot keyboard) es j).system := by
  have opening : DebugWindow zeroKeys overlaid 2 3 :=
    ⟨⟨_, _, rfl⟩, by decide +kernel, by decide, by decide, fun k e hk hkj => by omega⟩
  refine ⟨?_, ?_, ?_⟩
  · intro h
    have kept := h zeroKeys overlaid 2 3 opening 0 (by decide +kernel) 300 ⟨by decide, by decide⟩
    exact absurd kept (by decide +kernel)
  · intro h
    have kept := congrArg Cpu.rl (h zeroKeys overlaid 2 3 opening 0 (by decide +kernel))
    exact absurd kept (by decide +kernel)
  · intro h
    have window : DebugWindow zeroKeys climbing 4 8 := by
      refine ⟨⟨_, _, rfl⟩, by decide +kernel, by decide, by decide, ?_⟩
      intro k e hk hkj he
      obtain rfl | rfl | rfl : k = 5 ∨ k = 6 ∨ k = 7 := by omega
      all_goals
        obtain rfl := Option.some.inj he
        exact Or.inl ⟨zeros, rfl⟩
    have kept := h zeroKeys climbing 4 8 window (by
      intro host argument he limit hlimit b hb
      obtain ⟨rfl, rfl⟩ := ConsoleEvent.debug.inj (Option.some.inj he)
      have given : debugLimit deadBelowClimber ['b'] = some 403 := by decide +kernel
      obtain rfl : limit = 403 := by simpa [given] using hlimit.symm
      exact occupied_above (by decide +kernel) hb) 2 (by decide +kernel) 470 ⟨by decide, by decide⟩
    exact absurd kept (by decide +kernel)

end Lucario.Proofs
