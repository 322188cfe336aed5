import Lucario.Debugger
import Lucario.Proofs.Lifetime
import Lucario.Proofs.ProcessorStep
import Lucario.Proofs.RoundRobin

namespace Lucario.Proofs

theorem stack_memory_eq (wordCount : Int) : stackMemory wordCount = min 100 (1700 - wordCount) := by
  unfold stackMemory
  split_ifs with h <;> simp only [defaultStackSize, ramSize, osReservedSize] at h ⊢ <;> omega

/-- Where the partition of a debugged program ends. -/
theorem start_limit (header : Header) (c : Cpu) : (startRegisters header c).rl =
    300 + min 100 (1700 - header.wordCount) + header.wordCount := by
  rw [startRegisters, stack_memory_eq]
  rfl

/-- Loading a debugged program word by word stores into memory only. -/
theorem load_words_ram (count : Nat) (i : Int) (file : List Char) (m : Machine) :
    ∃ ram, (loadWords count i file m).2 = { m with ram := ram } := by
  induction count generalizing i file m with
  | zero => exact ⟨m.ram, rfl⟩
  | succ count ih =>
    rw [loadWords]
    dsimp only
    generalize readProgramWord file = r
    obtain ⟨w, rest⟩ := r
    by_cases h : Accessible m.cpu (osReservedSize + i) ∧ isValidInstruction w
    · rw [write_accessible h.1 h.2]
      obtain ⟨ram, hram⟩ := ih (i + 1) rest (storeRam (translate m.cpu (osReservedSize + i)) w m)
      exact ⟨ram, hram⟩
    · obtain ⟨status, hs⟩ := write_refused h
      rw [hs]
      exact ⟨m.ram, rfl⟩

theorem load_program_machine (host : Host) (filePath : List Char) (m : Machine) :
    ∃ cpu ram, (loadProgram host filePath m).2 = { m with cpu := cpu, ram := ram } := by
  unfold loadProgram
  cases host filePath with
  | none => exact ⟨m.cpu, m.ram, rfl⟩
  | some file =>
    dsimp only
    generalize programInfo file = r
    obtain ⟨header, rest⟩ := r
    dsimp only
    split_ifs
    · exact ⟨_, m.ram, rfl⟩
    · obtain ⟨ram, hram⟩ := load_words_ram header.wordCount.toNat 0 rest
        { m with cpu.psw.mode := .kernel }
      generalize loadWords header.wordCount.toNat 0 rest { m with cpu.psw.mode := .kernel } = r
        at hram
      obtain ⟨status, n⟩ := r
      dsimp only at hram
      subst hram
      cases status <;> exact ⟨_, ram, rfl⟩

/-- Opening the debugger reaches the processor and memory, never the kernel. -/
theorem start_debugging_machine (host : Host) (argument : List Char) (s : System) :
    ∃ cpu ram, (startDebugging host argument s).2 = { s with hw := { cpuReset s.hw with
      cpu := cpu, ram := ram } } := by
  unfold startDebugging
  dsimp only
  split_ifs
  · exact ⟨_, _, rfl⟩
  · obtain ⟨cpu, ram, h⟩ := load_program_machine host argument (cpuReset s.hw)
    generalize loadProgram host argument (cpuReset s.hw) = r at h
    obtain ⟨status, n⟩ := r
    dsimp only at h
    subst h
    cases status <;> exact ⟨cpu, ram, rfl⟩

/-- Whatever runs before it, a tick is made with a slot index or none. -/
theorem next_valid_current {s : System} (hc : ValidCurrent s.kernel.currentActiveProcess) (e : Event) :
    ValidCurrent (next s e).kernel.currentActiveProcess := by
  cases e with
  | create host u progName =>
    rw [next, (created_running host u progName s).1]
    exact hc
  | worker u =>
    have current := (worked_slots (worker_step_worked u s)).1
    rw [next, workerIteration]
    generalize workerStep u s = r at current ⊢
    obtain ⟨ticks, t⟩ := r
    have ht : ValidCurrent t.kernel.currentActiveProcess := current ▸ hc
    cases ticks with
    | true => exact dispatched_valid ht
    | false => exact ht
  | monitor active => exact hc
  | restart => exact Or.inl rfl

/-- A processor step leaves the running process in its place. -/
theorem cpu_step_current (u : Unspecified) (s : System) :
    (cpuStep u s).2.kernel.currentActiveProcess = s.kernel.currentActiveProcess := by
  have stepped := cpu_step_stepped u s
  generalize cpuStep u s = r at stepped ⊢
  cases stepped <;> rfl

inductive ConsoleStep (c : Console) : ConsoleEvent → Console → Prop
  | ignored (e : ConsoleEvent) : ConsoleStep c e c
  | closed : ConsoleStep c .quit { c with debugging := false }
  | kernel (e : Event) (h : c.debugging = false ∨ ∃ u, e = .worker u) :
      ConsoleStep c (.kernel e) { c with system := next c.system e }
  | opened (host : Host) (argument : List Char) (h : c.debugging = false) :
      ConsoleStep c (.debug host argument) ⟨(startDebugging host argument c.system).2,
        (startDebugging host argument c.system).1⟩
  | stepped (u : Unspecified) (h : c.debugging = true) :
      ConsoleStep c (.step u) ⟨(cpuStep u c.system).2, (cpuStep u c.system).1⟩

theorem console_next_step (c : Console) (e : ConsoleEvent) : ConsoleStep c e (consoleNext c e) := by
  cases e with
  | kernel e =>
    cases hd : c.debugging with
    | false =>
      have hnext : consoleNext c (.kernel e) = { c with system := next c.system e } := by
        cases e <;> simp [consoleNext, next, hd]
      exact hnext ▸ .kernel e (Or.inl hd)
    | true =>
      cases e with
      | worker u => exact .kernel (.worker u) (Or.inr ⟨u, rfl⟩)
      | create | monitor | restart =>
        simp only [consoleNext, hd, if_true]
        exact .ignored _
  | debug host argument =>
    simp only [consoleNext]
    split_ifs with hd
    · exact .ignored _
    · exact .opened host argument (by simpa using hd)
  | step u =>
    simp only [consoleNext]
    split_ifs with hd
    · exact .stepped u hd
    · exact .ignored _
  | quit => exact .closed

theorem console_next_current {c : Console}
    (hc : ValidCurrent c.system.kernel.currentActiveProcess) (e : ConsoleEvent) :
    ValidCurrent (consoleNext c e).system.kernel.currentActiveProcess := by
  have step := console_next_step c e
  generalize consoleNext c e = d at step ⊢
  cases step with
  | ignored => exact hc
  | closed => exact hc
  | kernel e => exact next_valid_current hc e
  | opened host argument =>
    obtain ⟨cpu, ram, h⟩ := start_debugging_machine host argument c.system
    rw [h]
    exact hc
  | stepped u => exact (cpu_step_current u c.system).symm ▸ hc

/-- In every run, with or without debugging, the running process is a slot index or none. -/
theorem console_current (keyboard : Nat → Int) (es : List ConsoleEvent) (i : Nat) :
    ValidCurrent (Trace.stateAt consoleNext
      (consoleBoot keyboard) es i).system.kernel.currentActiveProcess := by
  refine Trace.stateAt_invariant
    (fun c : Console => ValidCurrent c.system.kernel.currentActiveProcess) ?_ ?_ i
  · exact Or.inl rfl
  · exact fun c e _ h => console_next_current h e

end Lucario.Proofs
