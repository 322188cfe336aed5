import Lucario.Proofs.DebugRuns
import Lucario.Proofs.Isolation

namespace Lucario.Proofs

def raisedCodes : Finset InterruptCode :=
  {.syscall, .timer, .ioDone, .invalidInstr, .invalidAddr, .overflow}

section

variable {u : Unspecified} {inst : Instruction} {m : Machine} {s : System}

theorem raisable_raised {op : OpCode} {c : InterruptCode} (h : Raisable op c) : c ∈ raisedCodes := by
  rcases h with (rfl | rfl) | ⟨rfl, -⟩ | ⟨rfl, -⟩ | ⟨rfl, -⟩ <;> decide

theorem after_instruction_raised (h : m.interruptBitmap ⊆ raisedCodes) :
    (afterInstruction u inst m).interruptBitmap ⊆ raisedCodes := by
  intro c hc
  by_cases ht : c = .timer
  · rw [ht]
    decide
  · rw [afterInstruction, count_cycle_bitmap ht] at hc
    exact (handler_adds c hc).elim (fun hold => h hold) raisable_raised

/-- With nothing else pending nothing else is handled. -/
theorem handled_raised {pending : Finset InterruptCode} (h : pending ⊆ raisedCodes)
    (hne : pending ≠ ∅) : codeToHandle pending ∈ raisedCodes := by
  obtain ⟨c, hc⟩ := Finset.nonempty_iff_ne_empty.mpr hne
  have absent : .underflow ∉ pending ∧ .invalidSyscall ∉ pending := by
    constructor <;>
    · intro hmem
      exact absurd (h hmem) (by decide)
  have known := h hc
  simp only [raisedCodes, Finset.mem_insert, Finset.mem_singleton] at known
  unfold codeToHandle
  rw [if_neg absent.1, if_neg absent.2]
  split_ifs with h1 h2 h3 h4 h5 h6
  case neg => rcases known with rfl | rfl | rfl | rfl | rfl | rfl <;> contradiction
  all_goals decide

theorem fetched_pending (hf : fetched s.hw = some (inst, m))
    (h : s.hw.interruptBitmap ⊆ raisedCodes) : m.interruptBitmap ⊆ raisedCodes := by
  obtain ⟨w, -, -, hm, -⟩ := fetched_machine hf
  rw [hm]
  exact h

theorem cpu_step_raised (u : Unspecified) (h : s.hw.interruptBitmap ⊆ raisedCodes) :
    (cpuStep u s).2.hw.interruptBitmap ⊆ raisedCodes := by
  cases hf : fetched s.hw with
  | none =>
    rw [cpu_step_unfetched u hf]
    exact h
  | some x =>
    obtain ⟨inst, m⟩ := x
    have after := @after_instruction_raised u inst m (fetched_pending hf h)
    rw [cpu_step_fetched u hf]
    rcases interrupts_idle_or_taken (afterInstruction u inst m) with hidle | ⟨hp, he⟩
    · rw [check_interrupts_idle u hidle]
      exact after
    · rw [check_interrupts_bitmap (s := { s with hw := afterInstruction u inst m }) u hp he]
      exact (Finset.erase_subset _ _).trans after

theorem next_raised (h : s.hw.interruptBitmap ⊆ raisedCodes) (e : Event) :
    (next s e).hw.interruptBitmap ⊆ raisedCodes := by
  cases e with
  | create host u progName =>
    rw [next, (created_running host u progName s).2.2.1]
    exact h
  | worker u =>
    by_cases hc : s.kernel.currentActiveProcess = -1
    · obtain ⟨cpu, k, htick⟩ := tick_kept s
      rw [next_idle u hc, htick]
      exact h
    · rw [worker_bitmap u hc]
      exact cpu_step_raised u h
  | monitor active => exact h
  | restart => exact Finset.empty_subset _

theorem console_next_raised {c : Console} (h : c.system.hw.interruptBitmap ⊆ raisedCodes)
    (e : ConsoleEvent) : (consoleNext c e).system.hw.interruptBitmap ⊆ raisedCodes := by
  have step := console_next_step c e
  generalize consoleNext c e = d at step
  cases step with
  | ignored => exact h
  | closed => exact h
  | kernel e => exact next_raised h e
  | opened host argument =>
    obtain ⟨cpu, ram, hs⟩ := start_debugging_machine host argument c.system
    rw [hs]
    exact Finset.empty_subset _
  | stepped u => exact cpu_step_raised u h

/-- Three of the nine interrupt handlers are never entered: whatever is loaded, executed and
interrupted, by the worker thread or in the debugger, no underflow, no invalid system call and no
invalid interrupt code is ever pending or the one that `checkInterrupts` chooses. -/
theorem unreached_handlers (keyboard : Nat → Int) (es : List ConsoleEvent) (i : Nat) :
    (Trace.stateAt consoleNext (consoleBoot keyboard) es i).system.hw.interruptBitmap ⊆
        raisedCodes ∧
      ∀ u inst m, fetched (Trace.stateAt consoleNext (consoleBoot keyboard) es i).system.hw =
          some (inst, m) →
        (afterInstruction u inst m).interruptBitmap ≠ ∅ →
          codeToHandle (afterInstruction u inst m).interruptBitmap ∈ raisedCodes := by
  have pending : (Trace.stateAt consoleNext (consoleBoot keyboard) es
      i).system.hw.interruptBitmap ⊆ raisedCodes :=
    Trace.stateAt_invariant (fun c : Console => c.system.hw.interruptBitmap ⊆ raisedCodes)
      (Finset.empty_subset _) (fun c e _ h => console_next_raised h e) i
  refine ⟨pending, ?_⟩
  intro u inst m hf hne
  exact handled_raised (after_instruction_raised (fetched_pending hf pending)) hne

end

end Lucario.Proofs
