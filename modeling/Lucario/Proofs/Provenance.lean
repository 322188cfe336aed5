import Lucario.Proofs.Stores

namespace Lucario.Proofs

/-- The registers that instructions and context saves store words from, PC apart, satisfy `P`. -/
structure Holds (P : Int → Prop) (c : Cpu) : Prop where
  ac : P c.ac
  rx : P c.rx
  rb : P c.rb
  rl : P c.rl

section

variable {P : Int → Prop} {m : Machine}

variable (hram : ∀ a, P (m.ram a)) (hword : ∀ v, P (intToWord v).1) (h : Holds P m.cpu)

include hram hword h

theorem available_holds {v : Int} (hv : Available m v) : P v := by
  cases hv with
  | memory a => exact hram a
  | converted v => exact hword v
  | ac => exact h.ac
  | rx => exact h.rx
  | rb => exact h.rb
  | rl => exact h.rl

/-- Every register word an instruction leaves was a register's, memory's or a converted number,
but for the uninitialised one of a failed LOAD. -/
theorem handler_holds (u : Unspecified) (inst : Instruction)
    (hload : inst.opCode = .load → (fetchOperand inst m).1 = none → P u.data) :
    Holds P (handler u inst m).2.cpu := by
  have available := fun v => available_holds hram hword h (v := v)
  have registers := (handler_performed u inst m).registers
  generalize (handler u inst m).2.cpu = c at registers ⊢
  cases registers with
  | accumulator hv => exact ⟨available _ hv, h.rx, h.rb, h.rl⟩
  | unfetched hop hnone => exact ⟨hload hop hnone, h.rx, h.rb, h.rl⟩
  | index => exact ⟨h.ac, h.ac, h.rb, h.rl⟩
  | base => exact ⟨h.ac, h.rx, h.ac, h.rl⟩
  | limit => exact ⟨h.ac, h.rx, h.rb, h.ac⟩
  | popped _ hv => exact ⟨available _ hv, h.rx, h.rb, h.rl⟩
  | _ => exact ⟨h.ac, h.rx, h.rb, h.rl⟩

end

variable {P : Int → Prop}

/-- What a frame gives back is in memory, or zero. -/
theorem restore_holds {m : Machine} (hram : ∀ a, P (m.ram a)) (hzero : P 0)
    (h : Holds P m.cpu) (code : InterruptCode) : Holds P (restoreContext code m).cpu := by
  have popped : ∀ (n : Machine) (a : Int), n.ram = m.ram →
      P ((readMemory a n).toOption.getD 0) := by
    intro n a hn
    rw [read_or_default, hn]
    split_ifs
    · exact hram _
    · exact hzero
  unfold restoreContext internalPop
  dsimp only
  split_ifs
  · exact ⟨popped _ _ rfl, popped _ _ rfl, popped _ _ rfl, popped _ _ rfl⟩
  · exact ⟨h.ac, popped _ _ rfl, popped _ _ rfl, popped _ _ rfl⟩

theorem syscall_holds (u : Unspecified) {s : System} (h : Holds P s.hw.cpu) :
    Holds P (handleSyscall u s).2.hw.cpu := by
  have stored : ∀ (n : Machine) (a v : Int), Holds P n.cpu →
      Holds P (orUnchanged (writeMemory a v n) n).cpu := by
    intro n a v hn
    rw [write_or_unchanged]
    split_ifs <;> exact hn
  have called := syscall_called u s
  generalize handleSyscall u s = r at called ⊢
  cases called with
  | returned => exact h
  | slept => exact h
  | retried => exact stored _ _ _ ⟨h.ac, h.rx, h.rb, h.rl⟩
  | read => exact stored _ _ _ ⟨h.ac, h.rx, h.rb, h.rl⟩

theorem handle_interrupt_holds (u : Unspecified) (code : InterruptCode) {s : System}
    (hword : ∀ v, P (intToWord v).1) (h : Holds P s.hw.cpu) :
    Holds P (handleInterrupt u code s).2.hw.cpu := by
  cases code
  case overflow => exact ⟨hword _, h.rx, h.rb, h.rl⟩
  case underflow => exact ⟨hword _, h.rx, h.rb, h.rl⟩
  case syscall =>
    have call := syscall_holds u h
    rw [handleInterrupt]
    split <;> rename_i hcall <;> rw [hcall] at call <;> exact call
  all_goals exact h

/-- Taking an interrupt keeps `P` of the registers when it leaves it true of memory. -/
theorem check_interrupts_holds (u : Unspecified) {s : System} (hword : ∀ v, P (intToWord v).1)
    (hram : ∀ a, P ((checkInterrupts u s).2.hw.ram a)) (h : Holds P s.hw.cpu) :
    Holds P (checkInterrupts u s).2.hw.cpu := by
  rcases interrupts_idle_or_taken s.hw with hidle | ⟨hp, he⟩
  · rw [check_interrupts_idle u hidle]
    exact h
  · rw [check_interrupts_taken u hp he] at hram ⊢
    have entry : Holds P (entered s).hw.cpu := by
      rw [entered, save_machine]
      exact ⟨h.ac, h.rx, h.rb, h.rl⟩
    have handled := handle_interrupt_holds u (codeToHandle s.hw.interruptBitmap) hword entry
    dsimp only at hram ⊢
    rw [leave_ram] at hram
    generalize handleInterrupt u (codeToHandle s.hw.interruptBitmap) (entered s) = r
      at hram handled ⊢
    obtain ⟨status, t⟩ := r
    have hzero : P 0 := hword 0
    cases status with
    | false => exact ⟨handled.ac, handled.rx, handled.rb, handled.rl⟩
    | true =>
      have restored := restore_holds (m := { t.hw with
        interruptBitmap := t.hw.interruptBitmap.erase (codeToHandle s.hw.interruptBitmap) })
        hram hzero handled (codeToHandle s.hw.interruptBitmap)
      exact ⟨restored.ac, restored.rx, restored.rb, restored.rl⟩

end Lucario.Proofs
