import Lucario.Lib.Footprint
import Lucario.Proofs.DmaProgramming
import Lucario.Proofs.ServiceCall

namespace Lucario.Proofs

open Footprint

variable {m : Machine}

theorem write_changes {A : Int → Int → Prop} {a v : Int}
    (h : ∀ x w, StoredAt m.cpu a v x w → A x w) :
    Changes A m.ram (orUnchanged (writeMemory a v m) m).ram := by
  rw [write_or_unchanged]
  split_ifs with hw
  · exact Changes.update (h _ _ ⟨hw.1, hw.2, rfl, rfl⟩)
  · exact Changes.refl _

theorem push_all_stores {A : Int → Int → Prop} (ws : List Int) (m : Machine)
    (h : ∀ (i : Nat) (hi : i < ws.length) (x w : Int),
      StoredAt m.cpu (m.cpu.sp - 1 - i) ws[i] x w → A x w) :
    Changes A m.ram (pushAll ws m).ram := by
  induction ws generalizing m with
  | nil => exact Changes.refl _
  | cons v ws ih =>
    have first : Changes A m.ram (internalPush v m).ram := by
      refine write_changes (m := { m with cpu.sp := m.cpu.sp - 1 }) ?_
      intro x w hs
      have hfirst := h 0 (by simp) x w
      rw [Nat.cast_zero, Int.sub_zero] at hfirst
      exact hfirst (hs.of_view ⟨rfl, rfl, rfl⟩)
    refine first.trans (ih (internalPush v m) ?_)
    intro i hi x w hs
    rw [push_eq] at hs
    have hnext := h (i + 1) (by simpa using hi) x w
    rw [show m.cpu.sp - 1 - ((i + 1 : Nat) : Int) = m.cpu.sp - 1 - 1 - i by omega] at hnext
    exact hnext (hs.of_view ⟨rfl, rfl, rfl⟩)

/-- What taking an interrupt may store: the registers of its frame, and in the place of the saved
PC or AC a word the kernel makes. -/
def FrameStores (c : Cpu) (x w : Int) : Prop :=
  (∃ (i : Nat) (hi : i < 7), StoredAt c (c.sp - 1 - i) ((frameWords c)[i]) x w) ∨
    ∃ k v, (k = 6 ∨ k = 7) ∧ StoredAt c (c.sp - k) (intToWord v).1 x w

theorem entered_stores (s : System) :
    Changes (FrameStores s.hw.cpu) s.hw.ram (entered s).hw.ram := by
  rw [entered, saveContext_eq]
  refine push_all_stores (frameWords (interrupted s.hw).cpu) (interrupted s.hw) ?_
  exact fun i hi x w h => Or.inl ⟨i, hi, h⟩

/-- A system call stores at most one word of the kernel's making, into the frame it works on. -/
theorem syscall_stores {A : Int → Int → Prop} (u : Unspecified) (s : System)
    (h : ∀ k v x w, (k = 0 ∨ k = 1) →
      StoredAt s.hw.cpu (s.hw.cpu.sp + k) (intToWord v).1 x w → A x w) :
    Changes A s.hw.ram (handleSyscall u s).2.hw.ram := by
  have called := syscall_called u s
  generalize handleSyscall u s = r at called ⊢
  cases called with
  | returned => exact Changes.refl _
  | slept => exact Changes.refl _
  | retried =>
    unfold retryAfterMonitor
    dsimp only
    refine write_changes ?_
    exact fun x w hs => h 1 _ x w (Or.inr rfl) hs
  | read =>
    unfold readFromMonitor
    dsimp only
    refine write_changes ?_
    intro x w hs
    have hzero := h 0 (toInt32 (s.monitor.keyboard 0)) x w (Or.inl rfl)
    rw [Int.add_zero] at hzero
    exact hzero (hs.of_view ⟨rfl, rfl, rfl⟩)

theorem handle_interrupt_stores (u : Unspecified) (code : InterruptCode) (s : System) :
    Changes (FrameStores s.hw.cpu) (entered s).hw.ram
      (handleInterrupt u code (entered s)).2.hw.ram := by
  cases code
  case syscall =>
    have call : Changes (FrameStores s.hw.cpu) (entered s).hw.ram
        (handleSyscall u (entered s)).2.hw.ram := by
      refine syscall_stores u (entered s) ?_
      intro k v x w hk hs
      rw [entered_sp, show s.hw.cpu.sp - 7 + k = s.hw.cpu.sp - (7 - k) by omega] at hs
      exact Or.inr ⟨7 - k, v, by omega, hs.of_view (entered_view s)⟩
    rw [handleInterrupt]
    split <;> rename_i hcall <;> rw [hcall] at call <;> exact call
  all_goals exact Changes.refl _

theorem leave_ram (code : InterruptCode) (status : Bool) (s : System) :
    (leave code status s).hw.ram = s.hw.ram := by
  obtain ⟨cpu, h⟩ := leave_machine code status s
  rw [h]

def TakesInterrupt (m : Machine) : Prop :=
  m.interruptBitmap ≠ ∅ ∧ m.cpu.psw.interruptEnable = .enabled

instance (m : Machine) : Decidable (TakesInterrupt m) := inferInstanceAs (Decidable (_ ∧ _))

theorem check_interrupts_stores (u : Unspecified) (s : System) :
    Changes (fun x w => TakesInterrupt s.hw ∧ FrameStores s.hw.cpu x w) s.hw.ram
      (checkInterrupts u s).2.hw.ram := by
  rcases interrupts_idle_or_taken s.hw with hidle | ⟨hp, he⟩
  · rw [check_interrupts_idle u hidle]
    exact Changes.refl _
  · rw [check_interrupts_taken u hp he, leave_ram]
    refine ((entered_stores s).trans (handle_interrupt_stores u _ s)).mono ?_
    exact fun x w h => ⟨⟨hp, he⟩, h⟩

/-- All that a processor step may store. -/
theorem cpu_step_stores {A : Int → Int → Prop} (u : Unspecified) (s : System)
    (h : ∀ inst m, fetched s.hw = some (inst, m) →
      (∀ x w, InstructionStores inst m x w → A x w) ∧
      (TakesInterrupt (afterInstruction u inst m) → ∀ x w,
        FrameStores (afterInstruction u inst m).cpu x w → A x w)) :
    Changes A s.hw.ram (cpuStep u s).2.hw.ram := by
  cases hf : fetched s.hw with
  | none =>
    rw [cpu_step_unfetched u hf]
    exact Changes.refl _
  | some x =>
    obtain ⟨inst, m⟩ := x
    obtain ⟨hinst, hframe⟩ := h inst m hf
    obtain ⟨w, -, -, hm, -⟩ := fetched_machine hf
    have hfetch : m.ram = s.hw.ram := by rw [hm]
    have hcount : (afterInstruction u inst m).ram = (handler u inst m).2.ram := by
      unfold afterInstruction countCycle
      dsimp only
      split_ifs <;> rfl
    rw [cpu_step_fetched u hf]
    have executed : Changes A s.hw.ram (afterInstruction u inst m).ram := by
      rw [hcount, ← hfetch]
      exact (handler_performed u inst m).memory.mono hinst
    have taken := check_interrupts_stores u { s with hw := afterInstruction u inst m }
    refine executed.trans (taken.mono ?_)
    exact fun x w hs => hframe hs.1 x w hs.2

end Lucario.Proofs
