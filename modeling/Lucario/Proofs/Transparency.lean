import Lucario.Proofs.ContextFrame
import Lucario.Proofs.Sessions

namespace Lucario.Proofs

def passiveInterrupts : List InterruptCode := [.timer, .ioDone, .invalidSyscall, .invalidIntCode]

theorem handle_passive (u : Unspecified) (s : System) {code : InterruptCode}
    (h : code ∈ passiveInterrupts) :
    ∃ t, handleInterrupt u code s = (true, t) ∧ t.hw = s.hw := by
  simp only [passiveInterrupts, List.mem_cons, List.not_mem_nil, or_false] at h
  rcases h with rfl | rfl | rfl | rfl
  · exact ⟨s.setYield, rfl, rfl⟩
  all_goals exact ⟨s, rfl, rfl⟩

/-- A passive interrupt returns to the very register file it found, with its frame as the only
trace in RAM. -/
theorem interrupt_transparent (u : Unspecified) (s : System)
    (he : s.hw.cpu.psw.interruptEnable = .enabled) (hp : s.hw.interruptBitmap ≠ ∅)
    (hc : codeToHandle s.hw.interruptBitmap ∈ passiveInterrupts)
    (hw : FrameWritable s.hw.cpu) (hv : FrameValid s.hw.cpu) :
    (checkInterrupts u s).1 = true ∧
      (checkInterrupts u s).2.hw.cpu = s.hw.cpu ∧
      (∀ x, (∀ k : Int, 1 ≤ k → k ≤ 7 → x ≠ translate s.hw.cpu (s.hw.cpu.sp - k)) →
        (checkInterrupts u s).2.hw.ram x = s.hw.ram x) ∧
      (checkInterrupts u s).2.hw.interruptBitmap =
        s.hw.interruptBitmap.erase (codeToHandle s.hw.interruptBitmap) := by
  generalize hcode : codeToHandle s.hw.interruptBitmap = code at hc
  have hne : code ≠ .overflow ∧ code ≠ .underflow := by
    constructor <;> rintro rfl <;> simp [passiveInterrupts] at hc
  obtain ⟨t, hh, ht⟩ := handle_passive u (entered s) hc
  have kept : FrameKept (interrupted s.hw) t.hw := by
    rw [ht]
    exact (handled_refl _).toFrameKept
  rw [check_interrupts_taken u hp he, hcode, hh]
  dsimp only
  rw [leave_restored hw hv he kept hne, ht, entered_ac hw hv, entered_pc hw hv]
  refine ⟨rfl, rfl, ?_, ?_⟩
  · intro x hx
    exact save_outside hx
  · exact congrArg (Finset.erase · code) (entered_bitmap s)

def timerPending : System :=
  { firstReader with hw := { firstReader.hw with interruptBitmap := {.timer, .ioDone} } }

theorem interrupt_transparent_timer_pending :
    (checkInterrupts zeros timerPending).1 = true ∧
      (checkInterrupts zeros timerPending).2.hw.cpu = timerPending.hw.cpu := by
  have pending : timerPending.hw.interruptBitmap ≠ ∅ ∧
      codeToHandle timerPending.hw.interruptBitmap ∈ passiveInterrupts := by decide +kernel
  have registers : timerPending.hw.cpu.psw.interruptEnable = .enabled ∧
      timerPending.hw.cpu.psw.mode = .user ∧ timerPending.hw.cpu.sp = 84 ∧
      timerPending.hw.cpu.rb = 300 ∧ timerPending.hw.cpu.rl = 384 ∧
      isValidInstruction timerPending.hw.cpu.ac ∧ isValidInstruction timerPending.hw.cpu.psw.pc ∧
      isValidInstruction timerPending.hw.cpu.rx := by decide +kernel
  obtain ⟨he, hm, hsp, hb, hl, hac, hpc, hrx⟩ := registers
  have transparent := interrupt_transparent zeros timerPending he pending.1 pending.2
    (frame_writable_user hm (by omega) (by omega) (by omega) (by omega))
    ⟨hac, hpc, hrx, by rw [hb]; decide, by rw [hl]; decide⟩
  exact ⟨transparent.1, transparent.2.1⟩

end Lucario.Proofs
