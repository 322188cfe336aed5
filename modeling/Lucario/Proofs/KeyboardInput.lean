import Lucario.Proofs.ExactArithmetic
import Lucario.Proofs.StackGuard

namespace Lucario.Proofs

open SignMagnitude (wrap encode)

structure ReadsKeyboard (s : System) : Prop where
  taken : TakesInterrupt s.hw
  delivers : DeliversInput s
  writable : FrameWritable s.hw.cpu
  valid : FrameValid s.hw.cpu

/-- The number typed arrives in AC with its low seven digits, every other register is as before,
and no `int` was negated that cannot be. -/
structure DigitsKept (n : Int) (s : System) (r : Bool × System) : Prop where
  resumed : r.1 = true
  registers : r.2.hw.cpu = { s.hw.cpu with ac := encode signBit (n.sign * (|n| % 10000000)) }
  negated : FitsSigned 31 (-toInt32 n)

/-- The number is one of 32 bits, or differs from one by a multiple of 2^32 and of 10^7 and has its
sign or no low digits at all. -/
def LowBitsSuffice (n : Int) : Prop :=
  ∃ k : Int, -2147483648 < k ∧ k < 2147483648 ∧ (335544320000000 : Int) ∣ n - k ∧
    (0 ≤ n ∧ 0 ≤ k ∨ n ≤ 0 ∧ k ≤ 0 ∨ (10000000 : Int) ∣ n)

variable {s : System} {n : Int}

/-- The handler of a read call goes on with the registers of the caller; AC comes from the
keyboard. -/
theorem keyboard_read (u : Unspecified) (h : ReadsKeyboard s) :
    (checkInterrupts u s).1 = true ∧ (checkInterrupts u s).2.hw.cpu =
      { s.hw.cpu with ac := (intToWord (toInt32 (s.monitor.keyboard 0))).1 } := by
  obtain ⟨⟨hp, he⟩, ⟨hcode, hopen, hthree⟩, hw, hv⟩ := h
  have handled : handleInterrupt u .syscall (entered s) = (true, readFromMonitor (entered s)) := by
    have hac := entered_accumulator s
    have hmonitor : (entered s).monitor = s.monitor := rfl
    unfold handleInterrupt handleSyscall
    dsimp only
    rw [hac, hthree, hmonitor, hopen]
    rfl
  have kept := (handle_interrupt_handled u .syscall (entered s) (interrupted s.hw)
    rfl).toFrameKept
  have view := entered_view s
  have slot : Accessible (entered s).hw.cpu (entered s).hw.cpu.sp := by
    rw [accessible_congr view, entered_sp]
    exact hw 7 (by omega) (by omega)
  have hram := input_ram (entered s)
  rw [if_pos slot, entered_sp, translate_congr view] at hram
  rw [handled] at kept
  rw [check_interrupts_taken u hp he, hcode, handled]
  dsimp only at kept ⊢
  rw [leave_restored hw hv he kept (by decide), hram, Function.update_self,
    Function.update_of_ne (saved_words_apart _).symm, entered_pc hw hv]
  exact ⟨rfl, rfl⟩

/-- Numbers of one remainder have one sign, or no remainder at all. -/
theorem same_sign {n t : Int} (k : Int) (h : t.tmod k = n.tmod k) :
    0 ≤ n ∧ 0 ≤ t ∨ n ≤ 0 ∧ t ≤ 0 ∨ k ∣ n := by
  have opposite : ∀ {a b : Int}, 0 ≤ a → b ≤ 0 → a.tmod k = b.tmod k → a.tmod k = 0 := by
    intro a b ha hb heq
    have hpos := Int.tmod_nonneg k ha
    have hneg := Int.tmod_nonneg k (neg_nonneg.mpr hb)
    rw [Int.neg_tmod] at hneg
    omega
  rcases le_total 0 n with hn | hn <;> rcases le_total 0 t with ht | ht
  · exact Or.inl ⟨hn, ht⟩
  · exact Or.inr (Or.inr (Int.dvd_of_tmod_eq_zero (opposite hn ht h.symm)))
  · exact Or.inr (Or.inr (Int.dvd_of_tmod_eq_zero (h.symm.trans (opposite ht hn h))))
  · exact Or.inr (Or.inl ⟨hn, ht⟩)

/-- The conversion of the low 32 bits keeps the low digits of the number. -/
theorem low_bits_suffice (n : Int) :
    LowBitsSuffice n ↔ toInt32 n ≠ -2147483648 ∧ (toInt32 n).tmod 10000000 = n.tmod 10000000 := by
  have hbits : ∃ j, n = toInt32 n + 4294967296 * j := by
    refine ⟨(n + 2147483648) / 4294967296, ?_⟩
    unfold toInt32
    omega
  have hrange : -2147483648 ≤ toInt32 n ∧ toInt32 n < 2147483648 := by
    unfold toInt32
    omega
  obtain ⟨j, hj⟩ := hbits
  constructor
  · rintro ⟨k, hl, hu, ⟨q, hq⟩, hsign⟩
    have hlow : toInt32 n = k := by omega
    have hn := tmod_sign n 10000000
    have hk := tmod_sign k 10000000
    rw [hlow]
    exact ⟨by omega, by omega⟩
  · rintro ⟨hne, hmod⟩
    refine ⟨toInt32 n, by omega, by omega, ?_, same_sign 10000000 hmod⟩
    have hn := Int.mul_tdiv_add_tmod n 10000000
    have ht := Int.mul_tdiv_add_tmod (toInt32 n) 10000000
    omega

theorem encode_wrap_inj {a b : Int}
    (h : encode signBit (wrap signBit a) = encode signBit (wrap signBit b)) :
    wrap signBit a = wrap signBit b := by
  have decoded := congrArg (SignMagnitude.decode signBit) h
  rwa [SignMagnitude.decode_encode (SignMagnitude.abs_wrap_lt (by decide) a),
    SignMagnitude.decode_encode (SignMagnitude.abs_wrap_lt (by decide) b)] at decoded

/-- What is typed keeps its low seven digits exactly when its low 32 bits have them: the number is
cut to these before it is reduced. -/
theorem digits_kept (u : Unspecified) (s : System) (h : ReadsKeyboard s) :
    DigitsKept (s.monitor.keyboard 0) s (checkInterrupts u s) ↔
      LowBitsSuffice (s.monitor.keyboard 0) := by
  obtain ⟨hresumed, hcpu⟩ := keyboard_read u h
  generalize s.monitor.keyboard 0 = n at hcpu ⊢
  rw [int_to_word_eq] at hcpu
  have hrange : -2147483648 ≤ toInt32 n ∧ toInt32 n < 2147483648 := by
    unfold toInt32
    omega
  have hmod : wrap signBit (toInt32 n) = wrap signBit n ↔
      (toInt32 n).tmod 10000000 = n.tmod 10000000 := by
    rw [SignMagnitude.wrap_eq_tmod, SignMagnitude.wrap_eq_tmod]
    exact Iff.rfl
  rw [low_bits_suffice, ← hmod]
  constructor
  · rintro ⟨-, hregisters, hnegated⟩
    refine ⟨?_, encode_wrap_inj ?_⟩
    · norm_num [FitsSigned] at hnegated
      omega
    · exact congrArg Cpu.ac (hcpu.symm.trans hregisters)
  · rintro ⟨hne, hwrap⟩
    refine ⟨hresumed, ?_, ?_⟩
    · rw [hcpu, hwrap]
      rfl
    · norm_num [FitsSigned]
      omega

def readingCpu : Cpu :=
  { Cpu.zero with ac := 3, rb := 300, rl := 384, sp := 84, psw.interruptEnable := .enabled }

def readsNumber (n : Int) : System :=
  { boot (fun _ => n) with
    hw := { (boot (fun _ => n)).hw with cpu := readingCpu, interruptBitmap := {.syscall} }
    monitor := { (boot (fun _ => n)).monitor with active := true } }

theorem reads_number (n : Int) : ReadsKeyboard (readsNumber n) := by
  have writable : FrameWritable readingCpu :=
    frame_writable_user rfl (by decide) (by decide) (by decide) (by decide)
  have valid : FrameValid readingCpu :=
    ⟨by decide, by decide, by decide, by decide, by decide⟩
  exact ⟨⟨by simp [readsNumber], rfl⟩, ⟨rfl, rfl, rfl⟩, writable, valid⟩

theorem digits_kept_eight_digits :
    DigitsKept (-12345678) (readsNumber (-12345678))
      (checkInterrupts zeros (readsNumber (-12345678))) := by
  have low : LowBitsSuffice (-12345678) :=
    ⟨-12345678, by norm_num, by norm_num, by norm_num, by norm_num⟩
  exact (digits_kept zeros (readsNumber (-12345678)) (reads_number _)).mpr low

/-- Ten thousand millions arrive as 65408, the low digits of the low 32 bits. -/
theorem not_digits_kept :
    ¬ ∀ (u : Unspecified) (s : System), ReadsKeyboard s →
      DigitsKept (s.monitor.keyboard 0) s (checkInterrupts u s) := by
  intro kept
  have registers := (kept zeros (readsNumber 10000000000) (reads_number _)).registers
  exact absurd (congrArg Cpu.ac registers) (by decide +kernel)

end Lucario.Proofs
