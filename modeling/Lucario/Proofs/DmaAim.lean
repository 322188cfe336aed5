import Lucario.Proofs.Operands
import Lucario.Proofs.Sessions

namespace Lucario.Proofs

/-- An SDMAM that succeeds has aimed the device into the partition, one that fails has left it
where it was. -/
def AimsInside (m : Machine) : CpuStatus × Machine → Prop
  | (.ok, n) => m.cpu.rb ≤ n.dma.memAddr ∧ n.dma.memAddr ≤ m.cpu.rl
  | (.stop, n) => n.dma.memAddr = m.dma.memAddr

abbrev PassesLimit (cpu : Cpu) (a : Int) : Prop := 0 ≤ a ∧ a ≤ cpu.rl

/-- Where SDMAM is confined: its operand does not point below the base register, or there is no
operand and the word that happens to be in its place is refused or names the old address. -/
def AimKept (u : Unspecified) (inst : Instruction) (m : Machine) : Prop :=
  match operandWord inst m with
  | some w => PassesLimit m.cpu (m.cpu.rb + wordToInt w) → 0 ≤ wordToInt w
  | none => PassesLimit m.cpu (m.cpu.rb + wordToInt u.data) →
      m.cpu.rb + wordToInt u.data = m.dma.memAddr

variable {inst : Instruction} {m : Machine}

/-- What SDMAM decides by in user mode. -/
theorem user_aim_checks {c : Cpu} (hm : c.psw.mode = .user) (hl : c.rl < ramSize) (v : Int) :
    PassesLimit c (c.rb + v) ↔
      ¬ OutOfRange c v .sdmam ∧ ¬ BehindLimit c v .sdmam := by
  simp only [ramSize] at hl
  simp [PassesLimit, OutOfRange, BehindLimit, requestedAddr, hm]
  omega

/-- SDMAM succeeds with an operand that was fetched and passes the checks. -/
theorem sdmam_succeeds (u : Unspecified) (hop : inst.opCode = .sdmam)
    (hm : m.cpu.psw.mode = .user) (hl : m.cpu.rl < ramSize) :
    (execute u inst m).1 = .ok ↔ (operandWord inst m).isSome ∧
      PassesLimit m.cpu (m.cpu.rb + wordToInt ((operandWord inst m).getD u.data)) := by
  have hdma : ForDma inst.opCode := by simp [ForDma, hop]
  have view := (fetch_operand_steady inst m).view
  rw [user_aim_checks hm hl, ← operand_of_fetch, ← out_of_range_congr view,
    ← behind_limit_congr view, ← hop, execute, dma_handler u m hdma]
  have done := fun operand n (hf : fetchOperand inst m = (operand, n)) =>
    dma_execute_eq u inst hf hdma rfl
  generalize fetchOperand inst m = f at done ⊢
  obtain ⟨operand, n⟩ := f
  rcases done operand n rfl with ⟨hout, -, he⟩ | ⟨hbehind, -, he⟩ | ⟨hin, hfront, k, -, -, he⟩
  · simp [he, failWith, checkStatus, hout]
  · simp [he, failWith, checkStatus, hbehind]
  · rw [he]
    cases operand with
    | none => simp [failWith, checkStatus]
    | some w => exact iff_of_true rfl ⟨rfl, hin, hfront⟩

/-- Where SDMAM leaves the address register. -/
theorem sdmam_address (u : Unspecified) (hop : inst.opCode = .sdmam)
    (hm : m.cpu.psw.mode = .user) (hl : m.cpu.rl < ramSize) :
    (execute u inst m).2.dma.memAddr =
      if PassesLimit m.cpu (m.cpu.rb + wordToInt ((operandWord inst m).getD u.data)) then
        m.cpu.rb + wordToInt ((operandWord inst m).getD u.data)
      else m.dma.memAddr := by
  obtain ⟨hset, hkept⟩ := handler_register u inst m .address
  rw [← operand_of_fetch]
  split_ifs with h
  · rw [user_aim_checks hm hl] at h
    exact hset _ ⟨hop, h.1, h.2, by simp [DmaRegister.stored, requestedAddr, hm]⟩
  · apply hkept
    intro v ha
    exact h ((user_aim_checks hm hl _).mpr ⟨ha.2.1, ha.2.2.1⟩)

/-- In user mode SDMAM is confined to the partition exactly when `AimKept` holds: the lower bound
is not checked, and a failed fetch is noticed only after the register is set. -/
theorem sdmam_aims_inside (u : Unspecified) (inst : Instruction) (m : Machine)
    (hop : inst.opCode = .sdmam) (hm : m.cpu.psw.mode = .user) (hl : m.cpu.rl < ramSize) :
    AimsInside m (execute u inst m) ↔ AimKept u inst m := by
  have succeeds := sdmam_succeeds u hop hm hl
  have address := sdmam_address u hop hm hl
  generalize execute u inst m = r at succeeds address ⊢
  obtain ⟨status, n⟩ := r
  dsimp only at succeeds address
  unfold AimKept
  cases hw : operandWord inst m with
  | none =>
    rw [hw] at succeeds address
    cases status with
    | ok => simp at succeeds
    | stop =>
      change n.dma.memAddr = m.dma.memAddr ↔ _
      rw [address]
      split_ifs with hpass
      · exact ⟨fun h _ => h, fun h => h hpass⟩
      · exact iff_of_true rfl (fun h => absurd h hpass)
  | some w =>
    rw [hw] at succeeds address
    cases status with
    | ok =>
      have hpass := (succeeds.mp rfl).2
      rw [if_pos hpass] at address
      change m.cpu.rb ≤ n.dma.memAddr ∧ n.dma.memAddr ≤ m.cpu.rl ↔ _
      rw [address]
      constructor
      · rintro ⟨hbelow, -⟩ -
        exact nonneg_of_le_add_right hbelow
      · intro h
        exact ⟨le_add_of_nonneg_right (h hpass), hpass.2⟩
    | stop =>
      have hpass : ¬ PassesLimit m.cpu (m.cpu.rb + wordToInt w) := by
        intro h
        simpa using succeeds.mpr ⟨rfl, h⟩
      rw [Option.getD_some, if_neg hpass] at address
      exact iff_of_true address (fun h => absurd h hpass)

def minusFive : Machine :=
  { (powerOn zeroKeys).hw with
    cpu.rb := 300
    cpu.rl := 384
    ram := fun x => if x = 310 then 10000005 else 0 }

theorem sdmam_aims_inside_word_eleven :
    AimsInside minusFive (execute zeros ⟨.sdmam, .direct, 11⟩ minusFive) :=
  (sdmam_aims_inside zeros ⟨.sdmam, .direct, 11⟩ minusFive rfl rfl (by decide)).mpr (fun _ => by decide)

/-- SDMAM with the operand -5 aims the device at the five words before the partition. -/
theorem not_sdmam_aims_inside :
    ¬ ∀ u inst m, inst.opCode = .sdmam → m.cpu.psw.mode = .user → 0 ≤ m.cpu.rb →
      m.cpu.rb ≤ m.cpu.rl → m.cpu.rl < ramSize → AimsInside m (execute u inst m) := by
  intro confined
  have inside := confined zeros ⟨.sdmam, .direct, 10⟩ minusFive rfl rfl (by decide) (by decide)
    (by decide)
  have outside : execute zeros ⟨.sdmam, .direct, 10⟩ minusFive =
      (.ok, { minusFive with dma.memAddr := 295 }) := by rfl
  rw [outside] at inside
  exact absurd inside.1 (by decide)

end Lucario.Proofs
