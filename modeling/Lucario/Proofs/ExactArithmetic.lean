import Lucario.Lib.SignMagnitude
import Lucario.Proofs.Operands
import Lucario.Proofs.Sessions

namespace Lucario.Proofs

open SignMagnitude (wrap encode)

theorem word_to_int_decode (w : Int) : wordToInt w = SignMagnitude.decode signBit w := rfl

def resultCode (r : Int) : ConditionCode :=
  if maxMagnitude < |r| then .overflow
  else if r = 0 then .zero
  else if r < 0 then .neg
  else .pos

/-- `intToWord` reduces the magnitude and writes the canonical word. -/
theorem int_to_word_eq (v : Int) :
    intToWord v = (encode signBit (wrap signBit v), resultCode v) := by
  have habs : (if 0 ≤ v then v else -v) = |v| := by
    split_ifs with h
    · exact (abs_of_nonneg h).symm
    · exact (abs_of_neg (not_le.mp h)).symm
  have hreduced : (if maxMagnitude < |v| then |v|.tmod (maxMagnitude + 1) else |v|) =
      |v| % signBit := by
    by_cases h : maxMagnitude < |v|
    · rw [if_pos h]
      exact Int.tmod_eq_emod_of_nonneg (abs_nonneg v)
    · rw [if_neg h]
      simp only [maxMagnitude] at h
      exact (Int.emod_eq_of_lt (abs_nonneg v) (by simp only [signBit]; omega)).symm
  simp only [intToWord, habs, hreduced, SignMagnitude.encode_wrap (by decide : 0 < signBit)]
  rfl

def IsArithmetic (op : OpCode) : Prop := op = .sum ∨ op = .res ∨ op = .mult ∨ op = .divi

def exactResult (a b : Int) : OpCode → Int
  | .sum => a + b
  | .res => a - b
  | .mult => a * b
  | .divi => a.tdiv b
  | _ => 0

def withResult (r : Int) (m : Machine) : Machine :=
  let m := { m with
    cpu.ac := encode signBit (wrap signBit r)
    cpu.psw.conditionCode := resultCode r }
  if maxMagnitude < |r| then raiseInterruptRelated .overflow r m else m

def FitsSigned (n : Nat) (x : Int) : Prop := -2 ^ n ≤ x ∧ x < 2 ^ n

/-- The C expressions behind an arithmetic instruction stay in their types: both operands, the
`int64_t` result, and the `int` that `intToWord` gets and negates. -/
structure NoIntermediateOverflow (a b : Int) (op : OpCode) : Prop where
  left : FitsSigned 31 a
  right : FitsSigned 31 b
  result : FitsSigned 63 (exactResult a b op)
  converted : FitsSigned 31
    (if op = .mult then (exactResult a b op).tmod signBit else exactResult a b op)
  negated : FitsSigned 31
    (-if op = .mult then (exactResult a b op).tmod signBit else exactResult a b op)

theorem abs_word_to_int (w : Int) : |wordToInt w| ≤ 9999999 := by
  have h := SignMagnitude.abs_decode_lt (by decide : 0 < signBit) w
  rw [← word_to_int_decode] at h
  simp only [signBit] at h
  omega

theorem to_int32_of_small {x : Int} (h : |x| < 2147483648) : toInt32 x = x := by
  have := abs_lt.mp h
  rw [toInt32]
  omega

theorem abs_tdiv_le (a b : Int) : |a.tdiv b| ≤ |a| := by
  rw [Int.abs_eq_natAbs, Int.abs_eq_natAbs]
  exact_mod_cast Int.natAbs_tdiv_le_natAbs a b

theorem abs_exact_small {a b : Int} (ha : |a| ≤ 9999999) (hb : |b| ≤ 9999999) {op : OpCode}
    (hop : op ≠ .mult) : |exactResult a b op| ≤ 19999998 := by
  cases op
  case mult => exact absurd rfl hop
  case sum => exact (abs_add_le a b).trans (by omega)
  case res => exact (abs_sub a b).trans (by omega)
  case divi => exact (abs_tdiv_le a b).trans (by omega)
  all_goals exact (abs_zero (α := Int)).trans_le (by decide)

theorem abs_exact {a b : Int} (ha : |a| ≤ 9999999) (hb : |b| ≤ 9999999) (op : OpCode) :
    |exactResult a b op| ≤ 99999980000001 := by
  by_cases hop : op = .mult
  · rw [hop, exactResult, abs_mul]
    calc |a| * |b| ≤ 9999999 * 9999999 := by gcongr
      _ = 99999980000001 := by norm_num
  · exact (abs_exact_small ha hb hop).trans (by decide)

theorem fits_int {x : Int} (h : |x| < 2147483648) : FitsSigned 31 x := by
  have := abs_lt.mp h
  norm_num [FitsSigned]
  omega

theorem no_intermediate_overflow {a b : Int} (ha : |a| ≤ 9999999) (hb : |b| ≤ 9999999)
    (op : OpCode) : NoIntermediateOverflow a b op := by
  have converted : |if op = .mult then (exactResult a b op).tmod signBit
      else exactResult a b op| < 2147483648 := by
    split_ifs with hop
    · rw [← SignMagnitude.wrap_eq_tmod]
      exact (SignMagnitude.abs_wrap_lt (by decide) _).trans (by decide)
    · exact (abs_exact_small ha hb hop).trans_lt (by decide)
  refine ⟨fits_int (by omega), fits_int (by omega), ?_, fits_int converted,
    fits_int (by rwa [abs_neg])⟩
  have := abs_le.mp (abs_exact ha hb op)
  norm_num [FitsSigned]
  omega

/-- Storing a result that `intToWord` reduces itself. -/
theorem store_result {r : Int} (hr : |r| ≤ 19999998) (m : Machine) :
    raiseOnOverflow r (storeAccumulator (toInt32 r) m) = withResult r m := by
  rw [to_int32_of_small (by omega)]
  unfold storeAccumulator raiseOnOverflow withResult
  rw [int_to_word_eq]
  dsimp only
  by_cases h : maxMagnitude < |r|
  · rw [if_pos h, if_pos (by rw [resultCode, if_pos h])]
  · rw [if_neg h, if_neg]
    unfold resultCode
    rw [if_neg h]
    split_ifs <;> decide

/-- MULT reduces its product first and sets the condition code of an overflow by hand. -/
theorem store_product (r : Int) (m : Machine) :
    raiseOnOverflow r (if maxMagnitude < r ∨ r < -maxMagnitude then
        { storeAccumulator (toInt32 (r.tmod (maxMagnitude + 1))) m with
          cpu.psw.conditionCode := .overflow }
      else storeAccumulator (toInt32 (r.tmod (maxMagnitude + 1))) m) = withResult r m := by
  have hlarge : maxMagnitude < r ∨ r < -maxMagnitude ↔ maxMagnitude < |r| := by
    rw [lt_abs]
    omega
  have hmod : r.tmod (maxMagnitude + 1) = wrap signBit r := (SignMagnitude.wrap_eq_tmod _ r).symm
  have hwrap := SignMagnitude.abs_wrap_lt (by decide : 0 < signBit) r
  by_cases h : maxMagnitude < |r|
  · rw [if_pos (hlarge.mpr h), hmod, to_int32_of_small (hwrap.trans (by decide))]
    unfold storeAccumulator raiseOnOverflow withResult
    rw [int_to_word_eq, SignMagnitude.wrap_wrap (by decide)]
    dsimp only
    rw [if_pos h, if_pos rfl, resultCode, if_pos h]
  · have hsmall : |r| < signBit := by
      simp only [maxMagnitude, signBit] at h ⊢
      omega
    rw [if_neg (fun hn => h (hlarge.mp hn)), hmod, SignMagnitude.wrap_of_small hsmall]
    apply store_result
    simp only [signBit] at hsmall
    omega

/-- The flags of a conversion do not outlive the result. -/
theorem with_result_flags (r : Int) (m : Machine) (cc : ConditionCode) :
    withResult r { m with cpu.psw.conditionCode := cc } = withResult r m := by
  unfold withResult
  split_ifs <;> rfl

/-- What an arithmetic instruction does with its operand. -/
theorem arithmetic_eq {inst : Instruction} {m : Machine} {w : Int}
    (hop : IsArithmetic inst.opCode) (hw : operandWord inst m = some w)
    (hdiv : inst.opCode = .divi → wordToInt w ≠ 0) :
    executeArithmetic inst m =
      (.success, withResult (exactResult (wordToInt m.cpu.ac) (wordToInt w) inst.opCode) m) := by
  have ha := abs_word_to_int m.cpu.ac
  have hb := abs_word_to_int w
  have stored : ∀ op, op ≠ OpCode.mult → raiseOnOverflow _ (storeAccumulator _
      { m with cpu.psw.conditionCode := operandFlags inst m }) = _ :=
    fun op hne => (store_result (@abs_exact_small _ _ ha hb op hne) _).trans
      (with_result_flags _ m _)
  unfold executeArithmetic
  rw [fetch_of_operand hw]
  rcases hop with h | h | h | h <;> simp only [h]
  · exact congrArg (Prod.mk _) (stored .sum (by decide))
  · exact congrArg (Prod.mk _) (stored .res (by decide))
  · exact congrArg (Prod.mk _) ((store_product _ _).trans (with_result_flags _ m _))
  · rw [if_neg (hdiv h)]
    exact congrArg (Prod.mk _) (stored .divi (by decide))

/-- The accumulator, the condition code and the pending interrupts after an arithmetic
instruction with the exact result `r`. -/
structure ExactOutcome (r : Int) (m n : Machine) : Prop where
  canonical : n.cpu.ac = encode signBit (r.sign * (|r| % 10000000))
  value : wordToInt n.cpu.ac = r.sign * (|r| % 10000000)
  oneZero : n.cpu.ac ≠ 10000000
  code : n.cpu.psw.conditionCode = resultCode r
  raised : n.interruptBitmap =
    if maxMagnitude < |r| then insert .overflow m.interruptBitmap else m.interruptBitmap

theorem with_result_exact (r : Int) (m : Machine) : ExactOutcome r m (withResult r m) := by
  have hwrap := SignMagnitude.abs_wrap_lt (by decide : 0 < signBit) r
  have hac : (withResult r m).cpu.ac = encode signBit (wrap signBit r) := by
    unfold withResult
    split_ifs <;> rfl
  refine ⟨hac, ?_, ?_, ?_, ?_⟩
  · rw [hac, word_to_int_decode]
    exact SignMagnitude.decode_encode hwrap
  · rw [hac]
    exact SignMagnitude.encode_ne_negative_zero hwrap
  all_goals
    unfold withResult
    split_ifs <;> rfl

/-- The result an overflow is to be handled with is the one the instruction left. -/
theorem with_result_value {r : Int} (m : Machine) (h : maxMagnitude < |r|) :
    (withResult r m).interruptValue = r ∧ .overflow ∈ (withResult r m).interruptBitmap := by
  unfold withResult
  rw [if_pos h]
  exact ⟨rfl, Finset.mem_insert_self _ _⟩

/-- The handler of an overflow rebuilds the accumulator the instruction has left. -/
theorem rebuilt_accumulator (r : Int) :
    (intToWord (toInt32 (r.tmod (maxMagnitude + 1)))).1 = encode signBit (wrap signBit r) := by
  have hmod : r.tmod (maxMagnitude + 1) = wrap signBit r := (SignMagnitude.wrap_eq_tmod _ r).symm
  have hwrap := SignMagnitude.abs_wrap_lt (by decide : 0 < signBit) r
  rw [hmod, to_int32_of_small (hwrap.trans (by decide)), int_to_word_eq,
    SignMagnitude.wrap_wrap (by decide)]

theorem entered_value (s : System) : (entered s).hw.interruptValue = s.hw.interruptValue := by
  rw [entered, save_machine]
  rfl

/-- The register file after a handled overflow: AC is rebuilt from the remembered value. -/
theorem overflow_taken (u : Unspecified) {s : System}
    (he : s.hw.cpu.psw.interruptEnable = .enabled)
    (hc : codeToHandle s.hw.interruptBitmap = .overflow) (hp : s.hw.interruptBitmap ≠ ∅)
    (hw : FrameWritable s.hw.cpu) (hv : FrameValid s.hw.cpu) :
    (checkInterrupts u s).1 = true ∧ (checkInterrupts u s).2.hw.cpu =
      { s.hw.cpu with ac := encode signBit (wrap signBit s.hw.interruptValue) } := by
  have kept : FrameKept (interrupted s.hw) (storeAccumulator
      (toInt32 ((entered s).hw.interruptValue.tmod (maxMagnitude + 1))) (entered s).hw) :=
    (handled_accumulator (interrupted s.hw) _).toFrameKept
  rw [check_interrupts_taken u hp he, hc]
  refine ⟨rfl, ?_⟩
  change (leave .overflow true { entered s with hw := (storeAccumulator
    (toInt32 ((entered s).hw.interruptValue.tmod (maxMagnitude + 1))) (entered s).hw) }).hw.cpu = _
  rw [leave_kept hw hv he kept, if_neg (fun h => h.1 rfl)]
  have hpc := entered_pc hw hv
  have hac := rebuilt_accumulator s.hw.interruptValue
  rw [← entered_value s] at hac ⊢
  change { s.hw.cpu with
    ac := (intToWord (toInt32 ((entered s).hw.interruptValue.tmod (maxMagnitude + 1)))).1
    psw.pc := (entered s).hw.ram (translate s.hw.cpu (s.hw.cpu.sp - 6)) } = _
  rw [hac, hpc]

/-- An overflow that is pending is handled now: interrupts are enabled, nothing takes precedence
and the frame can be stored. -/
structure HandlesOverflow (m : Machine) : Prop where
  enabled : m.cpu.psw.interruptEnable = .enabled
  noInvalidInstr : .invalidInstr ∉ m.interruptBitmap
  noInvalidAddr : .invalidAddr ∉ m.interruptBitmap
  writable : FrameWritable m.cpu
  valid : FrameValid m.cpu

theorem HandlesOverflow.code {m : Machine} (h : HandlesOverflow m)
    (ho : .overflow ∈ m.interruptBitmap) : codeToHandle m.interruptBitmap = .overflow := by
  rw [codeToHandle, if_neg h.noInvalidInstr, if_neg h.noInvalidAddr, if_pos ho]

theorem count_cycle_value (m : Machine) : (countCycle m).interruptValue = m.interruptValue := by
  unfold countCycle
  dsimp only
  split_ifs <;> rfl

theorem count_cycle_pending {m : Machine} {code : InterruptCode} (h : code ∈ m.interruptBitmap) :
    code ∈ (countCycle m).interruptBitmap := by
  unfold countCycle
  dsimp only
  split_ifs
  · exact Finset.mem_insert_of_mem h
  · exact h

def Overflowing (inst : Instruction) (m : Machine) (r : Int) : Prop :=
  IsArithmetic inst.opCode ∧ maxMagnitude < |r| ∧ ∃ w, operandWord inst m = some w ∧
    r = exactResult (wordToInt m.cpu.ac) (wordToInt w) inst.opCode

/-- Such an instruction leaves an overflow pending whose value belongs to the accumulator. -/
theorem after_overflow (u : Unspecified) {inst : Instruction} {m : Machine} {r : Int}
    (h : Overflowing inst m r) :
    (afterInstruction u inst m).interruptValue = r ∧
      .overflow ∈ (afterInstruction u inst m).interruptBitmap ∧
      (afterInstruction u inst m).cpu.ac = encode signBit (wrap signBit r) := by
  obtain ⟨hop, hlarge, w, hw, rfl⟩ := h
  have hdiv : inst.opCode = .divi → wordToInt w ≠ 0 := by
    intro hdivi hzero
    simp [hdivi, hzero, exactResult] at hlarge
  have hhandler : handler u inst m = executeArithmetic inst m := by
    unfold handler
    rcases hop with h | h | h | h <;> rw [h]
  rw [afterInstruction, hhandler, arithmetic_eq hop hw hdiv]
  generalize exactResult (wordToInt m.cpu.ac) (wordToInt w) inst.opCode = r at hlarge
  obtain ⟨hvalue, hraised⟩ := with_result_value m hlarge
  obtain ⟨y, hcpu⟩ := count_cycle_cpu (withResult r m)
  refine ⟨by rw [count_cycle_value, hvalue], count_cycle_pending hraised, ?_⟩
  rw [hcpu]
  exact (with_result_exact r m).canonical

/-- Arithmetic is exact, and handling the overflow in the same step leaves no trace in the
registers. -/
theorem arithmetic_exact :
    (∀ (inst : Instruction) (m : Machine) (w : Int), IsArithmetic inst.opCode →
      operandWord inst m = some w → (inst.opCode = .divi → wordToInt w ≠ 0) →
      NoIntermediateOverflow (wordToInt m.cpu.ac) (wordToInt w) inst.opCode ∧
      ExactOutcome (exactResult (wordToInt m.cpu.ac) (wordToInt w) inst.opCode) m
        (executeArithmetic inst m).2) ∧
    ∀ (u : Unspecified) (s : System) (inst : Instruction) (m : Machine) (r : Int),
      fetched s.hw = some (inst, m) → Overflowing inst m r →
      HandlesOverflow (afterInstruction u inst m) →
      (cpuStep u s).1 = true ∧ (cpuStep u s).2.hw.cpu = (afterInstruction u inst m).cpu := by
  constructor
  · intro inst m w hop hw hdiv
    rw [arithmetic_eq hop hw hdiv]
    exact ⟨no_intermediate_overflow (abs_word_to_int _) (abs_word_to_int _) _,
      with_result_exact _ m⟩
  · intro u s inst m r hf hover hhandles
    obtain ⟨hvalue, hpending, hac⟩ := after_overflow u hover
    have taken := overflow_taken u (s := { s with hw := afterInstruction u inst m })
      hhandles.enabled (hhandles.code hpending) (Finset.ne_empty_of_mem hpending)
      hhandles.writable hhandles.valid
    rw [cpu_step_fetched u hf]
    refine ⟨taken.1, taken.2.trans ?_⟩
    dsimp only
    rw [hvalue, ← hac]

def addsOne : System :=
  { boot zeroKeys with hw := { (boot zeroKeys).hw with
    cpu := { Cpu.zero with
      ac := 9999999, rb := 300, rl := 384, sp := 84, psw.interruptEnable := .enabled }
    ram := fun x => if x = 300 then 100001 else 0 } }

theorem arithmetic_exact_adds_one :
    ExactOutcome 10000000 addsOne.hw (executeArithmetic ⟨.sum, .immediate, 1⟩ addsOne.hw).2 ∧
      (cpuStep zeros addsOne).2.hw.cpu.ac = 0 := by
  obtain ⟨exact, delivered⟩ := arithmetic_exact
  have outcome := exact ⟨.sum, .immediate, 1⟩ addsOne.hw 1 (Or.inl rfl) rfl nofun
  refine ⟨outcome.2, ?_⟩
  have handles : HandlesOverflow (afterInstruction zeros ⟨.sum, .immediate, 1⟩
      (fetch addsOne.hw).2) := by
    refine ⟨by decide, by decide, by decide, ?_, ?_⟩
    · exact frame_writable_user rfl (by decide) (by decide) (by decide) (by decide)
    · exact ⟨by decide, by decide, by decide, by decide, by decide⟩
  have kept := delivered zeros addsOne ⟨.sum, .immediate, 1⟩ (fetch addsOne.hw).2 10000000 rfl
    ⟨Or.inl rfl, by decide, 1, rfl, rfl⟩ handles
  rw [kept.2]
  rfl

end Lucario.Proofs
