import Lucario.Proofs.ExactArithmetic
import Lucario.Proofs.FaultAttribution

namespace Lucario.Proofs

def Adds (A : InterruptCode → Prop) (m n : Machine) : Prop :=
  ∀ c ∈ n.interruptBitmap, c ∈ m.interruptBitmap ∨ A c

def Raisable (op : OpCode) (c : InterruptCode) : Prop :=
  Fatal c ∨ c = .overflow ∧ IsArithmetic op ∨ c = .syscall ∧ op = .svc ∨ c = .ioDone ∧ op = .sdmaon

section

variable {A : InterruptCode → Prop} {u : Unspecified} {inst : Instruction} {m n : Machine}

theorem Adds.of_same (h : n.interruptBitmap = m.interruptBitmap) : Adds A m n := by
  intro c hc
  exact Or.inl (h ▸ hc)

theorem Adds.raise (h : Adds A m n) {code : InterruptCode} (hcode : A code) :
    Adds A m (raiseInterrupt code n) := by
  intro c hc
  rcases Finset.mem_insert.mp hc with rfl | hc
  · exact Or.inr hcode
  · exact h c hc

theorem Adds.mono {B : InterruptCode → Prop} (h : Adds A m n) (hAB : ∀ c, A c → B c) :
    Adds B m n := fun c hc => (h c hc).imp_right (hAB c)

theorem fatal_addr : Fatal .invalidAddr := Or.inr rfl

theorem fatal_instr : Fatal .invalidInstr := Or.inl rfl

theorem fetch_adds (inst : Instruction) (m : Machine) : Adds Fatal m (fetchOperand inst m).2 := by
  rcases fetch_operand_found inst m with ⟨w, cc, -, hf⟩ | ⟨code, hcode, hf⟩ <;> rw [hf]
  · exact .of_same rfl
  · exact (Adds.of_same rfl).raise hcode

/-- LOAD and the instructions that program the device raise nothing but faults. -/
theorem load_adds (hop : inst.opCode = .load) : Adds Fatal m (executeDataMovement u inst m).2 := by
  have fetched := fetch_adds inst m
  unfold executeDataMovement
  rw [hop]
  dsimp only
  generalize fetchOperand inst m = f at fetched ⊢
  obtain ⟨operand, n⟩ := f
  have loaded : ∀ ac, Adds Fatal m (updatePSWFlags { n with cpu.ac := ac }) := fun ac => fetched
  cases operand with
  | none => exact (loaded u.data).raise fatal_addr
  | some w => exact loaded w

theorem programming_adds (hop : ForDma inst.opCode) (hon : inst.opCode ≠ .sdmaon) :
    Adds Fatal m (executeDMAInstruction u inst m).2 := by
  have fetched := fetch_adds inst m
  have done := fun operand n (hf : fetchOperand inst m = (operand, n)) =>
    dma_execute_eq u inst hf hop rfl
  generalize fetchOperand inst m = f at fetched done
  obtain ⟨operand, n⟩ := f
  rcases done operand n rfl with ⟨-, -, he⟩ | ⟨-, -, he⟩ | ⟨-, -, k, hset, -, he⟩ <;> rw [he]
  · exact fetched.raise fatal_instr
  · exact fetched.raise fatal_addr
  · have programmed : Adds Fatal m k := by
      rw [hset hon]
      exact fetched
    split_ifs
    · exact programmed.raise fatal_addr
    · exact programmed

/-- A transfer ends with its completion or with a fault. -/
theorem transfer_adds (hop : inst.opCode = .sdmaon) :
    Adds (Raisable inst.opCode) m (executeDMAInstruction u inst m).2 := by
  have fetched := (fetch_adds inst m).mono (fun _ => (Or.inl : _ → Raisable inst.opCode _))
  unfold executeDMAInstruction
  rw [hop]
  dsimp only
  generalize fetchOperand inst m = f at fetched ⊢
  obtain ⟨operand, n⟩ := f
  rw [hop] at fetched
  have transferred : Adds (Raisable .sdmaon) m (dmaTransfer { n with dma.pending := true }) := by
    intro c hc
    rcases dma_transfer_bitmap { n with dma.pending := true } with hb | hb <;> rw [hb] at hc <;>
      rcases Finset.mem_insert.mp hc with rfl | hc
    · exact Or.inr (Or.inr (Or.inr (Or.inr ⟨rfl, rfl⟩)))
    · exact fetched c hc
    · exact Or.inr (Or.inl fatal_addr)
    · exact fetched c hc
  split_ifs
  · exact transferred.raise (Or.inl fatal_addr)
  · exact transferred

theorem arithmetic_adds (hop : IsArithmetic inst.opCode) :
    Adds (Raisable inst.opCode) m (executeArithmetic inst m).2 := by
  have fetched := (fetch_adds inst m).mono (fun _ => (Or.inl : _ → Raisable inst.opCode _))
  have overflowing : ∀ v n, Adds (Raisable inst.opCode) m n →
      Adds (Raisable inst.opCode) m (raiseOnOverflow v n) := by
    intro v n h
    unfold raiseOnOverflow
    split_ifs
    · exact h.raise (Or.inr (Or.inl ⟨rfl, hop⟩))
    · exact h
  unfold executeArithmetic
  generalize fetchOperand inst m = f at fetched ⊢
  obtain ⟨operand, n⟩ := f
  cases operand with
  | none => exact fetched
  | some w =>
    dsimp only at fetched ⊢
    generalize inst.opCode = op at fetched overflowing ⊢
    cases op
    case sum | res => exact overflowing _ _ fetched
    case mult =>
      dsimp only
      refine overflowing _ _ ?_
      split_ifs <;> exact fetched
    case divi =>
      dsimp only
      split_ifs
      · exact fetched.raise (Or.inl fatal_instr)
      · exact overflowing _ _ fetched
    all_goals exact fetched.raise (Or.inl fatal_instr)

theorem write_adds (a v : Int) (h : Adds Fatal m n) :
    Adds Fatal m (finishWrite n (writeMemory a v n)).2 := by
  by_cases hw : Accessible n.cpu a ∧ isValidInstruction v
  · rw [write_accessible hw.1 hw.2]
    exact h
  · obtain ⟨status, hs⟩ := write_refused hw
    rw [hs]
    exact h.raise fatal_addr

theorem movement_adds : Adds Fatal m (executeDataMovement u inst m).2 := by
  by_cases hop : inst.opCode = .load
  · exact load_adds hop
  · unfold executeDataMovement
    cases ho : inst.opCode
    case load => exact absurd ho hop
    case str =>
      dsimp only
      split_ifs
      · exact (Adds.of_same rfl).raise fatal_instr
      · exact write_adds _ _ (.of_same rfl)
    case strsp => exact write_adds _ _ (.of_same rfl)
    case strrx | strrb | strrl | loadrx | loadrb | loadrl | loadsp => exact .of_same rfl
    all_goals exact (Adds.of_same rfl).raise fatal_instr

theorem branching_adds : Adds Fatal m (executeBranching inst m).2 := by
  unfold executeBranching
  dsimp only
  split_ifs
  · exact .of_same rfl
  · cases readMemory m.cpu.sp m with
    | error status => exact (Adds.of_same rfl).raise fatal_addr
    | ok w =>
      dsimp only
      cases inst.opCode
      case jmpe | jmpne | jmplt | jmplgt =>
        dsimp only
        split_ifs <;> exact .of_same rfl
      all_goals exact (Adds.of_same rfl).raise fatal_instr

theorem stack_adds : Adds Fatal m (executeStackManipulation inst m).2 := by
  unfold executeStackManipulation
  cases inst.opCode
  case psh =>
    dsimp only
    split_ifs
    · exact (Adds.of_same rfl).raise fatal_addr
    · exact write_adds _ _ (.of_same rfl)
  case pop =>
    dsimp only
    split_ifs
    · exact (Adds.of_same rfl).raise fatal_addr
    · exact .of_same rfl
  all_goals exact (Adds.of_same rfl).raise fatal_instr

/-- What an instruction may add to the pending interrupts. -/
theorem handler_adds : Adds (Raisable inst.opCode) m (handler u inst m).2 := by
  have fatal : ∀ {n}, Adds Fatal m n → Adds (Raisable inst.opCode) m n :=
    fun h => h.mono (fun _ => Or.inl)
  have quiet : ∀ {n : Machine}, n.interruptBitmap = m.interruptBitmap →
      Adds (Raisable inst.opCode) m n := Adds.of_same
  have arithmetic : IsArithmetic inst.opCode →
      Adds (Raisable inst.opCode) m (executeArithmetic inst m).2 := arithmetic_adds
  have transfer : inst.opCode = .sdmaon →
      Adds (Raisable inst.opCode) m (executeDMAInstruction u inst m).2 := transfer_adds
  unfold handler
  cases hop : inst.opCode <;> rw [hop] at fatal quiet arithmetic transfer
  case sum | res | mult | divi => exact arithmetic (by simp [IsArithmetic])
  case sdmaon => exact transfer rfl
  case svc => exact (Adds.of_same rfl).raise (Or.inr (Or.inr (Or.inl ⟨rfl, rfl⟩)))
  case load | str | loadrx | strrx => exact fatal movement_adds
  case loadrb | strrb | loadrl | strrl | loadsp | strsp => exact fatal movement_adds
  case comp =>
    have fetched := fetch_adds inst m
    unfold executeComparison
    generalize fetchOperand inst m = f at fetched ⊢
    obtain ⟨operand, n⟩ := f
    cases operand <;> exact fatal fetched
  case jmpe | jmpne | jmplt | jmplgt | j => exact fatal branching_adds
  case retrn =>
    unfold executeReturn
    cases readMemory m.cpu.sp m with
    | error status => exact fatal ((Adds.of_same rfl).raise fatal_addr)
    | ok w => exact quiet rfl
  case hab | dhab =>
    unfold executeInterruptsChange
    rw [hop]
    exact quiet rfl
  case tti =>
    have fetched := fetch_adds inst m
    unfold executeTimerInterval
    generalize fetchOperand inst m = f at fetched ⊢
    obtain ⟨operand, n⟩ := f
    cases operand <;> exact fatal fetched
  case chmod =>
    unfold executeChangeMode
    split_ifs
    · exact quiet rfl
    · exact quiet rfl
    · exact fatal ((Adds.of_same rfl).raise fatal_instr)
  case psh | pop => exact fatal stack_adds
  case invalid => exact fatal ((Adds.of_same rfl).raise fatal_instr)
  all_goals exact fatal (programming_adds (by simp [ForDma, hop]) (by rw [hop]; decide))

theorem raised_raisable {c : InterruptCode} (hc : c ∈ raised u inst m) : Raisable inst.opCode c :=
  (handler_adds (m := { m with interruptBitmap := ∅ }) c hc).resolve_left (Finset.notMem_empty c)

/-- An instruction other than SDMAON raises a fault, an overflow or a system call, and unless it
faults twice no two of them. -/
theorem raised_single (hon : inst.opCode ≠ .sdmaon) (htwice : ¬ FaultsTwice u inst m.cpu) :
    raised u inst m = ∅ ∨ ∃ c, Raisable inst.opCode c ∧ raised u inst m = {c} := by
  by_cases hfault : inst.opCode = .load ∨ ForDma inst.opCode
  · have fatal : ∀ c ∈ raised u inst m, Fatal c := by
      intro c hc
      have added : Adds Fatal { m with interruptBitmap := ∅ }
          (handler u inst { m with interruptBitmap := ∅ }).2 := by
        rcases hfault with hop | hop
        · have hh : handler u inst { m with interruptBitmap := ∅ } =
              executeDataMovement u inst { m with interruptBitmap := ∅ } := by
            unfold handler
            rw [hop]
          rw [hh]
          exact load_adds hop
        · rw [dma_handler u _ hop]
          exact programming_adds hop hon
      exact (added c hc).resolve_left (Finset.notMem_empty c)
    have single : AtMostOne (raised u inst m) := not_not.mp (mt (raised_faults u inst m).mp htwice)
    rcases (raised u inst m).eq_empty_or_nonempty with he | ⟨c, hc⟩
    · exact Or.inl he
    · refine Or.inr ⟨c, Or.inl (fatal c hc), Finset.eq_singleton_iff_unique_mem.mpr ⟨hc, ?_⟩⟩
      intro d hd
      rcases fatal c hc with rfl | rfl <;> rcases fatal d hd with rfl | rfl
      · rfl
      · exact absurd ⟨hc, hd⟩ single
      · exact absurd ⟨hd, hc⟩ single
      · rfl
  · obtain ⟨hload, hdma⟩ := not_or.mp hfault
    rcases (handler_performed u inst { m with interruptBitmap := ∅ }).raises hload hdma with
      hr | ⟨c, hr⟩
    · exact Or.inl hr
    · have hmem : c ∈ raised u inst m := by
        rw [raised, hr]
        exact Finset.mem_insert_self _ _
      exact Or.inr ⟨c, raised_raisable hmem, hr⟩

def Reports (m : Machine) (r : InstructionStatus × Machine) : Prop :=
  r.1 = .success → Adds (fun c => ¬ Fatal c) m r.2

theorem Reports.failed (code : InterruptCode) (n : Machine) : Reports m (failWith code n) := nofun

theorem Reports.done (h : n.interruptBitmap = m.interruptBitmap) : Reports m (.success, n) :=
  fun _ => .of_same h

theorem write_reports (a v : Int) (h : n.interruptBitmap = m.interruptBitmap) :
    Reports m (finishWrite n (writeMemory a v n)) := by
  by_cases hw : Accessible n.cpu a ∧ isValidInstruction v
  · rw [write_accessible hw.1 hw.2]
    exact .done h
  · obtain ⟨status, hs⟩ := write_refused hw
    rw [hs]
    exact .failed _ _

theorem arithmetic_reports : Reports m (executeArithmetic inst m) := by
  have overflowing : ∀ v n, n.interruptBitmap = m.interruptBitmap →
      Reports m (.success, raiseOnOverflow v n) := by
    intro v n h _
    unfold raiseOnOverflow
    split_ifs
    · exact (Adds.of_same h).raise (by simp [Fatal])
    · exact .of_same h
  unfold executeArithmetic
  rcases fetch_operand_found inst m with ⟨w, cc, -, hf⟩ | ⟨code, -, hf⟩ <;> rw [hf]
  · dsimp only
    cases inst.opCode
    case sum | res => exact overflowing _ _ rfl
    case mult =>
      refine overflowing _ _ ?_
      split_ifs <;> rfl
    case divi =>
      dsimp only
      split_ifs
      · exact nofun
      · exact overflowing _ _ rfl
    all_goals exact .failed _ _
  · exact nofun

theorem movement_reports
    (hop : inst.opCode ∈ [.str, .load, .strrx, .strrb, .strrl, .strsp, .loadrx, .loadrb, .loadrl,
      .loadsp]) : Reports m (executeDataMovement u inst m) := by
  unfold executeDataMovement
  simp only [List.mem_cons, List.not_mem_nil, or_false] at hop
  rcases hop with ho | ho | ho | ho | ho | ho | ho | ho | ho | ho <;> rw [ho]
  · dsimp only
    split_ifs
    · exact .failed _ _
    · exact write_reports _ _ rfl
  · rcases fetch_operand_found inst m with ⟨w, cc, -, hf⟩ | ⟨code, -, hf⟩ <;> rw [hf]
    · exact .done rfl
    · exact .failed _ _
  case inr.inr.inr.inr.inr.inl => exact write_reports _ _ rfl
  all_goals exact .done rfl

theorem branching_reports (hop : inst.opCode ∈ [.jmpe, .jmpne, .jmplt, .jmplgt, .j]) :
    Reports m (executeBranching inst m) := by
  unfold executeBranching
  dsimp only
  split_ifs with hj
  · exact .done rfl
  · cases readMemory m.cpu.sp m with
    | error status => exact .failed _ _
    | ok w =>
      simp only [List.mem_cons, List.not_mem_nil, or_false] at hop
      rcases hop with ho | ho | ho | ho | ho
      case inr.inr.inr.inr => exact absurd ho hj
      all_goals
        simp only [ho]
        refine .done ?_
        split_ifs <;> rfl

theorem device_reports (hop : ForDma inst.opCode) (hon : inst.opCode ≠ .sdmaon) :
    Reports m (executeDMAInstruction u inst m) := by
  rcases fetch_operand_found inst m with ⟨w, cc, -, hf⟩ | ⟨code, -, hf⟩
  · rcases dma_execute_eq u inst hf hop rfl with ⟨-, -, he⟩ | ⟨-, -, he⟩ | ⟨-, -, k, hset, -, he⟩ <;>
      rw [he]
    · exact .failed _ _
    · exact .failed _ _
    · rw [hset hon]
      exact .done rfl
  · rcases dma_execute_eq u inst hf hop rfl with ⟨-, -, he⟩ | ⟨-, -, he⟩ | ⟨-, -, k, hset, -, he⟩ <;>
      rw [he] <;> exact .failed _ _

theorem handler_reports (hon : inst.opCode ≠ .sdmaon) : Reports m (handler u inst m) := by
  unfold handler
  cases hop : inst.opCode
  case sum | res | mult | divi => exact arithmetic_reports
  case load | str | loadrx | strrx => exact movement_reports (by simp [hop])
  case loadrb | strrb | loadrl | strrl | loadsp | strsp => exact movement_reports (by simp [hop])
  case comp =>
    unfold executeComparison
    rcases fetch_operand_found inst m with ⟨w, cc, -, hf⟩ | ⟨code, -, hf⟩ <;> rw [hf]
    · exact .done rfl
    · exact nofun
  case tti =>
    unfold executeTimerInterval
    rcases fetch_operand_found inst m with ⟨w, cc, -, hf⟩ | ⟨code, -, hf⟩ <;> rw [hf]
    · exact .done rfl
    · exact nofun
  case jmpe | jmpne | jmplt | jmplgt | j => exact branching_reports (by simp [hop])
  case svc => exact fun _ => (Adds.of_same rfl).raise (by simp [Fatal])
  case retrn =>
    unfold executeReturn
    cases readMemory m.cpu.sp m with
    | error status => exact .failed _ _
    | ok w => exact .done rfl
  case hab | dhab =>
    unfold executeInterruptsChange
    rw [hop]
    exact .done rfl
  case chmod =>
    unfold executeChangeMode
    split_ifs
    · exact .done rfl
    · exact .done rfl
    · exact .failed _ _
  case psh =>
    unfold executeStackManipulation
    rw [hop]
    dsimp only
    split_ifs
    · exact .failed _ _
    · exact write_reports _ _ rfl
  case pop =>
    unfold executeStackManipulation
    rw [hop]
    dsimp only
    split_ifs
    · exact .failed _ _
    · exact .done rfl
  case invalid => exact .failed _ _
  case sdmaon => exact absurd hop hon
  all_goals exact device_reports (by simp [ForDma, hop]) (by rw [hop]; decide)

/-- What uninitialised locals hold does not show in what succeeds. -/
theorem handler_unspecified {u : Unspecified} {inst : Instruction} {m : Machine} (u' : Unspecified)
    (hs : (handler u inst m).1 = .success) : handler u' inst m = handler u inst m := by
  have movement : (executeDataMovement u inst m).1 = .success →
      executeDataMovement u' inst m = executeDataMovement u inst m := by
    unfold executeDataMovement
    cases inst.opCode
    case load =>
      dsimp only
      generalize fetchOperand inst m = f
      obtain ⟨operand, n⟩ := f
      cases operand with
      | none => exact fun hs => absurd hs (by simp [failWith])
      | some w => exact fun _ => rfl
    all_goals exact fun _ => rfl
  by_cases hop : ForDma inst.opCode
  · rw [dma_handler u _ hop] at hs ⊢
    rw [dma_handler u' _ hop]
    rcases fetch_operand_found inst m with ⟨w, cc, -, hf⟩ | ⟨code, -, hf⟩
    · unfold executeDMAInstruction
      rw [hf]
      rfl
    · rcases dma_execute_eq u inst hf hop rfl with ⟨-, -, he⟩ | ⟨-, -, he⟩ | ⟨-, -, k, -, -, he⟩ <;>
        rw [he] at hs <;> cases hs
  · unfold handler at hs ⊢
    cases ho : inst.opCode <;> rw [ho] at hs
    case sdmap | sdmac | sdmas | sdmaio | sdmam | sdmaon =>
      exact absurd (by simp [ForDma, ho]) hop
    all_goals exact movement hs

/-- Nor does it decide about success. -/
theorem handler_status (u u' : Unspecified) (inst : Instruction) (m : Machine) :
    (handler u inst m).1 = (handler u' inst m).1 := by
  by_cases hs : (handler u inst m).1 = .success
  · rw [handler_unspecified u' hs]
  · by_cases hs' : (handler u' inst m).1 = .success
    · rw [handler_unspecified u hs']
    · cases h : (handler u inst m).1 with
      | success => exact absurd h hs
      | fail =>
        cases h' : (handler u' inst m).1 with
        | success => exact absurd h' hs'
        | fail => rfl

end

end Lucario.Proofs
