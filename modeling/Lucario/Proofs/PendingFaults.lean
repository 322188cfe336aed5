import Lucario.Proofs.InstructionFrame

namespace Lucario.Proofs

def addPending (more : Finset InterruptCode) (m : Machine) : Machine :=
  { m with interruptBitmap := m.interruptBitmap ∪ more }

theorem add_pending_unnoticed (more : Finset InterruptCode) :
    Unnoticed (fun _ => True) (addPending more) where
  view _ _ _ _ := trivial
  cpu _ := rfl
  setCpu _ _ := rfl
  raise m code := by
    simp only [addPending, raiseInterrupt, Finset.insert_union]
  related m code v := by
    simp only [addPending, raiseInterruptRelated, Finset.insert_union]
  load _ _ _ _ := rfl
  store _ _ _ _ _ := rfl

theorem dma_transfer_pending (more : Finset InterruptCode) (m : Machine) :
    dmaTransfer (addPending more m) = addPending more (dmaTransfer m) := by
  rw [dma_transfer_eq, dma_transfer_eq]
  by_cases hv : isPhysicalAddressValid m.dma.memAddr
  · have hv' : isPhysicalAddressValid (addPending more m).dma.memAddr := hv
    by_cases hd : m.dma.ioDirection = 1
    · have hd' : (addPending more m).dma.ioDirection = 1 := hd
      rw [if_pos hv, if_pos hv', if_pos hd, if_pos hd']
      rw [(add_pending_unnoticed more).raise]
      rfl
    · have hd' : (addPending more m).dma.ioDirection ≠ 1 := hd
      rw [if_pos hv, if_pos hv', if_neg hd, if_neg hd']
      rw [(add_pending_unnoticed more).raise]
      rfl
  · have hv' : ¬ isPhysicalAddressValid (addPending more m).dma.memAddr := hv
    rw [if_neg hv, if_neg hv']
    rw [(add_pending_unnoticed more).raise]
    rfl

def raised (u : Unspecified) (inst : Instruction) (m : Machine) : Finset InterruptCode :=
  (handler u inst { m with interruptBitmap := ∅ }).2.interruptBitmap

/-- An instruction adds what it raises to what is pending, whatever that is. -/
theorem handler_bitmap (u : Unspecified) (inst : Instruction) (m : Machine) :
    (handler u inst m).2.interruptBitmap = raised u inst m ∪ m.interruptBitmap := by
  have hm : m = addPending m.interruptBitmap { m with interruptBitmap := ∅ } := by
    simp [addPending]
  have carried := (add_pending_unnoticed m.interruptBitmap).handler
    (m := { m with interruptBitmap := ∅ }) trivial u inst
    (fun _ => ⟨fun _ => rfl, fun _ _ => rfl⟩)
    (fun _ n => dma_transfer_pending m.interruptBitmap n)
  unfold Carries at carried
  rw [← hm] at carried
  rw [carried]
  rfl

def BadAddress (inst : Instruction) (cpu : Cpu) : Prop :=
  (inst.direction = .direct ∨ inst.direction = .indexed) ∧
    ¬ Accessible cpu (calculateEffectiveAddress cpu inst)

theorem fetch_bad_mode {inst : Instruction} (h : inst.direction = .invalid) (m : Machine) :
    fetchOperand inst m = (none, raiseInterrupt .invalidInstr m) := by
  unfold fetchOperand
  rw [h]

theorem fetch_addressed {inst : Instruction}
    (h : inst.direction = .direct ∨ inst.direction = .indexed) (m : Machine) :
    fetchOperand inst m = (match readMemory (calculateEffectiveAddress m.cpu inst) m with
      | .ok w => (some w, m)
      | .error _ => (none, raiseInterrupt .invalidAddr m)) := by
  unfold fetchOperand
  cases readMemory (calculateEffectiveAddress m.cpu inst) m <;>
    rcases h with h | h <;> simp only [h]

theorem fetch_bad_address {inst : Instruction} {m : Machine} (h : BadAddress inst m.cpu) :
    fetchOperand inst m = (none, raiseInterrupt .invalidAddr m) := by
  obtain ⟨status, hs⟩ := read_inaccessible h.2
  rw [fetch_addressed h.1, hs]

theorem bad_address_mode {inst : Instruction} {cpu : Cpu} (h : BadAddress inst cpu) :
    inst.direction ≠ .invalid := by
  rcases h.1 with h | h <;> rw [h] <;> decide

/-- The outcomes of `fetchOperand`. -/
theorem fetch_operand_cases (inst : Instruction) (m : Machine) :
    (inst.direction ≠ .invalid ∧ ¬ BadAddress inst m.cpu ∧
      ∃ w cc, fetchOperand inst m = (some w, { m with cpu.psw.conditionCode := cc })) ∨
    inst.direction = .invalid ∨ BadAddress inst m.cpu := by
  by_cases hmode : inst.direction = .invalid
  · exact Or.inr (Or.inl hmode)
  by_cases hbad : BadAddress inst m.cpu
  · exact Or.inr (Or.inr hbad)
  refine Or.inl ⟨hmode, hbad, ?_⟩
  have addressed : inst.direction = .direct ∨ inst.direction = .indexed →
      ∃ w cc, fetchOperand inst m = (some w, { m with cpu.psw.conditionCode := cc }) := by
    intro h
    have ha : Accessible m.cpu (calculateEffectiveAddress m.cpu inst) := by
      by_contra ha
      exact hbad ⟨h, ha⟩
    rw [fetch_addressed h, read_accessible ha]
    exact ⟨_, m.cpu.psw.conditionCode, rfl⟩
  cases hd : inst.direction with
  | immediate =>
    refine ⟨(intToWord (toInt32 inst.value)).1, (intToWord (toInt32 inst.value)).2, ?_⟩
    unfold fetchOperand
    rw [hd]
  | direct => exact addressed (Or.inl hd)
  | indexed => exact addressed (Or.inr hd)
  | invalid => exact absurd hd hmode

/-- The instructions that raise both fatal interrupts at once: LOAD with an addressing mode that
does not exist, and a DMA instruction whose operand cannot be fetched and whose check of the
operand it did not get ends the other way. -/
def FaultsTwice (u : Unspecified) (inst : Instruction) (cpu : Cpu) : Prop :=
  inst.opCode = .load ∧ inst.direction = .invalid ∨
    ForDma inst.opCode ∧
      (inst.direction = .invalid ∧ ¬ OutOfRange cpu (wordToInt u.data) inst.opCode ∨
        BadAddress inst cpu ∧ OutOfRange cpu (wordToInt u.data) inst.opCode)

def AtMostOne (pending : Finset InterruptCode) : Prop :=
  ¬ (.invalidInstr ∈ pending ∧ .invalidAddr ∈ pending)

theorem at_most_one_insert {c : InterruptCode} (more : Finset InterruptCode)
    (h : more = ∅ ∨ more = {c}) : AtMostOne (insert c more) := by
  rintro ⟨hi, ha⟩
  rcases h with rfl | rfl <;> simp at hi ha <;> rw [← hi] at ha <;> cases ha

variable {m : Machine}

/-- An instruction other than LOAD and those for the device raises no two interrupts. -/
theorem handler_at_most_one (u : Unspecified) {inst : Instruction} (hload : inst.opCode ≠ .load)
    (hdma : ¬ ForDma inst.opCode) (h : m.interruptBitmap = ∅) :
    AtMostOne (handler u inst m).2.interruptBitmap := by
  rcases (handler_performed u inst m).raises hload hdma with hr | ⟨c, hr⟩ <;> rw [hr, h]
  · simp [AtMostOne]
  · exact at_most_one_insert _ (Or.inl rfl)

/-- LOAD raises both when its mode does not exist: its own failure comes on top of that of
`fetchOperand`. -/
theorem load_faults (u : Unspecified) {inst : Instruction} (hop : inst.opCode = .load)
    (h : m.interruptBitmap = ∅) :
    ¬ AtMostOne (executeDataMovement u inst m).2.interruptBitmap ↔ inst.direction = .invalid := by
  unfold executeDataMovement
  rw [hop]
  dsimp only
  rcases fetch_operand_cases inst m with ⟨hmode, -, w, cc, hf⟩ | hmode | hbad
  · rw [hf]
    refine iff_of_false (not_not.mpr ?_) hmode
    simp [AtMostOne, updatePSWFlags, h]
  · rw [fetch_bad_mode hmode]
    refine iff_of_true ?_ hmode
    simp [AtMostOne, failWith, updatePSWFlags, raiseInterrupt]
  · rw [fetch_bad_address hbad]
    refine iff_of_false (not_not.mpr ?_) (bad_address_mode hbad)
    exact at_most_one_insert _ (Or.inr (by simp [updatePSWFlags, raiseInterrupt, h]))

theorem dma_transfer_bitmap (m : Machine) :
    (dmaTransfer m).interruptBitmap = insert .ioDone m.interruptBitmap ∨
      (dmaTransfer m).interruptBitmap = insert .invalidAddr m.interruptBitmap := by
  rw [dma_transfer_eq]
  split_ifs
  · exact Or.inl rfl
  · exact Or.inl rfl
  · exact Or.inr rfl

/-- An accepted operand leaves IC_INVALID_INSTR as the fetch left it. -/
theorem accepted_invalid_instr {op : OpCode} {n k : Machine} {v : Int}
    (hset : op ≠ .sdmaon → k = { n with dma := programmed n.cpu v n.dma op })
    (hon : op = .sdmaon → k = dmaTransfer { n with dma.pending := true }) :
    .invalidInstr ∈ k.interruptBitmap ↔ .invalidInstr ∈ n.interruptBitmap := by
  by_cases ho : op = .sdmaon
  · rw [hon ho]
    rcases dma_transfer_bitmap { n with dma.pending := true } with hb | hb <;> rw [hb] <;> simp
  · rw [hset ho]

/-- A DMA instruction raises both when the missing operand and the check disagree. -/
theorem dma_faults (u : Unspecified) (inst : Instruction) (h : m.interruptBitmap = ∅)
    (hop : ForDma inst.opCode) :
    ¬ AtMostOne (executeDMAInstruction u inst m).2.interruptBitmap ↔
      inst.direction = .invalid ∧ ¬ OutOfRange m.cpu (wordToInt u.data) inst.opCode ∨
        BadAddress inst m.cpu ∧ OutOfRange m.cpu (wordToInt u.data) inst.opCode := by
  rcases fetch_operand_cases inst m with ⟨hmode, hbad, w, cc, hf⟩ | hmode | hbad
  · refine iff_of_false (not_not.mpr ?_) (fun hd => hd.elim (fun hd => hmode hd.1)
      (fun hd => hbad hd.1))
    rcases dma_execute_eq u inst hf hop rfl with ⟨-, -, he⟩ | ⟨-, -, he⟩ | ⟨-, -, k, hset, hon, he⟩
    · rw [he]
      exact at_most_one_insert _ (Or.inl h)
    · rw [he]
      exact at_most_one_insert _ (Or.inl h)
    · rw [he]
      rintro ⟨hi, -⟩
      have hi := (accepted_invalid_instr hset hon).mp hi
      change InterruptCode.invalidInstr ∈ m.interruptBitmap at hi
      rw [h] at hi
      cases hi
  · have hf := fetch_bad_mode hmode m
    have hfirst : InterruptCode.invalidInstr ∈
        (raiseInterrupt .invalidInstr m).interruptBitmap := Finset.mem_insert_self _ _
    rcases dma_execute_eq u inst hf hop rfl with
      ⟨ho, -, he⟩ | ⟨-, ho, he⟩ | ⟨ho, -, k, hset, hon, he⟩
    · rw [he]
      refine iff_of_false (not_not.mpr ?_) (fun hd => hd.elim (fun hd => hd.2 ho)
        (fun hd => bad_address_mode hd.1 hmode))
      exact at_most_one_insert _ (Or.inr (by simp [raiseInterrupt, h]))
    · rw [he]
      exact iff_of_true (not_not.mpr ⟨Finset.mem_insert_of_mem hfirst, Finset.mem_insert_self _ _⟩)
        (Or.inl ⟨hmode, ho⟩)
    · rw [he]
      have hkept := (accepted_invalid_instr hset hon).mpr hfirst
      exact iff_of_true (not_not.mpr ⟨Finset.mem_insert_of_mem hkept, Finset.mem_insert_self _ _⟩)
        (Or.inl ⟨hmode, ho⟩)
  · have hf := fetch_bad_address hbad
    have hnone : InterruptCode.invalidInstr ∉ (raiseInterrupt .invalidAddr m).interruptBitmap := by
      simp [raiseInterrupt, h]
    rcases dma_execute_eq u inst hf hop rfl with
      ⟨ho, -, he⟩ | ⟨-, ho, he⟩ | ⟨ho, -, k, hset, hon, he⟩
    · rw [he]
      refine iff_of_true (not_not.mpr ⟨Finset.mem_insert_self _ _, ?_⟩) (Or.inr ⟨hbad, ho⟩)
      exact Finset.mem_insert_of_mem (Finset.mem_insert_self _ _)
    · rw [he]
      refine iff_of_false (not_not.mpr ?_) (fun hd => hd.elim
        (fun hd => bad_address_mode hbad hd.1) (fun hd => ho hd.2))
      exact at_most_one_insert _ (Or.inr (by simp [raiseInterrupt, h]))
    · rw [he]
      refine iff_of_false (not_not.mpr ?_) (fun hd => hd.elim
        (fun hd => bad_address_mode hbad hd.1) (fun hd => ho hd.2))
      rintro ⟨hi, -⟩
      have hi : InterruptCode.invalidInstr ∈ k.interruptBitmap := by
        simpa [failWith, raiseInterrupt] using hi
      exact hnone ((accepted_invalid_instr hset hon).mp hi)

/-- Exactly the instructions of `FaultsTwice` raise both fatal interrupts. -/
theorem raised_faults (u : Unspecified) (inst : Instruction) (m : Machine) :
    ¬ AtMostOne (raised u inst m) ↔ FaultsTwice u inst m.cpu := by
  have quiet : { m with interruptBitmap := ∅ }.interruptBitmap = ∅ := rfl
  unfold FaultsTwice raised
  by_cases hdma : ForDma inst.opCode
  · have hload : inst.opCode ≠ .load := by
      rintro h
      simp [ForDma, h] at hdma
    rw [dma_handler u _ hdma, dma_faults u inst quiet hdma]
    simp [hdma, hload]
  · by_cases hload : inst.opCode = .load
    · have hhandler : handler u inst { m with interruptBitmap := ∅ } =
          executeDataMovement u inst { m with interruptBitmap := ∅ } := by
        unfold handler
        rw [hload]
      rw [hhandler, load_faults u hload quiet]
      exact ⟨fun h => Or.inl ⟨hload, h⟩, fun h => h.elim And.right (fun h => absurd h.1 hdma)⟩
    · have single := handler_at_most_one u hload hdma quiet
      exact iff_of_false (not_not.mpr single)
        (fun h => h.elim (fun h => hload h.1) (fun h => hdma h.1))

end Lucario.Proofs
