import Lucario.Machine

namespace Lucario

/-- The failures of `MemoryStatus_t`; success is `Except.ok`. -/
inductive MemoryStatus where
  | outOfBounds | protection | invalidData
  deriving DecidableEq, Repr

abbrev isPhysicalAddressValid (physAddr : Int) : Prop := 0 ≤ physAddr ∧ physAddr < ramSize

abbrev isProtectionViolation (cpu : Cpu) (physAddr : Int) : Prop :=
  cpu.psw.mode ≠ .kernel ∧ (physAddr < cpu.rb ∨ cpu.rl < physAddr)

/-- Translation alone: absolute in kernel mode, relative to the base register otherwise. -/
def translate (cpu : Cpu) (logicalAddr : Int) : Int :=
  if cpu.psw.mode = .kernel then logicalAddr else logicalAddr + cpu.rb

def getPhysicalAddress (cpu : Cpu) (logicalAddr : Int) : Except MemoryStatus Int :=
  let physAddr := translate cpu logicalAddr
  if isProtectionViolation cpu physAddr then .error .protection
  else if ¬ isPhysicalAddressValid physAddr then .error .outOfBounds
  else .ok physAddr

def readMemory (logicalAddr : Int) (m : Machine) : Except MemoryStatus Int :=
  (getPhysicalAddress m.cpu logicalAddr).map m.ram

def storeRam (physAddr data : Int) (m : Machine) : Machine :=
  { m with ram := Function.update m.ram physAddr data }

def writeMemory (logicalAddr data : Int) (m : Machine) : Except MemoryStatus Machine :=
  if ¬ isValidInstruction data then .error .invalidData
  else (getPhysicalAddress m.cpu logicalAddr).map (fun physAddr => storeRam physAddr data m)

def dmaReadMemory (physAddr : Int) (m : Machine) : Except MemoryStatus Int :=
  if ¬ isPhysicalAddressValid physAddr then .error .outOfBounds else .ok (m.ram physAddr)

def dmaWriteMemory (physAddr data : Int) (m : Machine) : Except MemoryStatus Machine :=
  if ¬ isPhysicalAddressValid physAddr then .error .outOfBounds
  else .ok (storeRam physAddr data m)

/-- `memoryReset`. -/
def memoryReset (m : Machine) : Machine := { m with ram := fun _ => 0 }

/-- A caller that ignores a failed store goes on with the machine it had. -/
def orUnchanged (r : Except MemoryStatus Machine) (m : Machine) : Machine :=
  r.toOption.getD m

/-- The logical addresses the current mode, base and limit let the processor touch. -/
def Accessible (cpu : Cpu) (logicalAddr : Int) : Prop :=
  isPhysicalAddressValid (translate cpu logicalAddr) ∧
    ¬ isProtectionViolation cpu (translate cpu logicalAddr)

instance (cpu : Cpu) (a : Int) : Decidable (Accessible cpu a) :=
  inferInstanceAs (Decidable (_ ∧ _))

theorem physical_of_accessible {cpu : Cpu} {a : Int} (h : Accessible cpu a) :
    getPhysicalAddress cpu a = .ok (translate cpu a) := by
  simp only [getPhysicalAddress, if_neg h.2, if_neg (not_not.mpr h.1)]

theorem physical_of_inaccessible {cpu : Cpu} {a : Int} (h : ¬ Accessible cpu a) :
    ∃ status, getPhysicalAddress cpu a = .error status := by
  by_cases hp : isProtectionViolation cpu (translate cpu a)
  · exact ⟨_, if_pos hp⟩
  · have hv : ¬ isPhysicalAddressValid (translate cpu a) := fun hv => h ⟨hv, hp⟩
    exact ⟨.outOfBounds, by simp only [getPhysicalAddress, if_neg hp, if_pos hv]⟩

theorem read_accessible {m : Machine} {a : Int} (h : Accessible m.cpu a) :
    readMemory a m = .ok (m.ram (translate m.cpu a)) := by
  rw [readMemory, physical_of_accessible h]
  rfl

theorem read_inaccessible {m : Machine} {a : Int} (h : ¬ Accessible m.cpu a) :
    ∃ status, readMemory a m = .error status := by
  obtain ⟨status, hs⟩ := physical_of_inaccessible h
  exact ⟨status, by rw [readMemory, hs]; rfl⟩

theorem write_accessible {m : Machine} {a v : Int} (h : Accessible m.cpu a)
    (hv : isValidInstruction v) : writeMemory a v m = .ok (storeRam (translate m.cpu a) v m) := by
  rw [writeMemory, if_neg (not_not.mpr hv), physical_of_accessible h]
  rfl

theorem write_refused {m : Machine} {a v : Int}
    (h : ¬ (Accessible m.cpu a ∧ isValidInstruction v)) :
    ∃ status, writeMemory a v m = .error status := by
  by_cases hv : isValidInstruction v
  · obtain ⟨status, hs⟩ := physical_of_inaccessible (fun ha => h ⟨ha, hv⟩)
    exact ⟨status, by rw [writeMemory, if_neg (not_not.mpr hv), hs]; rfl⟩
  · exact ⟨.invalidData, if_pos hv⟩

/-- Outcome of a store whose status the caller drops. -/
theorem write_or_unchanged (m : Machine) (a v : Int) :
    orUnchanged (writeMemory a v m) m =
      if Accessible m.cpu a ∧ isValidInstruction v then storeRam (translate m.cpu a) v m else m := by
  split_ifs with h
  · rw [write_accessible h.1 h.2]
    rfl
  · obtain ⟨status, hs⟩ := write_refused h
    rw [hs]
    rfl

/-- Outcome of a load whose status the caller drops and whose target held `v`. -/
theorem read_or_default (m : Machine) (a v : Int) :
    (readMemory a m).toOption.getD v =
      if Accessible m.cpu a then m.ram (translate m.cpu a) else v := by
  split_ifs with h
  · rw [read_accessible h]
    rfl
  · obtain ⟨status, hs⟩ := read_inaccessible h
    rw [hs]
    rfl

theorem translate_injective {cpu : Cpu} {a b : Int} (h : translate cpu a = translate cpu b) :
    a = b := by
  simp only [translate] at h
  split_ifs at h <;> omega

/-- In user mode an address is reachable exactly when it falls inside the partition. -/
theorem accessible_user {cpu : Cpu} (hm : cpu.psw.mode = .user) (a : Int) :
    Accessible cpu a ↔
      cpu.rb ≤ a + cpu.rb ∧ a + cpu.rb ≤ cpu.rl ∧ 0 ≤ a + cpu.rb ∧ a + cpu.rb < 2000 := by
  simp only [Accessible, isPhysicalAddressValid, isProtectionViolation, translate, hm, ramSize]
  simp only [reduceCtorEq, if_false, ne_eq, not_false_eq_true, true_and, not_or, not_lt]
  omega

theorem translate_user {cpu : Cpu} (hm : cpu.psw.mode = .user) (a : Int) :
    translate cpu a = a + cpu.rb := by
  simp [translate, hm]

end Lucario
