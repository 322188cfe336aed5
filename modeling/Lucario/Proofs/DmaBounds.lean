import Lucario.Proofs.DmaProgramming

namespace Lucario.Proofs

structure InBounds (d : Dma) : Prop where
  track : d.track < diskTracks
  cylinder : d.cylinder < diskCylinders
  sector : d.sector < diskSectors
  direction : d.ioDirection = 0 ∨ d.ioDirection = 1
  address : isPhysicalAddressValid d.memAddr

/-- The machines a sequence of DMA instructions leads to from a reset of the device, with
anything else happening to the rest of the machine in between. -/
inductive DeviceReached : Machine → Prop where
  | reset (m : Machine) (h : m.dma = dmaReset) : DeviceReached m
  | instruction (u : Unspecified) (inst : Instruction) (m : Machine) (hop : ForDma inst.opCode)
      (h : DeviceReached m) : DeviceReached (handler u inst m).2
  | elsewhere (m n : Machine) (hdma : n.dma = m.dma) (h : DeviceReached m) : DeviceReached n

/-- Only the direction and the address are programmed, and the disk is left alone. -/
inductive Redirected (m : Machine) : Machine → Prop where
  | refl : Redirected m m
  | instruction (u : Unspecified) (inst : Instruction) (n : Machine)
      (hop : inst.opCode = .sdmaio ∨ inst.opCode = .sdmam) (h : Redirected m n) :
      Redirected m (handler u inst n).2
  | elsewhere (n k : Machine) (hdma : k.dma = n.dma) (hdisk : k.disk = n.disk)
      (h : Redirected m n) : Redirected m k

/-- The cell a transfer aims at takes the value of the other, and nothing else changes. -/
structure MovesOneWord (m n : Machine) : Prop where
  toDisk : m.dma.ioDirection = 1 →
    n.disk m.dma.track m.dma.cylinder m.dma.sector = m.ram m.dma.memAddr ∧
    (∀ t c s, ¬ (t = m.dma.track ∧ c = m.dma.cylinder ∧ s = m.dma.sector) →
      n.disk t c s = m.disk t c s) ∧
    ∀ x, n.ram x = m.ram x
  toRam : m.dma.ioDirection = 0 →
    n.ram m.dma.memAddr = m.disk m.dma.track m.dma.cylinder m.dma.sector ∧
    (∀ x, x ≠ m.dma.memAddr → n.ram x = m.ram x) ∧
    ∀ t c s, n.disk t c s = m.disk t c s

def DmaRegister.bound : DmaRegister → Int
  | .track => diskTracks
  | .cylinder => diskCylinders
  | .sector => diskSectors
  | .direction => 2
  | .address => ramSize

theorem in_bounds_iff (d : Dma) :
    InBounds d ↔ ∀ r : DmaRegister, 0 ≤ r.read d ∧ r.read d < r.bound := by
  constructor
  · rintro ⟨ht, hc, hs, hd, ⟨hl, hu⟩⟩ r
    simp only [diskTracks, diskCylinders, diskSectors, ramSize] at ht hc hs hu
    cases r <;> simp only [DmaRegister.read, DmaRegister.bound, diskTracks, diskCylinders,
      diskSectors, ramSize] <;> omega
  · intro h
    have ht := h .track
    have hc := h .cylinder
    have hs := h .sector
    have hd := h .direction
    have ha := h .address
    simp only [DmaRegister.read, DmaRegister.bound, diskTracks, diskCylinders, diskSectors,
      ramSize] at ht hc hs hd ha
    refine ⟨?_, ?_, ?_, by omega, ⟨ha.1, ha.2⟩⟩ <;>
      simp only [diskTracks, diskCylinders, diskSectors] <;> omega

/-- A setter that accepts its operand stores a value in bounds. -/
theorem stored_in_bounds {cpu : Cpu} {v : Int} {r : DmaRegister}
    (hrange : ¬ OutOfRange cpu v r.opCode) (hlimit : ¬ BehindLimit cpu v r.opCode) :
    0 ≤ r.stored cpu v ∧ r.stored cpu v < r.bound := by
  cases r
  case address =>
    have hbehind : ¬ (cpu.psw.mode ≠ .kernel ∧ cpu.rl < requestedAddr cpu v) :=
      fun h => hlimit ⟨rfl, h⟩
    simp only [DmaRegister.opCode, OutOfRange, ramSize] at hrange
    simp only [DmaRegister.stored, DmaRegister.bound, ramSize]
    by_contra hout
    exact hrange ⟨hbehind, by omega⟩
  all_goals
    simp only [DmaRegister.opCode, OutOfRange, diskTracks, diskCylinders, diskSectors] at hrange
    simp only [DmaRegister.stored, DmaRegister.bound, toUInt8, diskTracks, diskCylinders,
      diskSectors]
    omega

/-- No instruction programs the device out of bounds. -/
theorem handler_in_bounds (u : Unspecified) (inst : Instruction) {m : Machine}
    (h : InBounds m.dma) : InBounds (handler u inst m).2.dma := by
  rw [in_bounds_iff] at h ⊢
  intro r
  obtain ⟨hset, hkept⟩ := handler_register u inst m r
  by_cases hv : ∃ v, Assigns u inst m r v
  · obtain ⟨v, ha⟩ := hv
    rw [hset v ha]
    obtain ⟨hop, hrange, hlimit, rfl⟩ := ha
    exact stored_in_bounds hrange hlimit
  · rw [hkept (fun v ha => hv ⟨v, ha⟩)]
    exact h r

/-- Between two transfers the status register keeps what the last one left there, and a transfer
in bounds leaves 0. -/
theorem handler_dma_status (u : Unspecified) (inst : Instruction) {m : Machine}
    (hm : InBounds m.dma) (h : m.dma.status = 0) : (handler u inst m).2.dma.status = 0 := by
  by_cases hop : ForDma inst.opCode
  swap
  · rw [handler_dma u m hop]
    exact h
  have hdma := (fetch_operand_kept inst m).2.2
  have done := fun operand n (hf : fetchOperand inst m = (operand, n)) =>
    dma_execute_eq u inst hf hop rfl
  rw [dma_handler u m hop]
  generalize fetchOperand inst m = f at hdma done
  obtain ⟨operand, n⟩ := f
  dsimp only at hdma
  rcases done operand n rfl with ⟨-, -, hr⟩ | ⟨-, -, hr⟩ | ⟨-, -, k, hset, hon, hr⟩
  · simpa [hr, failWith, raiseInterrupt, hdma] using h
  · simpa [hr, failWith, raiseInterrupt, hdma] using h
  · have hdevice : (executeDMAInstruction u inst m).2.dma = k.dma := by
      rw [hr]
      split_ifs <;> rfl
    rw [hdevice]
    by_cases hop' : inst.opCode = .sdmaon
    · have hv : isPhysicalAddressValid n.dma.memAddr := by
        rw [hdma]
        exact hm.address
      rw [hon hop', dma_transfer_eq, if_pos hv]
      split_ifs <;> rfl
    · rw [hset hop', ← h, ← hdma]
      cases inst.opCode <;> rfl

theorem DeviceReached.invariant {m : Machine} (h : DeviceReached m) :
    InBounds m.dma ∧ m.dma.status = 0 := by
  induction h with
  | reset m h =>
    rw [h]
    exact ⟨⟨by decide, by decide, by decide, Or.inl rfl, by decide⟩, rfl⟩
  | instruction u inst m _ _ ih =>
    exact ⟨handler_in_bounds u inst ih.1, handler_dma_status u inst ih.1 ih.2⟩
  | elsewhere m n hdma _ ih =>
    rw [hdma]
    exact ih

/-- A transfer in bounds is one of the two moves. -/
theorem moves_one_word {m n : Machine} (h : InBounds m.dma) (hmoves : Moves m.dma m n) :
    MovesOneWord m n := by
  rw [Moves, if_pos h.address] at hmoves
  constructor
  · intro hd
    rw [if_pos hd] at hmoves
    obtain ⟨hram, hdisk⟩ := hmoves
    rw [hdisk, hram]
    refine ⟨?_, ?_, fun _ => rfl⟩
    · simp [storeSector]
    · intro t c s hne
      simp only [storeSector, if_neg hne]
  · intro hd
    have hne : m.dma.ioDirection ≠ 1 := by omega
    rw [if_neg hne] at hmoves
    obtain ⟨hram, hdisk⟩ := hmoves
    rw [hdisk, hram]
    refine ⟨Function.update_self _ _ _, ?_, fun _ _ _ => rfl⟩
    intro x hx
    exact Function.update_of_ne hx _ _

/-- Redirecting the device keeps its disk coordinates and the disk. -/
theorem Redirected.kept {m n : Machine} (h : Redirected m n) :
    n.dma.track = m.dma.track ∧ n.dma.cylinder = m.dma.cylinder ∧
      n.dma.sector = m.dma.sector ∧ n.disk = m.disk := by
  induction h with
  | refl => exact ⟨rfl, rfl, rfl, rfl⟩
  | instruction u inst n hop _ ih =>
    have hon : inst.opCode ≠ .sdmaon := by
      rcases hop with h | h <;> simp [h]
    have same : ∀ r : DmaRegister, inst.opCode ≠ r.opCode →
        r.read (handler u inst n).2.dma = r.read n.dma :=
      fun r hr => (handler_register u inst n r).2 (fun _ ha => hr ha.1)
    have ht := same .track (by rcases hop with h | h <;> simp [h, DmaRegister.opCode])
    have hc := same .cylinder (by rcases hop with h | h <;> simp [h, DmaRegister.opCode])
    have hs := same .sector (by rcases hop with h | h <;> simp [h, DmaRegister.opCode])
    simp only [DmaRegister.read, Nat.cast_inj] at ht hc hs
    rw [ht, hc, hs, handler_disk u n hon]
    exact ih
  | elsewhere n k hdma hdisk _ ih =>
    rw [hdma, hdisk]
    exact ih

theorem Redirected.reached {m n : Machine} (h : Redirected m n) (hm : DeviceReached m) :
    DeviceReached n := by
  induction h with
  | refl => exact hm
  | instruction u inst n hop _ ih =>
    have hdma : ForDma inst.opCode := by
      rcases hop with h | h <;> simp [ForDma, h]
    exact .instruction u inst n hdma ih
  | elsewhere n k hdma _ _ ih => exact .elsewhere n k hdma ih

theorem sdmaon_coordinates (u : Unspecified) {inst : Instruction} (m : Machine)
    (hop : inst.opCode = .sdmaon) (r : DmaRegister) :
    r.read (handler u inst m).2.dma = r.read m.dma := by
  apply (handler_register u inst m r).2
  intro v ha
  have hr : OpCode.sdmaon = r.opCode := hop ▸ ha.1
  cases r <;> cases hr

/-- Whatever DMA instructions were executed since the reset, the device stays in bounds, its error
branch is not taken, a transfer moves one word, and what was written can be read back. -/
theorem dma_in_bounds_and_exact {m : Machine} (h : DeviceReached m) :
    InBounds m.dma ∧ m.dma.status = 0 ∧
    ∀ u inst, inst.opCode = .sdmaon →
      MovesOneWord m (handler u inst m).2 ∧ (handler u inst m).2.dma.status = 0 ∧
      ∀ v inst' n, m.dma.ioDirection = 1 → Redirected (handler u inst m).2 n →
        n.dma.ioDirection = 0 → inst'.opCode = .sdmaon →
        (handler v inst' n).2.ram n.dma.memAddr = m.ram m.dma.memAddr := by
  obtain ⟨hm, hstatus⟩ := h.invariant
  refine ⟨hm, hstatus, ?_⟩
  intro u inst hop
  have moved := moves_one_word hm (sdmaon_moves u m hop)
  have hdma : ForDma inst.opCode := by simp [ForDma, hop]
  have reached := DeviceReached.instruction u inst m hdma h
  refine ⟨moved, reached.invariant.2, ?_⟩
  intro v inst' n hdir redirected hdir' hop'
  obtain ⟨ht, hc, hs, hdisk⟩ := redirected.kept
  have coordinates := sdmaon_coordinates u m hop
  have track := coordinates .track
  have cylinder := coordinates .cylinder
  have sector := coordinates .sector
  simp only [DmaRegister.read, Nat.cast_inj] at track cylinder sector
  have back := ((moves_one_word (redirected.reached reached).invariant.1
    (sdmaon_moves v n hop')).toRam hdir').1
  rw [back, ht, hc, hs, hdisk, track, cylinder, sector]
  exact (moved.toDisk hdir).1

/-- What holds of every sequence of DMA instructions holds of the device in every run. -/
theorem next_device_reached {s : System} (h : DeviceReached s.hw) (e : Event) :
    DeviceReached (next s e).hw := by
  cases hx : executed s e with
  | none => exact .elsewhere _ _ (next_dma_kept hx) h
  | some x =>
    obtain ⟨u, inst, m⟩ := x
    have hm : DeviceReached m := .elsewhere _ _ (executed_dma hx) h
    by_cases hop : ForDma inst.opCode
    · exact .elsewhere _ _ (next_dma hx) (.instruction u inst m hop hm)
    · exact .elsewhere _ _ ((next_dma hx).trans (handler_dma u m hop)) hm

theorem run_device_reached (keyboard : Nat → Int) (es : List Event) :
    DeviceReached (Trace.run next (boot keyboard) es).hw :=
  Trace.run_invariant (fun s : System => DeviceReached s.hw) (.reset _ rfl)
    (fun _ e _ h => next_device_reached h e)

def sevenFirst : Machine :=
  { (powerOn zeroKeys).hw with
    cpu.psw.mode := .kernel
    ram := fun x => if x = 0 then 7 else 0 }

def immediately (op : OpCode) (value : Int) : Instruction := ⟨op, .immediate, value⟩

theorem dma_in_bounds_and_exact_seven :
    let m := (handler zeros (immediately .sdmaio 1) sevenFirst).2
    let n := (handler zeros (immediately .sdmaio 0) (handler zeros (immediately .sdmaon 0) m).2).2
    let k := (handler zeros (immediately .sdmam 5) n).2
    InBounds m.dma ∧ (handler zeros (immediately .sdmaon 0) k).2.ram 5 = 7 := by
  intro m n k
  have reached : DeviceReached m :=
    .instruction zeros (immediately .sdmaio 1) sevenFirst (by simp [ForDma, immediately])
      (.reset sevenFirst rfl)
  have redirected : Redirected (handler zeros (immediately .sdmaon 0) m).2 k :=
    .instruction zeros (immediately .sdmam 5) n (Or.inr rfl)
      (.instruction zeros (immediately .sdmaio 0) _ (Or.inl rfl) .refl)
  obtain ⟨bounds, -, transfers⟩ := dma_in_bounds_and_exact reached
  have back := (transfers zeros (immediately .sdmaon 0) rfl).2.2 zeros (immediately .sdmaon 0) k
    (by decide) redirected (by decide) rfl
  have haddr : k.dma.memAddr = 5 ∧ m.ram m.dma.memAddr = 7 := by decide
  rw [haddr.1, haddr.2] at back
  exact ⟨bounds, back⟩

end Lucario.Proofs
