import Lucario.Proofs.PendingFaults
import Lucario.Proofs.ProcessorStep
import Lucario.Proofs.Sessions

namespace Lucario.Proofs

inductive DmaRegister where
  | track | cylinder | sector | direction | address
  deriving DecidableEq, Repr

def DmaRegister.opCode : DmaRegister → OpCode
  | .track => .sdmap
  | .cylinder => .sdmac
  | .sector => .sdmas
  | .direction => .sdmaio
  | .address => .sdmam

def DmaRegister.read (d : Dma) : DmaRegister → Int
  | .track => d.track
  | .cylinder => d.cylinder
  | .sector => d.sector
  | .direction => d.ioDirection
  | .address => d.memAddr

def DmaRegister.stored (cpu : Cpu) (w : Int) : DmaRegister → Int
  | .address => requestedAddr cpu w
  | _ => toUInt8 w

/-- The instruction sets the register to `v`. An operand that could not be fetched is set too, as
the uninitialised local it is. -/
def Assigns (u : Unspecified) (inst : Instruction) (m : Machine) (r : DmaRegister) (v : Int) :
    Prop :=
  inst.opCode = r.opCode ∧
    ¬ OutOfRange m.cpu (wordToInt ((fetchOperand inst m).1.getD u.data)) r.opCode ∧
    ¬ BehindLimit m.cpu (wordToInt ((fetchOperand inst m).1.getD u.data)) r.opCode ∧
    r.stored m.cpu (wordToInt ((fetchOperand inst m).1.getD u.data)) = v

theorem read_settled (r : DmaRegister) (status : Nat) (d : Dma) :
    r.read (settled status d) = r.read d := by
  cases r <;> rfl

theorem read_pending (r : DmaRegister) (d : Dma) (pending : Bool) :
    r.read { d with pending := pending } = r.read d := by
  cases r <;> rfl

/-- A transfer leaves the device programmed as it was. -/
theorem dma_transfer_read (r : DmaRegister) (m : Machine) :
    r.read (dmaTransfer m).dma = r.read m.dma := by
  rw [dma_transfer_eq]
  split_ifs <;> exact read_settled r _ _

/-- An instruction that is not for the device leaves its registers alone. -/
theorem handler_dma (u : Unspecified) {inst : Instruction} (m : Machine)
    (hop : ¬ ForDma inst.opCode) : (handler u inst m).2.dma = m.dma := by
  have unnoticed : Unnoticed (fun _ => True) (fun n : Machine => { n with dma := m.dma }) :=
    ⟨fun _ _ _ _ => trivial, fun _ => rfl, fun _ _ => rfl, fun _ _ => rfl, fun _ _ _ => rfl,
      fun _ _ _ _ => rfl, fun _ _ _ _ _ => rfl⟩
  have carried := unnoticed.handler (m := m) trivial u inst (fun h => absurd h hop)
    (fun hon => absurd (by simp [ForDma, hon]) hop)
  exact congrArg (fun r => r.2.dma) carried

/-- Only a started transfer reaches the disk. -/
theorem handler_disk (u : Unspecified) {inst : Instruction} (m : Machine)
    (hop : inst.opCode ≠ .sdmaon) : (handler u inst m).2.disk = m.disk := by
  have unnoticed : Unnoticed (fun _ => True) (fun n : Machine => { n with disk := m.disk }) :=
    ⟨fun _ _ _ _ => trivial, fun _ => rfl, fun _ _ => rfl, fun _ _ => rfl, fun _ _ _ => rfl,
      fun _ _ _ _ => rfl, fun _ _ _ _ _ => rfl⟩
  have carried := unnoticed.handler (m := m) trivial u inst
    (fun _ => ⟨fun _ => rfl, fun _ _ => rfl⟩) (fun hon => absurd hon hop)
  exact congrArg (fun r => r.2.disk) carried

theorem fetch_operand_kept (inst : Instruction) (m : Machine) :
    (fetchOperand inst m).2.ram = m.ram ∧ (fetchOperand inst m).2.disk = m.disk ∧
      (fetchOperand inst m).2.dma = m.dma := by
  rcases fetch_operand_cases inst m with ⟨-, -, w, cc, hf⟩ | hmode | hbad
  · rw [hf]
    exact ⟨rfl, rfl, rfl⟩
  · rw [fetch_bad_mode hmode]
    exact ⟨rfl, rfl, rfl⟩
  · rw [fetch_bad_address hbad]
    exact ⟨rfl, rfl, rfl⟩

theorem requested_congr {c d : Cpu} (h : SameView c d) (v : Int) :
    requestedAddr c v = requestedAddr d v := by
  rw [requestedAddr, requestedAddr, h.1, h.2.1]

theorem out_of_range_congr {c d : Cpu} (h : SameView c d) (v : Int) (op : OpCode) :
    OutOfRange c v op ↔ OutOfRange d v op := by
  cases op <;> simp only [OutOfRange, requested_congr h, h.1, h.2.2]

theorem behind_limit_congr {c d : Cpu} (h : SameView c d) (v : Int) (op : OpCode) :
    BehindLimit c v op ↔ BehindLimit d v op := by
  simp only [BehindLimit, requested_congr h, h.1, h.2.2]

theorem stored_congr {c d : Cpu} (h : SameView c d) (v : Int) (r : DmaRegister) :
    r.stored c v = r.stored d v := by
  cases r <;> simp only [DmaRegister.stored, requested_congr h]

/-- An accepted operand goes to the register of its instruction and to no other. -/
theorem read_programmed (r : DmaRegister) (cpu : Cpu) (v : Int) (d : Dma) (op : OpCode) :
    r.read (programmed cpu v d op) = if op = r.opCode then r.stored cpu v else r.read d := by
  cases r <;> cases op <;> rfl

/-- An instruction sets a register exactly as `Assigns` says. -/
theorem handler_register (u : Unspecified) (inst : Instruction) (m : Machine) (r : DmaRegister) :
    (∀ v, Assigns u inst m r v → r.read (handler u inst m).2.dma = v) ∧
    ((∀ v, ¬ Assigns u inst m r v) → r.read (handler u inst m).2.dma = r.read m.dma) := by
  by_cases hop : ForDma inst.opCode
  swap
  · rw [handler_dma u m hop]
    refine ⟨fun v hv => absurd ?_ hop, fun _ => rfl⟩
    rw [hv.1]
    cases r <;> simp [ForDma, DmaRegister.opCode]
  have hdma := (fetch_operand_kept inst m).2.2
  have view := (fetch_operand_steady inst m).view
  unfold Assigns
  rw [dma_handler u m hop]
  have done := fun operand n (hf : fetchOperand inst m = (operand, n)) =>
    dma_execute_eq u inst hf hop rfl
  generalize fetchOperand inst m = f at hdma view done ⊢
  obtain ⟨operand, n⟩ := f
  have done := done operand n rfl
  dsimp only at hdma view ⊢
  generalize wordToInt (operand.getD u.data) = w at done ⊢
  rw [← hdma]
  rcases done with ⟨hout, -, hr⟩ | ⟨hbehind, -, hr⟩ | ⟨hout, hbehind, k, hset, hon, hr⟩
  · rw [hr]
    refine ⟨fun v hv => absurd ?_ hv.2.1, fun _ => rfl⟩
    rw [← hv.1]
    exact (out_of_range_congr view w _).mp hout
  · rw [hr]
    refine ⟨fun v hv => absurd ?_ hv.2.2.1, fun _ => rfl⟩
    rw [← hv.1]
    exact (behind_limit_congr view w _).mp hbehind
  · have hdevice : (executeDMAInstruction u inst m).2.dma = k.dma := by
      rw [hr]
      split_ifs <;> rfl
    rw [hdevice]
    by_cases hop' : inst.opCode = .sdmaon
    · rw [hon hop', dma_transfer_read, read_pending]
      refine ⟨fun v hv => ?_, fun _ => rfl⟩
      rw [hop'] at hv
      cases r <;> cases hv.1
    · rw [hset hop', read_programmed, stored_congr view]
      refine ⟨fun v hv => ?_, fun hnone => ?_⟩
      · rw [if_pos hv.1]
        exact hv.2.2.2
      · rw [if_neg]
        intro hreg
        rw [hreg, out_of_range_congr view] at hout
        rw [hreg, behind_limit_congr view] at hbehind
        exact hnone _ ⟨hreg, hout, hbehind, rfl⟩

theorem count_cycle_dma (m : Machine) : (countCycle m).dma = m.dma := by
  unfold countCycle
  dsimp only
  split_ifs <;> rfl

/-- Interrupts are taken and left without a look at the device and the disk. -/
theorem check_interrupts_device (u : Unspecified) (s : System) :
    (checkInterrupts u s).2.hw.dma = s.hw.dma ∧ (checkInterrupts u s).2.hw.disk = s.hw.disk := by
  rcases interrupts_idle_or_taken s.hw with hidle | ⟨hp, he⟩
  · rw [check_interrupts_idle u hidle]
    exact ⟨rfl, rfl⟩
  · have handled := handle_interrupt_handled u (codeToHandle s.hw.interruptBitmap) (entered s)
      (interrupted s.hw) rfl
    rw [check_interrupts_taken u hp he]
    generalize handleInterrupt u (codeToHandle s.hw.interruptBitmap) (entered s) = r at handled ⊢
    obtain ⟨cpu, hleft⟩ := leave_machine (codeToHandle s.hw.interruptBitmap) r.1 r.2
    rw [hleft]
    exact ⟨handled.rest.2.1, handled.rest.1⟩

/-- A worker iteration leaves the device as the processor step does. -/
theorem worker_dma {s : System} (u : Unspecified) (hc : s.kernel.currentActiveProcess ≠ -1) :
    (next s (.worker u)).hw.dma = (cpuStep u s).2.hw.dma := by
  obtain ⟨cpu, k, h⟩ := worker_kept u hc
  rw [h]

def Sets (r : DmaRegister) (s : System) (e : Event) (v : Int) : Prop :=
  ∃ u inst m, executed s e = some (u, inst, m) ∧ Assigns u inst m r v

theorem executed_dma {s : System} {e : Event} {u : Unspecified} {inst : Instruction} {m : Machine}
    (h : executed s e = some (u, inst, m)) : m.dma = s.hw.dma := by
  obtain ⟨-, -, hf⟩ := executed_worker h
  obtain ⟨w, -, -, hm, -⟩ := fetched_machine hf
  rw [hm]

/-- The device after an event that executes an instruction is the one that instruction left. -/
theorem next_dma {s : System} {e : Event} {u : Unspecified} {inst : Instruction} {m : Machine}
    (h : executed s e = some (u, inst, m)) : (next s e).hw.dma = (handler u inst m).2.dma := by
  obtain ⟨rfl, hc, hf⟩ := executed_worker h
  rw [worker_dma u hc, cpu_step_fetched u hf, (check_interrupts_device u _).1]
  exact count_cycle_dma _

/-- No other event touches the device. -/
theorem next_dma_kept {s : System} {e : Event} (h : executed s e = none) :
    (next s e).hw.dma = s.hw.dma := by
  cases e with
  | create host u progName =>
    exact (created_running host u progName s).2.2.2
  | worker u =>
    by_cases hc : s.kernel.currentActiveProcess = -1
    · obtain ⟨cpu, k, htick⟩ := tick_kept s
      rw [next_idle u hc, htick]
    · have hf : fetched s.hw = none := by
        rw [executed, if_neg hc] at h
        exact Option.map_eq_none_iff.mp h
      rw [worker_dma u hc, cpu_step_unfetched u hf]
  | monitor active => rfl
  | restart => rfl

theorem sets_written (r : DmaRegister) (s : System) (e : Event) (v : Int) (h : Sets r s e v) :
    r.read (next s e).hw.dma = v := by
  obtain ⟨u, inst, m, hx, ha⟩ := h
  rw [next_dma hx]
  exact (handler_register u inst m r).1 v ha

theorem sets_opcode {r : DmaRegister} {s : System} {e : Event} {v : Int} (h : Sets r s e v) :
    (executed s e).map (fun x => x.2.1.opCode) = some r.opCode := by
  obtain ⟨u, inst, m, hx, ha⟩ := h
  rw [hx]
  exact congrArg some ha.1

theorem sets_kept (r : DmaRegister) (s : System) (e : Event) (h : ∀ v, ¬ Sets r s e v) :
    r.read (next s e).hw.dma = r.read s.hw.dma := by
  cases hx : executed s e with
  | none => rw [next_dma_kept hx]
  | some x =>
    obtain ⟨u, inst, m⟩ := x
    rw [next_dma hx, ← executed_dma hx]
    exact (handler_register u inst m r).2 (fun v ha => h v ⟨u, inst, m, hx, ha⟩)

/-- One word moves between RAM and the disk as the device registers `d` say, unless they hold no
address in RAM. -/
def Moves (d : Dma) (m n : Machine) : Prop :=
  if isPhysicalAddressValid d.memAddr then
    if d.ioDirection = 1 then
      n.ram = m.ram ∧
        n.disk = (storeSector d.track d.cylinder d.sector (m.ram d.memAddr) m).disk
    else
      n.ram = Function.update m.ram d.memAddr (m.disk d.track d.cylinder d.sector) ∧
        n.disk = m.disk
  else n.ram = m.ram ∧ n.disk = m.disk

/-- SDMAON moves the word the device is programmed to move. -/
theorem sdmaon_moves (u : Unspecified) {inst : Instruction} (m : Machine)
    (hop : inst.opCode = .sdmaon) : Moves m.dma m (handler u inst m).2 := by
  have hdma : ForDma inst.opCode := by simp [ForDma, hop]
  rw [dma_handler u m hdma]
  obtain ⟨hram, hdisk, hregs⟩ := fetch_operand_kept inst m
  have done := fun operand n (hf : fetchOperand inst m = (operand, n)) =>
    dma_execute_eq u inst hf hdma rfl
  generalize fetchOperand inst m = f at hram hdisk hregs done
  obtain ⟨operand, n⟩ := f
  rcases done operand n rfl with ⟨hout, -⟩ | ⟨hbehind, -⟩ | ⟨-, -, k, -, hon, hr⟩
  · rw [hop] at hout
    exact hout.elim
  · rw [hop] at hbehind
    cases hbehind.1
  · have hram' : (executeDMAInstruction u inst m).2.ram = k.ram := by
      rw [hr]
      split_ifs <;> rfl
    have hdisk' : (executeDMAInstruction u inst m).2.disk = k.disk := by
      rw [hr]
      split_ifs <;> rfl
    dsimp only at hram hdisk hregs
    rw [Moves, hram', hdisk', hon hop, dma_transfer_eq, ← hram, ← hdisk, ← hregs]
    dsimp only
    split_ifs
    · exact ⟨rfl, by rw [storeSector, storeSector, hdisk]; rfl⟩
    · exact ⟨rfl, rfl⟩
    · exact ⟨rfl, rfl⟩

/-- The transfer an SDMAON starts uses in every register the value that was set last, by whichever
process, and the reset value where none was. -/
theorem transfer_uses_last_set (keyboard : Nat → Int) (es : List Event) (i : Nat) (e : Event)
    (he : es[i]? = some e) (u : Unspecified) (inst : Instruction) (m : Machine)
    (hx : executed (Trace.stateAt next (boot keyboard) es i) e = some (u, inst, m))
    (hop : inst.opCode = .sdmaon) :
    Moves m.dma m (handler u inst m).2 ∧ ∀ r : DmaRegister,
      (∀ j e' v, j < i → es[j]? = some e' →
        Sets r (Trace.stateAt next (boot keyboard) es j) e' v →
        (∀ k c w, j < k → k < i → es[k]? = some c →
          ¬ Sets r (Trace.stateAt next (boot keyboard) es k) c w) →
        r.read m.dma = v) ∧
      ((∀ k c w, k < i → es[k]? = some c →
          ¬ Sets r (Trace.stateAt next (boot keyboard) es k) c w) →
        r.read m.dma = r.read dmaReset) := by
  refine ⟨sdmaon_moves u m hop, ?_⟩
  intro r
  have hi : i ≤ es.length := (List.getElem?_eq_some_iff.mp he).1.le
  rw [executed_dma hx]
  refine ⟨?_, ?_⟩
  · intro j e' v hj he' hset hnone
    exact Trace.last_written (fun s => r.read s.hw.dma) (Sets r) (sets_written r) (sets_kept r)
      he' hset hj hi hnone
  · intro hnone
    exact Trace.never_written (fun s => r.read s.hw.dma) (Sets r) (sets_kept r) hi hnone

def sharedDevice : List Event :=
  session "_start 1\n.N 3\n.P A\n28100001\n06000000\n33000000\n"
    "_start 1\n.N 3\n.P B\n28100002\n06000000\n06000000\n" 6

def sharedStep (i : Nat) : Option (Unspecified × Instruction × Machine) :=
  executed (Trace.stateAt next (boot zeroKeys) sharedDevice i) (.worker zeros)

theorem sets_track {s : System} {e : Event} {w : Int}
    (h : (executed s e).map (fun x =>
      (x.2.1.opCode, wordToInt ((fetchOperand x.2.1 x.2.2).1.getD x.1.data))) = some (.sdmap, w))
    (hw : ¬ (w < 0 ∨ diskTracks ≤ w)) : Sets .track s e (toUInt8 w) := by
  obtain ⟨⟨u, inst, m⟩, hx, heq⟩ := Option.map_eq_some_iff.mp h
  obtain ⟨hop, hval⟩ := Prod.mk.inj heq
  dsimp only at hop hval
  refine ⟨u, inst, m, hx, hop, ?_, ?_, ?_⟩ <;> rw [hval]
  · exact hw
  · exact fun hb => absurd hb.1 (by decide)
  · rfl

theorem transfer_uses_last_set_shared_device :
    ∃ x, sharedStep 7 = some x ∧ Moves x.2.2.dma x.2.2 (handler x.1 x.2.1 x.2.2).2 ∧
      DmaRegister.track.read x.2.2.dma = 2 ∧ DmaRegister.sector.read x.2.2.dma = 0 := by
  have hop : (sharedStep 7).map (fun x => x.2.1.opCode) = some .sdmaon := by decide +kernel
  obtain ⟨⟨u, inst, m⟩, hx, hop⟩ := Option.map_eq_some_iff.mp hop
  obtain ⟨hmoves, hlast⟩ :=
    transfer_uses_last_set zeroKeys sharedDevice 7 (.worker zeros) rfl u inst m hx hop
  refine ⟨⟨u, inst, m⟩, hx, hmoves, ?_, ?_⟩
  · refine (hlast .track).1 5 (.worker zeros) 2 (by decide) rfl
      (sets_track (w := 2) (by decide +kernel) (by decide)) ?_
    intro k c w hk hk' hc hset
    obtain rfl : k = 6 := by omega
    cases hc
    exact absurd (sets_opcode hset) (by decide +kernel)
  · have unset : ∀ k < 7, ∀ c ∈ sharedDevice[k]?,
        (executed (Trace.stateAt next (boot zeroKeys) sharedDevice k) c).map
          (fun x => x.2.1.opCode) ≠ some (DmaRegister.sector).opCode := by decide +kernel
    exact (hlast .sector).2 fun k c w hk hc hset => unset k hk c hc (sets_opcode hset)

def OwnProgramming (s : System) (es : List Event) : Prop :=
  ∀ i e u inst m r j e' v, es[i]? = some e →
    executed (Trace.stateAt next s es i) e = some (u, inst, m) → inst.opCode = .sdmaon →
    j < i → es[j]? = some e' → Sets r (Trace.stateAt next s es j) e' v →
    runningPid (Trace.stateAt next s es j) = runningPid (Trace.stateAt next s es i) →
    (∀ k c w, j < k → k < i → es[k]? = some c →
      runningPid (Trace.stateAt next s es k) = runningPid (Trace.stateAt next s es i) →
      ¬ Sets r (Trace.stateAt next s es k) c w) →
    r.read m.dma = v

theorem not_own_programming_shared_device :
    ¬ OwnProgramming (boot zeroKeys) sharedDevice := by
  intro h
  have hop : (sharedStep 7).map (fun x => (x.2.1.opCode, x.2.2.dma.track)) = some (.sdmaon, 2) := by
    decide +kernel
  obtain ⟨⟨u, inst, m⟩, hx, heq⟩ := Option.map_eq_some_iff.mp hop
  obtain ⟨hop, htrack⟩ := Prod.mk.inj heq
  have own := h 7 (.worker zeros) u inst m .track 3 (.worker zeros) 1 rfl hx hop (by decide) rfl
    (sets_track (w := 1) (by decide +kernel) (by decide)) (by decide +kernel) ?_
  · rw [DmaRegister.read, htrack] at own
    exact absurd own (by decide)
  · intro k c w hk hk' hc hpid hset
    -- the SDMAP at index 5 is the other process's
    have others : ∀ k < 7, 3 < k → ∀ c ∈ sharedDevice[k]?,
        runningPid (Trace.stateAt next (boot zeroKeys) sharedDevice k) =
          runningPid (Trace.stateAt next (boot zeroKeys) sharedDevice 7) →
        (executed (Trace.stateAt next (boot zeroKeys) sharedDevice k) c).map
          (fun x => x.2.1.opCode) ≠ some (DmaRegister.track).opCode := by decide +kernel
    exact others k hk' hk c hc hpid (sets_opcode hset)

end Lucario.Proofs
