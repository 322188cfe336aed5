import Lucario.Proofs.BlockingIo
import Lucario.Proofs.ExactArithmetic
import Lucario.Proofs.ProcessIdentity
import Lucario.Proofs.ProgramImage
import Lucario.Proofs.Quantum
import Lucario.Proofs.RaisedCodes
import Lucario.Proofs.Stores

namespace Lucario.Proofs

open Footprint

/-- An instruction that leaves its process where the kernel has put it: in its partition, open to
interrupts, with room to save the bounds of the partition, and with at most one fault. -/
structure MannerlyInstruction (u : Unspecified) (inst : Instruction) (m : Machine) : Prop where
  unprivileged : ¬ Privileged inst.opCode
  noTransfer : inst.opCode ≠ .sdmaon
  noMask : inst.opCode ≠ .dhab
  room : 3 ≤ (handler u inst m).2.cpu.sp
  single : ¬ FaultsTwice u inst m.cpu

def Mannerly (s : System) (e : Event) : Prop :=
  ∀ u inst m, executed s e = some (u, inst, m) → MannerlyInstruction u inst m

def Partition (p : Pcb) : Set Int := Set.Icc (partitionBase p) (partitionLimit p)

structure AtHome (p : Pcb) (c : Cpu) : Prop where
  enclosed : Enclosed (partitionBase p) (partitionLimit p) c
  enabled : c.psw.interruptEnable = .enabled

/-- Every process is at home, and nothing is left pending but perhaps the timer. -/
structure Orderly (s : System) : Prop where
  scheduled : Scheduled s.kernel
  owned : Owned s.kernel
  home : ∀ p, Live s.kernel p → AtHome (s.kernel.processTable p) (registers s p)
  pending : s.hw.interruptBitmap ⊆ {.timer}

section

variable {s : System} {p q : Int}

theorem partition_bounds (ho : Owned s.kernel) (hp : Live s.kernel p) :
    partitionBase (s.kernel.processTable p) =
        300 + (s.kernel.processTable p).startBlock * 85 ∧
      partitionLimit (s.kernel.processTable p) = 300 + ((s.kernel.processTable p).startBlock +
        (s.kernel.processTable p).blockCount) * 85 - 1 ∧
      0 ≤ partitionBase (s.kernel.processTable p) ∧
      partitionBase (s.kernel.processTable p) ≤ partitionLimit (s.kernel.processTable p) ∧
      partitionLimit (s.kernel.processTable p) < 2000 := by
  obtain ⟨hstart, hcount, hend⟩ := ho.bounds p hp
  have hsize : partitionSize = 85 := by decide
  simp only [partitionLimit, partitionBase, getLimitRegister, getBaseRegister, osReservedSize,
    hsize]
  refine ⟨trivial, ?_, ?_, ?_, ?_⟩ <;> omega

/-- Two processes have no word in common. -/
theorem partitions_disjoint (ho : Owned s.kernel) (hp : Live s.kernel p) (hq : Live s.kernel q)
    (hne : p ≠ q) {x : Int} (hxp : x ∈ Partition (s.kernel.processTable p)) :
    x ∉ Partition (s.kernel.processTable q) := by
  intro hxq
  obtain ⟨hbase, hlimit, -⟩ := partition_bounds ho hp
  obtain ⟨hbase', hlimit', -⟩ := partition_bounds ho hq
  rw [Partition, Set.mem_Icc, hbase, hlimit] at hxp
  rw [Partition, Set.mem_Icc, hbase', hlimit'] at hxq
  refine hne (ho.disjoint p q ((x - 300) / 85) hp hq ?_ ?_) <;> unfold Owns <;> omega

theorem same_partition {a b : Pcb} (h : SameProcess a b) :
    partitionBase a = partitionBase b ∧ partitionLimit a = partitionLimit b := by
  rw [partitionLimit, partitionLimit, partitionBase, partitionBase, h.start, h.count]
  exact ⟨rfl, rfl⟩

theorem AtHome.of_same {a b : Pcb} {c : Cpu} (h : AtHome b c) (same : SameProcess a b) :
    AtHome a c := by
  obtain ⟨hbase, hlimit⟩ := same_partition same
  refine ⟨?_, h.enabled⟩
  rw [hbase, hlimit]
  exact h.enclosed

/-- The running process is alive and in its partition with the processor's registers. -/
theorem Orderly.running (h : Orderly s) (hc : s.kernel.currentActiveProcess ≠ -1) :
    Live s.kernel s.kernel.currentActiveProcess ∧
      AtHome (s.kernel.processTable s.kernel.currentActiveProcess) s.hw.cpu := by
  have hlive := h.scheduled.live hc
  have home := h.home _ hlive
  rw [registers_current rfl] at home
  exact ⟨hlive, home⟩

theorem code_to_handle_raisable {pending : Finset InterruptCode} {op : OpCode} {c : InterruptCode}
    (hc : Raisable op c) (hon : op ≠ .sdmaon) (hmem : c ∈ pending) (hsub : pending ⊆ {c, .timer}) :
    codeToHandle pending = c := by
  have only : ∀ d ∈ pending, d = c ∨ d = .timer := by
    intro d hd
    simpa using hsub hd
  have absent : ∀ d, d ≠ c → d ≠ .timer → d ∉ pending := by
    intro d hdc hdt hd
    exact (only d hd).elim hdc hdt
  unfold codeToHandle
  rcases hc with (rfl | rfl) | ⟨rfl, -⟩ | ⟨rfl, -⟩ | ⟨-, ho⟩
  case inr.inr.inr => exact absurd ho hon
  all_goals simp [hmem, absent .invalidInstr, absent .invalidAddr, absent .overflow, absent .underflow]

theorem mannerly_enabled {u : Unspecified} {inst : Instruction} {m : Machine}
    (h : MannerlyInstruction u inst m) (he : m.cpu.psw.interruptEnable = .enabled) :
    (afterInstruction u inst m).cpu.psw.interruptEnable = .enabled := by
  rw [after_instruction_enable]
  by_cases hhab : inst.opCode = .hab
  · rw [hab_handler hhab]
  · rw [handler_enable u inst m hhab h.noMask]
    exact he

/-- What is pending after an instruction: what it has raised, and the timer. -/
theorem mannerly_pending {u : Unspecified} {inst : Instruction} {m : Machine}
    (h : MannerlyInstruction u inst m) (hp : m.interruptBitmap ⊆ {.timer}) :
    (afterInstruction u inst m).interruptBitmap ⊆ {.timer} ∨
      ∃ c, Raisable inst.opCode c ∧ raised u inst m = {c} ∧
        c ∈ (afterInstruction u inst m).interruptBitmap ∧
        (afterInstruction u inst m).interruptBitmap ⊆ {c, .timer} := by
  have after : ∀ c, c ∈ (afterInstruction u inst m).interruptBitmap →
      c ∈ raised u inst m ∨ c = .timer := by
    intro c hc
    by_cases ht : c = .timer
    · exact Or.inr ht
    · rw [afterInstruction, count_cycle_bitmap ht, handler_bitmap] at hc
      refine Or.inl ((Finset.mem_union.mp hc).resolve_right (fun hm => ht ?_))
      simpa using hp hm
  rcases raised_single h.noTransfer h.single with hr | ⟨c, hc, hr⟩
  · refine Or.inl (fun d hd => ?_)
    rcases after d hd with hd' | rfl
    · rw [hr] at hd'
      exact absurd hd' (Finset.notMem_empty d)
    · simp
  · refine Or.inr ⟨c, hc, hr, ?_, fun d hd => ?_⟩
    · rw [afterInstruction]
      refine count_cycle_pending ?_
      rw [handler_bitmap, hr]
      exact Finset.mem_union_left _ (Finset.mem_singleton_self c)
    · rcases after d hd with hd' | rfl
      · rw [hr, Finset.mem_singleton] at hd'
        simp [hd']
      · simp

/-- A processor step leaves nothing pending but the timer. -/
theorem cpu_step_pending (u : Unspecified) (he : s.hw.cpu.psw.interruptEnable = .enabled)
    (hp : s.hw.interruptBitmap ⊆ {.timer})
    (hm : ∀ inst m, fetched s.hw = some (inst, m) → MannerlyInstruction u inst m) :
    (cpuStep u s).2.hw.interruptBitmap ⊆ {.timer} := by
  cases hf : fetched s.hw with
  | none =>
    rw [cpu_step_unfetched u hf]
    exact hp
  | some x =>
    obtain ⟨inst, m⟩ := x
    obtain ⟨w, -, -, hmachine, -⟩ := fetched_machine hf
    have hpm : m.interruptBitmap ⊆ {.timer} := by
      rw [hmachine]
      exact hp
    have hem : m.cpu.psw.interruptEnable = .enabled := by
      rw [hmachine]
      exact he
    have after := mannerly_pending (hm inst m hf) hpm
    have enabled := mannerly_enabled (hm inst m hf) hem
    rw [cpu_step_fetched u hf]
    by_cases hnone : (afterInstruction u inst m).interruptBitmap = ∅
    · rw [check_interrupts_idle u (Or.inl hnone)]
      dsimp only
      rw [hnone]
      exact Finset.empty_subset _
    · rw [check_interrupts_bitmap (s := { s with hw := afterInstruction u inst m }) u hnone enabled]
      dsimp only
      rcases after with hsub | ⟨c, hc, -, hmem, hsub⟩
      · exact (Finset.erase_subset _ _).trans hsub
      · rw [code_to_handle_raisable hc (hm inst m hf).noTransfer hmem hsub]
        intro d hd
        obtain ⟨hdc, hd⟩ := Finset.mem_erase.mp hd
        simpa [hdc] using hsub hd

/-- A processor step that does not end its process leaves it at home. -/
theorem cpu_step_home {a : Pcb} (u : Unspecified) (h : AtHome a s.hw.cpu)
    (hbounds : 0 ≤ partitionBase a ∧ partitionBase a ≤ partitionLimit a ∧ partitionLimit a < 2000)
    (hs : (cpuStep u s).1 = true)
    (hm : ∀ inst m, fetched s.hw = some (inst, m) → MannerlyInstruction u inst m) :
    AtHome a (cpuStep u s).2.hw.cpu := by
  refine ⟨cpu_step_enclosed u h.enclosed hbounds.1 hbounds.2.1 hbounds.2.2 hs ?_, ?_⟩
  · intro inst m hf
    refine ⟨not_elevates (hm inst m hf).unprivileged, fun _ _ => ?_⟩
    obtain ⟨y, hcpu⟩ := count_cycle_cpu (handler u inst m).2
    rw [afterInstruction, hcpu]
    exact (hm inst m hf).room
  · cases hf : fetched s.hw with
    | none =>
      rw [cpu_step_unfetched u hf] at hs
      cases hs
    | some x =>
      obtain ⟨inst, m⟩ := x
      obtain ⟨w, -, -, hmachine, -⟩ := fetched_machine hf
      have hem : m.cpu.psw.interruptEnable = .enabled := by
        rw [hmachine]
        exact h.enabled
      rw [cpu_step_fetched u hf] at hs ⊢
      exact (check_interrupts_clock u hs).2 (mannerly_enabled (hm inst m hf) hem)

theorem event_pending {e : Event} (h : Orderly s) (hm : Mannerly s e) :
    (next s e).hw.interruptBitmap ⊆ {.timer} := by
  cases e with
  | create host u progName =>
    rw [next, (created_running host u progName s).2.2.1]
    exact h.pending
  | worker u =>
    by_cases hc : s.kernel.currentActiveProcess = -1
    · obtain ⟨cpu, k, htick⟩ := tick_kept s
      rw [next_idle u hc, htick]
      exact h.pending
    · rw [worker_bitmap u hc]
      exact cpu_step_pending u (h.running hc).2.enabled h.pending
        (fun inst m hf => hm u inst m (executed_of_fetched hc hf))
  | monitor active => exact h.pending
  | restart => exact Finset.empty_subset _

/-- A new process starts at home. -/
theorem born_home {e : Event} (hs : Scheduled s.kernel) (hdead : ¬ Live s.kernel p)
    (hlive : Live (next s e).kernel p) :
    AtHome ((next s e).kernel.processTable p) (registers (next s e) p) := by
  obtain ⟨⟨host, u, progName, rfl⟩, -⟩ := born_pid hs hdead hlive
  obtain ⟨entry, start, -, -, -, hpcb, hregs⟩ := created_registers hs hdead hlive
  rw [hpcb, hregs]
  refine ⟨⟨⟨rfl, rfl, rfl⟩, ?_⟩, rfl⟩
  simp only [initialContext, partitionLimit, partitionBase, createdPcb, getLimitRegister]
  omega

theorem event_home {e : Event} (h : Orderly s) (hm : Mannerly s e)
    (hlive : Live (next s e).kernel p) :
    AtHome ((next s e).kernel.processTable p) (registers (next s e) p) := by
  by_cases hold : Live s.kernel p
  · have hne : e ≠ .restart := by
      rintro rfl
      exact restart_ends hlive
    refine AtHome.of_same ?_ (next_same_process h.scheduled.current hold hne)
    have home := h.home p hold
    cases e with
    | worker u =>
      by_cases hcur : s.kernel.currentActiveProcess = p
      · obtain ⟨hs, hregs⟩ := worker_registers_running u ⟨hold.1, hold.2.1⟩ hcur hlive
        have hc : s.kernel.currentActiveProcess ≠ -1 := by
          have := hold.1
          omega
        obtain ⟨-, -, hbounds⟩ := partition_bounds h.owned hold
        rw [registers_current hcur] at home
        rw [hregs]
        exact cpu_step_home u home hbounds hs
          (fun inst m hf => hm u inst m (executed_of_fetched hc hf))
      · rw [worker_registers_waiting u h.scheduled.current ⟨hold.1, hold.2.1⟩ hcur]
        exact home
    | create | monitor | restart =>
      rw [other_registers hlive hold (fun _ => Event.noConfusion)]
      exact home
  · exact born_home h.scheduled hold hlive

/-- Mannerly instructions keep the whole system in order. -/
theorem next_orderly {e : Event} (h : Orderly s) (hm : Mannerly s e) : Orderly (next s e) :=
  ⟨next_scheduled h.scheduled e, next_owned h.scheduled h.owned e,
    fun _ hlive => event_home h hm hlive, event_pending h hm⟩

theorem boot_orderly (keyboard : Nat → Int) : Orderly (boot keyboard) := by
  refine ⟨init_scheduled _, init_owned _, ?_, Finset.empty_subset _⟩
  rintro p ⟨hl, hu, hfin⟩
  refine absurd ?_ hfin
  simp [boot, initOS, forEachProcess, hl, hu]

/-- All that a mannerly step of a process writes is in its partition. -/
theorem cpu_step_inside (u : Unspecified) {lo hi : Int} (h : Enclosed lo hi s.hw.cpu)
    (hm : ∀ inst m, fetched s.hw = some (inst, m) → MannerlyInstruction u inst m) :
    Changes (fun x _ => x ∈ Set.Icc lo hi) s.hw.ram (cpuStep u s).2.hw.ram := by
  refine cpu_step_stores u s ?_
  intro inst m hf
  obtain ⟨w, -, -, hmachine, -⟩ := fetched_machine hf
  have hmannerly := hm inst m hf
  have hin : Enclosed lo hi m.cpu := by
    rw [hmachine]
    exact h
  obtain ⟨hafter, -⟩ :=
    after_instruction_enclosed (u := u) hin (not_elevates hmannerly.unprivileged)
  have stored : ∀ {c a v x w}, InPartition lo hi c → StoredAt c a v x w → x ∈ Set.Icc lo hi := by
    rintro c a v x w hc ⟨ha, -, rfl, -⟩
    exact translate_inside hc ha
  constructor
  · rintro x w (⟨a, hs⟩ | ⟨hon, -⟩)
    · exact stored hin.1 hs
    · exact absurd hon hmannerly.noTransfer
  · rintro - x w (⟨i, hi, hs⟩ | ⟨k, v, -, hs⟩)
    · exact stored hafter hs
    · exact stored hafter hs

/-- A creation writes to partitions that were free. -/
theorem create_spares (ho : Owned s.kernel) (hp : Live s.kernel p) (host : Host) (u : Unspecified)
    (progName : List Char) {x : Int} (hx : x ∈ Partition (s.kernel.processTable p)) :
    (createProcess host u progName s).2.hw.ram x = s.hw.ram x := by
  have created := create_process_created host u progName s
  obtain ⟨status, disk, vfs, hload⟩ := load_to_disk host u progName s
  generalize createProcess host u progName s = r at created
  cases created with
  | full => rfl
  | refused =>
    rw [hload]
  | made i entry start hi hslot _ hentry hstart hcount hend hfree =>
    rw [hload]
    refine load_image_outside _ _ _ _ _ ?_
    obtain ⟨hbase, hlimit, -⟩ := partition_bounds ho hp
    rw [Partition, Set.mem_Icc, hbase, hlimit] at hx
    have used : s.kernel.freePartitions ((x - 300) / 85) = false := by
      obtain ⟨hpstart, hpcount, hpend⟩ := ho.bounds p hp
      refine (ho.used _ (by omega) (by omega)).mpr ⟨p, hp, ?_⟩
      unfold Owns
      omega
    have apart : ¬ (start ≤ (x - 300) / 85 ∧
        (x - 300) / 85 < start + calculateRequiredBlocks entry.wordCount) := by
      rintro ⟨hl, hu⟩
      rw [hfree _ hl hu] at used
      cases used
    obtain ⟨hwords, hroom⟩ := required_blocks_room hcount
    have hsize : partitionSize = 85 := by decide
    simp only [getBaseRegister, osReservedSize, hsize]
    omega

/-- No event but its own execution writes to the partition of a process. -/
theorem next_spares {e : Event} (h : Orderly s) (hm : Mannerly s e) (hp : Live s.kernel p)
    (he : e ≠ .restart) (hother : ¬ Runs s e p) {x : Int}
    (hx : x ∈ Partition (s.kernel.processTable p)) : (next s e).hw.ram x = s.hw.ram x := by
  cases e with
  | create host u progName => exact create_spares h.owned hp host u progName hx
  | worker u =>
    by_cases hc : s.kernel.currentActiveProcess = -1
    · obtain ⟨cpu, k, htick⟩ := tick_kept s
      rw [next_idle u hc, htick]
    · obtain ⟨hq, home⟩ := h.running hc
      obtain ⟨cpu, k, hnext⟩ := worker_kept u hc
      have inside := cpu_step_inside u home.enclosed
        (fun inst m hf => hm u inst m (executed_of_fetched hc hf))
      have hne : p ≠ s.kernel.currentActiveProcess := by
        rintro rfl
        exact hother ⟨rfl, u, rfl⟩
      rw [hnext]
      exact inside.frame (fun _ => partitions_disjoint h.owned hp hq hne hx)
  | monitor active => rfl
  | restart => exact absurd rfl he

/-- Nor do its registers change. -/
theorem next_registers {e : Event} (h : Orderly s) (hp : Live s.kernel p)
    (hlive : Live (next s e).kernel p) (hother : ¬ Runs s e p) :
    registers (next s e) p = registers s p := by
  cases e with
  | worker u =>
    exact worker_registers_waiting u h.scheduled.current ⟨hp.1, hp.2.1⟩
      (fun hcur => hother ⟨hcur, u, rfl⟩)
  | create | monitor | restart => exact other_registers hlive hp (fun _ => Event.noConfusion)

end

section

variable {s : System} {es : List Event} {p : Int}

theorem state_at_orderly {keyboard : Nat → Int}
    (hm : ∀ k e, es[k]? = some e → Mannerly (Trace.stateAt next (boot keyboard) es k) e) {i : Nat}
    (hi : i ≤ es.length) : Orderly (Trace.stateAt next (boot keyboard) es i) :=
  Trace.stateAt_window Orderly (Nat.zero_le i) hi (boot_orderly keyboard)
    (fun k e _ _ he h => next_orderly h (hm k e he))

/-- The process in slot `p` lives from index `i` to `j` and executes nothing in between. -/
structure Waits (s : System) (es : List Event) (i j : Nat) (p : Int) : Prop where
  order : i ≤ j
  length : j ≤ es.length
  live : ∀ k, i ≤ k → k ≤ j → Live (Trace.stateAt next s es k).kernel p
  waiting : ∀ k e, i ≤ k → k < j → es[k]? = some e → ¬ Runs (Trace.stateAt next s es k) e p

def plainOpcodes : List OpCode :=
  [.sum, .res, .mult, .divi, .load, .str, .loadrx, .strrx, .comp, .jmpe, .jmpne, .jmplt, .jmplgt,
    .svc, .retrn, .hab, .tti, .loadrb, .loadrl, .loadsp, .strsp, .psh, .pop, .j]

def plainStep (s : System) (e : Event) : Bool :=
  (executed s e).all (fun x => x.2.1.opCode ∈ plainOpcodes ∧ x.2.1.direction ≠ .invalid ∧
    3 ≤ (handler x.1 x.2.1 x.2.2).2.cpu.sp)

theorem mannerly_of_plain {s : System} {e : Event} (h : plainStep s e) : Mannerly s e := by
  intro u inst m hx
  rw [plainStep, hx] at h
  simp only [Option.all_some, decide_eq_true_eq] at h
  obtain ⟨hop, hmode, hroom⟩ := h
  have plain : ¬ Privileged inst.opCode ∧ inst.opCode ≠ .sdmaon ∧ inst.opCode ≠ .dhab ∧
      ¬ ForDma inst.opCode := by
    simp only [plainOpcodes, List.mem_cons, List.not_mem_nil, or_false] at hop
    rcases hop with ho | ho | ho | ho | ho | ho | ho | ho | ho | ho | ho | ho | ho | ho | ho | ho |
      ho | ho | ho | ho | ho | ho | ho | ho <;> simp [Privileged, ForDma, ho]
  obtain ⟨hpriv, hon, hmask, hdma⟩ := plain
  refine ⟨hpriv, hon, hmask, hroom, ?_⟩
  rintro (⟨-, hinvalid⟩ | ⟨hfor, -⟩)
  · exact hmode hinvalid
  · exact hdma hfor

end

end Lucario.Proofs
