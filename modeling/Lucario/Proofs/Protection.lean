import Lucario.Proofs.Confinement
import Lucario.Proofs.Lifetime
import Lucario.Proofs.ServiceCall

namespace Lucario.Proofs

section

variable {m n : Machine} {s : System} {lo hi : Int}

/-- The base register is reloaded through the mode popped just before it. -/
theorem restore_base (code : InterruptCode)
    (hmode : (OpMode.ofWord (popAt (m.cpu.sp + 3) m)).getD .user = m.cpu.psw.mode) :
    (restoreContext code m).cpu.rb = popAt (m.cpu.sp + 4) m := by
  by_cases hc : code ≠ .overflow ∧ code ≠ .underflow
  · simp only [restoreContext, internalPop, if_pos hc, Int.add_assoc, Int.reduceAdd, pop_view,
      hmode]
  · simp only [restoreContext, internalPop, if_neg hc, Int.add_assoc, Int.reduceAdd, pop_view,
      hmode]

/-- In user mode the popped mode is the user's, whether the word could be saved or not. -/
theorem popped_user_mode (h : FrameKept m n) (hm : m.cpu.psw.mode = .user) :
    (OpMode.ofWord (popAt (n.cpu.sp + 3) n)).getD .user = .user := by
  have popped : popAt (n.cpu.sp + 3) n = m.cpu.psw.mode.toWord ∨ popAt (n.cpu.sp + 3) n = 0 :=
    popped_word h (i := 3) (by omega) (by omega) (mode_valid _)
  rcases popped with hsaved | hzero
  · rw [hsaved, hm]
    rfl
  · rw [hzero]
    rfl

/-- The words of a frame up to the top of the partition are reachable down to its base. -/
theorem frame_slot_accessible (hF : InPartition lo hi m.cpu) (hlo : 0 ≤ lo) (hhi : hi < 2000)
    (hsp : m.cpu.sp ≤ hi - lo + 1) (i : Nat) :
    Accessible m.cpu (m.cpu.sp - 1 - i) ↔ (i : Int) < m.cpu.sp := by
  obtain ⟨hm, hb, hl⟩ := hF
  rw [accessible_user hm]
  omega

/-- A handler that returns with base and limit saved brings back the partition. -/
theorem restore_partition (code : InterruptCode) (h : FrameKept m n)
    (hF : InPartition lo hi m.cpu) (hlo : 0 ≤ lo) (hlohi : lo ≤ hi) (hhi : hi < 2000)
    (hsp : 3 ≤ m.cpu.sp) (hsp' : m.cpu.sp ≤ hi - lo + 1) :
    InPartition lo hi (restoreContext code n).cpu ∧ (restoreContext code n).cpu.sp = m.cpu.sp := by
  have slots := frame_slot_accessible hF hlo hhi hsp'
  have hn : InPartition lo hi n.cpu := hF.of_view h.view
  have hpos : 0 ≤ hi := hlo.trans hlohi
  obtain ⟨hm, hb, hl⟩ := hF
  have base : popAt (n.cpu.sp + 4) n = m.cpu.rb :=
    frame_word_kept h (i := 2) (by omega) (by omega) ((slots 2).mpr (by omega))
      (valid_of_range (by change 0 ≤ m.cpu.rb; omega) (by change m.cpu.rb < _; omega))
  have limit : popAt (n.cpu.sp + 5) n = m.cpu.rl :=
    frame_word_kept h (i := 1) (by omega) (by omega) ((slots 1).mpr (by omega))
      (valid_of_range (by change 0 ≤ m.cpu.rl; omega) (by change m.cpu.rl < _; omega))
  have restored := restore_of_frame code n ((popped_user_mode h hm).trans hn.1.symm)
    (base.trans (hb.trans hn.2.1.symm)) (limit.trans (hl.trans hn.2.2.symm))
  have sp := h.sp
  rw [restored]
  exact ⟨hn, by dsimp only; omega⟩

/-- With no room for the saved base register it comes back as 0. -/
theorem restore_base_lost (code : InterruptCode) (h : FrameKept m n)
    (hF : InPartition lo hi m.cpu) (hlo : 0 ≤ lo) (hhi : hi < 2000) (hsp : m.cpu.sp < 3)
    (hsp' : m.cpu.sp ≤ hi - lo + 1) : (restoreContext code n).cpu.rb = 0 := by
  have slots := frame_slot_accessible hF hlo hhi hsp' 2
  have hmode := (popped_user_mode h hF.1).trans (h.view.1.trans hF.1).symm
  have slot := frame_slot h 2
  rw [restore_base code hmode, pop_at_eq, if_neg]
  rw [accessible_congr h.view, show n.cpu.sp + 4 = m.cpu.sp - 1 - ((2 : Nat) : Int) from slot, slots]
  omega

/-- Either no interrupt is taken, or the registers afterwards are those restored from the frame
its handler left. -/
theorem check_interrupts_registers (u : Unspecified) (hs : (checkInterrupts u s).1 = true)
    (hp : s.hw.interruptBitmap ≠ ∅) (he : s.hw.cpu.psw.interruptEnable = .enabled) :
    ∃ code n, FrameKept (interrupted s.hw) n ∧ (checkInterrupts u s).2.hw.cpu =
      { (restoreContext code n).cpu with psw.interruptEnable := .enabled } := by
  have handled := handle_interrupt_handled u (codeToHandle s.hw.interruptBitmap) (entered s)
    (interrupted s.hw) rfl
  rw [check_interrupts_taken u hp he] at hs ⊢
  generalize handleInterrupt u (codeToHandle s.hw.interruptBitmap) (entered s) = r at handled hs ⊢
  obtain ⟨status, t⟩ := r
  dsimp only at hs handled ⊢
  subst hs
  refine ⟨codeToHandle s.hw.interruptBitmap,
    { t.hw with interruptBitmap := t.hw.interruptBitmap.erase (codeToHandle s.hw.interruptBitmap) },
    ⟨handled.cpu, handled.ram⟩, ?_⟩
  simp only [leave, if_true]

/-- An interrupt that does not end the process keeps its partition if there is room for the saved
base register. -/
theorem check_interrupts_partition (u : Unspecified) (hs : (checkInterrupts u s).1 = true)
    (hF : InPartition lo hi s.hw.cpu) (hlo : 0 ≤ lo) (hlohi : lo ≤ hi) (hhi : hi < 2000)
    (hsp' : s.hw.cpu.sp ≤ hi - lo + 1)
    (hsp : s.hw.interruptBitmap ≠ ∅ → s.hw.cpu.psw.interruptEnable = .enabled →
      3 ≤ s.hw.cpu.sp) :
    InPartition lo hi (checkInterrupts u s).2.hw.cpu ∧
      (checkInterrupts u s).2.hw.cpu.sp = s.hw.cpu.sp := by
  rcases interrupts_idle_or_taken s.hw with hidle | ⟨hp, he⟩
  · rw [check_interrupts_idle u hidle]
    exact ⟨hF, rfl⟩
  · obtain ⟨code, n, kept, hcpu⟩ := check_interrupts_registers u hs hp he
    obtain ⟨hpart, hsp''⟩ := restore_partition (m := interrupted s.hw) code kept hF hlo hlohi hhi
      (hsp hp he) hsp'
    rw [hcpu]
    exact ⟨hpart, hsp''⟩

end

structure UserState (c : Cpu) : Prop where
  mode : c.psw.mode = .user
  base : osReservedSize ≤ c.rb
  ordered : c.rb ≤ c.rl
  limit : c.rl < ramSize
  index : 0 ≤ c.rx ∧ c.rx ≤ c.sp
  stack : c.sp ≤ c.rl - c.rb
  enabled : c.psw.interruptEnable = .enabled

/-- A handled interrupt gives a process back its mode, base and limit exactly when its stack has
three words of room: with fewer the push and the pop of the base register both fail. -/
theorem interrupt_keeps_protection (u : Unspecified) {s : System} (h : UserState s.hw.cpu)
    (hp : s.hw.interruptBitmap ≠ ∅) (hs : (checkInterrupts u s).1 = true) :
    SameView (checkInterrupts u s).2.hw.cpu s.hw.cpu ↔ 3 ≤ s.hw.cpu.sp := by
  have hF : InPartition s.hw.cpu.rb s.hw.cpu.rl s.hw.cpu := ⟨h.mode, rfl, rfl⟩
  have hbase := h.base
  have hlimit := h.limit
  have hordered := h.ordered
  have hstack := h.stack
  simp only [osReservedSize, ramSize] at hbase hlimit
  constructor
  · intro hview
    by_contra hsp
    obtain ⟨code, n, kept, hcpu⟩ := check_interrupts_registers u hs hp h.enabled
    have lost : (restoreContext code n).cpu.rb = 0 :=
      restore_base_lost code kept hF (by omega) (by omega) (by change s.hw.cpu.sp < 3; omega)
        (by change s.hw.cpu.sp ≤ _; omega)
    have hrb := hview.2.1
    rw [hcpu] at hrb
    dsimp only at hrb
    omega
  · intro hsp
    obtain ⟨⟨hm, hb, hl⟩, -⟩ := check_interrupts_partition u hs hF (by omega) hordered (by omega)
      (by omega) (fun _ _ => hsp)
    exact ⟨hm.trans h.mode.symm, hb, hl⟩

def timedOut (sp : Int) : System :=
  { boot zeroKeys with hw := { (boot zeroKeys).hw with
    cpu := { Cpu.zero with rb := 300, rl := 384, sp := sp, psw.interruptEnable := .enabled }
    interruptBitmap := {.timer} } }

theorem timed_out_user {sp : Int} (hl : 0 ≤ sp) (hu : sp ≤ 84) :
    UserState (timedOut sp).hw.cpu := by
  refine ⟨rfl, le_refl (300 : Int), ?_, ?_, ⟨le_rfl, hl⟩, hu, rfl⟩
  · change (300 : Int) ≤ 384
    decide
  · change (384 : Int) < 2000
    decide

theorem interrupt_keeps_protection_timed_out :
    SameView (checkInterrupts zeros (timedOut 3)).2.hw.cpu (timedOut 3).hw.cpu :=
  (interrupt_keeps_protection zeros (timed_out_user (by decide) (by decide)) (by decide)
    (by decide)).mpr (by decide)

theorem not_interrupts_keep_protection :
    ¬ ∀ (u : Unspecified) (s : System), UserState s.hw.cpu → s.hw.interruptBitmap ≠ ∅ →
      (checkInterrupts u s).1 = true → SameView (checkInterrupts u s).2.hw.cpu s.hw.cpu := by
  intro h
  have kept := h zeros (timedOut 2) (timed_out_user (by decide) (by decide)) (by decide) (by decide)
  exact absurd kept.2.1 (by decide)

/-- From its creation at index `j` up to index `i` the process in slot `p` executes no instruction
that would free it, and its stack has room for the frame of every interrupt it takes. -/
def Restrained (s : System) (es : List Event) (j : Nat) (p : Int) (i : Nat) : Prop :=
  ∀ k e u inst m, j < k → k < i → es[k]? = some e →
    (Trace.stateAt next s es k).kernel.currentActiveProcess = p →
    executed (Trace.stateAt next s es k) e = some (u, inst, m) →
    ¬ Elevates inst ∧
      ((afterInstruction u inst m).interruptBitmap ≠ ∅ →
        (afterInstruction u inst m).cpu.psw.interruptEnable = .enabled →
        3 ≤ (afterInstruction u inst m).cpu.sp)

def partitionBase (p : Pcb) : Int := getBaseRegister p.startBlock

def partitionLimit (p : Pcb) : Int := getLimitRegister (partitionBase p) p.blockCount

section

variable {s : System} {lo hi : Int}

def Enclosed (lo hi : Int) (c : Cpu) : Prop := InPartition lo hi c ∧ c.sp ≤ hi - lo + 1

theorem after_instruction_enclosed {u : Unspecified} {inst : Instruction} {m : Machine}
    (h : Enclosed lo hi m.cpu) (hop : ¬ Elevates inst) :
    Enclosed lo hi (afterInstruction u inst m).cpu := by
  obtain ⟨hF, hsp⟩ := h
  obtain ⟨view, moved⟩ := handler_view_user u hF.1 hop
  obtain ⟨y, hcpu⟩ := count_cycle_cpu (handler u inst m).2
  have hF' := hF.of_view view
  rw [afterInstruction, hcpu]
  refine ⟨hF', ?_⟩
  obtain ⟨hm, hb, hl⟩ := hF
  rcases moved with h | ⟨h, -⟩ | ⟨h, ha | ha⟩ <;> dsimp only
  · omega
  · omega
  · have := (accessible_user hm _).mp ha
    omega
  · omega

/-- A processor step that neither frees nor ends the process. -/
theorem cpu_step_enclosed (u : Unspecified) (h : Enclosed lo hi s.hw.cpu) (hlo : 0 ≤ lo)
    (hlohi : lo ≤ hi) (hhi : hi < 2000) (hs : (cpuStep u s).1 = true)
    (hop : ∀ inst m, fetched s.hw = some (inst, m) → ¬ Elevates inst ∧
      ((afterInstruction u inst m).interruptBitmap ≠ ∅ →
        (afterInstruction u inst m).cpu.psw.interruptEnable = .enabled →
        3 ≤ (afterInstruction u inst m).cpu.sp)) :
    Enclosed lo hi (cpuStep u s).2.hw.cpu := by
  cases hf : fetched s.hw with
  | none =>
    rw [cpu_step_unfetched u hf] at hs
    cases hs
  | some x =>
    obtain ⟨inst, m⟩ := x
    obtain ⟨w, -, -, hm, -⟩ := fetched_machine hf
    obtain ⟨hpriv, hroom⟩ := hop inst m hf
    have hm : Enclosed lo hi m.cpu := by
      rw [hm]
      exact h
    obtain ⟨hF, hsp⟩ := after_instruction_enclosed (u := u) hm hpriv
    rw [cpu_step_fetched u hf] at hs ⊢
    obtain ⟨hpart, hkept⟩ := check_interrupts_partition
      (s := { s with hw := afterInstruction u inst m }) u hs hF hlo hlohi hhi hsp hroom
    exact ⟨hpart, hkept ▸ hsp⟩

end

def userMachine : Machine := (timedOut 84).hw

end Lucario.Proofs
