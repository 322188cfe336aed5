import Lucario.Interrupts

namespace Lucario.Proofs

def SameView (c d : Cpu) : Prop := c.psw.mode = d.psw.mode ∧ c.rb = d.rb ∧ c.rl = d.rl

theorem translate_congr {c d : Cpu} (h : SameView c d) (a : Int) :
    translate c a = translate d a := by
  obtain ⟨hm, hb, _⟩ := h
  simp only [translate, hm, hb]

theorem accessible_congr {c d : Cpu} (h : SameView c d) (a : Int) :
    Accessible c a ↔ Accessible d a := by
  rw [Accessible, Accessible, translate_congr h]
  obtain ⟨hm, hb, hl⟩ := h
  simp only [isProtectionViolation, hm, hb, hl]

theorem physical_congr {c d : Cpu} (h : SameView c d) (a : Int) :
    getPhysicalAddress c a = getPhysicalAddress d a := by
  rw [getPhysicalAddress, getPhysicalAddress, translate_congr h]
  obtain ⟨hm, hb, hl⟩ := h
  simp only [isProtectionViolation, hm, hb, hl]

/-- Only the mode, base and limit registers and RAM decide a load. -/
theorem read_congr (m m' : Machine) (h : SameView m.cpu m'.cpu) (hr : m.ram = m'.ram) (a : Int) :
    readMemory a m = readMemory a m' := by
  rw [readMemory, readMemory, physical_congr h, hr]

/-- The word a pop at logical address `a` would deliver. -/
def popAt (a : Int) (m : Machine) : Int := (readMemory a m).toOption.getD 0

theorem pop_at_eq (a : Int) (m : Machine) :
    popAt a m = if Accessible m.cpu a then m.ram (translate m.cpu a) else 0 :=
  read_or_default m a 0

theorem push_eq (v : Int) (m : Machine) : internalPush v m =
    { m with
      cpu.sp := m.cpu.sp - 1
      ram := if Accessible m.cpu (m.cpu.sp - 1) ∧ isValidInstruction v then
        Function.update m.ram (translate m.cpu (m.cpu.sp - 1)) v else m.ram } := by
  have hv : SameView { m.cpu with sp := m.cpu.sp - 1 } m.cpu := ⟨rfl, rfl, rfl⟩
  simp only [internalPush, write_or_unchanged, accessible_congr hv, translate_congr hv]
  split_ifs <;> rfl

def pushAll (ws : List Int) (m : Machine) : Machine := ws.foldl (fun m v => internalPush v m) m

def frameWords (c : Cpu) : List Int :=
  [c.rx, c.rl, c.rb, c.psw.mode.toWord, c.psw.conditionCode.toWord, c.psw.pc, c.ac]

theorem saveContext_eq (m : Machine) : saveContext m = pushAll (frameWords m.cpu) m := by
  simp only [saveContext, pushAll, frameWords, List.foldl_cons, List.foldl_nil, push_eq]

theorem push_all_machine (ws : List Int) (m : Machine) :
    pushAll ws m = { m with
      cpu.sp := m.cpu.sp - ws.length
      ram := (pushAll ws m).ram } := by
  induction ws generalizing m with
  | nil => simp [pushAll]
  | cons w ws ih =>
    have h := ih (internalPush w m)
    rw [push_eq] at h
    simp only [pushAll, List.foldl_cons, push_eq, List.length_cons] at h ⊢
    rw [h]
    simp only [Nat.cast_add, Nat.cast_one]
    congr 2
    omega

/-- Pushes touch only the words they are aimed at. -/
theorem push_all_outside (ws : List Int) (m : Machine) (x : Int)
    (hx : ∀ i : Nat, i < ws.length → x ≠ translate m.cpu (m.cpu.sp - 1 - i)) :
    (pushAll ws m).ram x = m.ram x := by
  induction ws generalizing m with
  | nil => rfl
  | cons w ws ih =>
    have hv : SameView (internalPush w m).cpu m.cpu := by rw [push_eq]; exact ⟨rfl, rfl, rfl⟩
    have hsp : (internalPush w m).cpu.sp = m.cpu.sp - 1 := by rw [push_eq]
    have h0 := hx 0 (by simp)
    simp only [Nat.cast_zero, Int.sub_zero] at h0
    have hrest := ih (internalPush w m) (by
      intro i hi
      rw [translate_congr hv, hsp]
      have := hx (i + 1) (by simpa using hi)
      simpa only [Nat.cast_add, Nat.cast_one, show m.cpu.sp - 1 - ((i : Int) + 1) =
        m.cpu.sp - 1 - 1 - i by omega] using this)
    have hfirst : (internalPush w m).ram x = m.ram x := by
      rw [push_eq]
      dsimp only
      split_ifs
      · exact Function.update_of_ne h0 _ _
      · rfl
    exact hrest.trans hfirst

/-- A slot that can be reached ends with the word pushed to it, if the store takes that word. -/
theorem push_all_slot (ws : List Int) (m : Machine) (i : Nat) (hi : i < ws.length)
    (ha : Accessible m.cpu (m.cpu.sp - 1 - i)) :
    (pushAll ws m).ram (translate m.cpu (m.cpu.sp - 1 - i)) =
      if isValidInstruction ws[i] then ws[i]
      else m.ram (translate m.cpu (m.cpu.sp - 1 - i)) := by
  induction ws generalizing m i with
  | nil => simp at hi
  | cons w ws ih =>
    have hv : SameView (internalPush w m).cpu m.cpu := by rw [push_eq]; exact ⟨rfl, rfl, rfl⟩
    have hsp : (internalPush w m).cpu.sp = m.cpu.sp - 1 := by rw [push_eq]
    change (pushAll ws (internalPush w m)).ram _ = _
    cases i with
    | zero =>
      simp only [Nat.cast_zero, Int.sub_zero, List.getElem_cons_zero] at ha ⊢
      rw [push_all_outside]
      · rw [push_eq]
        dsimp only
        by_cases hw : isValidInstruction w
        · rw [if_pos ⟨ha, hw⟩, if_pos hw, Function.update_self]
        · rw [if_neg (fun h => hw h.2), if_neg hw]
      · intro i _ he
        rw [translate_congr hv, hsp] at he
        have := translate_injective he
        omega
    | succ i =>
      have he : m.cpu.sp - 1 - ((i + 1 : Nat) : Int) = m.cpu.sp - 1 - 1 - i := by
        simp only [Nat.cast_add, Nat.cast_one]
        omega
      rw [he] at ha ⊢
      have h := ih (internalPush w m) i (by simpa using hi)
        (by rw [accessible_congr hv, hsp]; exact ha)
      have kept : (internalPush w m).ram (translate m.cpu (m.cpu.sp - 1 - 1 - i)) =
          m.ram (translate m.cpu (m.cpu.sp - 1 - 1 - i)) := by
        rw [push_eq]
        dsimp only
        split_ifs
        · refine Function.update_of_ne (fun hx => ?_) _ _
          have := translate_injective hx
          omega
        · rfl
      rw [translate_congr hv, hsp, kept] at h
      simpa using h

/-- A word pushed to an accessible address stays there until the end of the frame. -/
theorem push_all_at (ws : List Int) (m : Machine) (i : Nat) (hi : i < ws.length)
    (ha : Accessible m.cpu (m.cpu.sp - 1 - i)) (hw : isValidInstruction ws[i]) :
    (pushAll ws m).ram (translate m.cpu (m.cpu.sp - 1 - i)) = ws[i] := by
  rw [push_all_slot ws m i hi ha, if_pos hw]

theorem pop_congr {m n : Machine} (h : SameView n.cpu m.cpu) (hr : n.ram = m.ram) (a : Int) :
    popAt a n = popAt a m := by
  rw [popAt, popAt, read_congr n m h hr]

theorem pop_view (m : Machine) (ac mar mdr ir rx sp a : Int) (psw : Psw) (t y : Nat)
    (hm : psw.mode = m.cpu.psw.mode) :
    (readMemory a { m with cpu :=
      ⟨ac, mar, mdr, ir, m.cpu.rb, m.cpu.rl, rx, sp, psw, t, y⟩ }).toOption.getD 0 =
      popAt a m := by
  change popAt a _ = popAt a m
  apply pop_congr
  · exact ⟨hm, rfl, rfl⟩
  · rfl

/-- Popping a frame that holds the current mode, base and limit leaves the view of memory as it
is all the way through, so every word comes from where it was pushed. -/
theorem restore_of_frame (code : InterruptCode) (m : Machine)
    (hmode : (OpMode.ofWord (popAt (m.cpu.sp + 3) m)).getD .user = m.cpu.psw.mode)
    (hrb : popAt (m.cpu.sp + 4) m = m.cpu.rb) (hrl : popAt (m.cpu.sp + 5) m = m.cpu.rl) :
    restoreContext code m = { m with
      cpu.ac := if code ≠ .overflow ∧ code ≠ .underflow then popAt m.cpu.sp m else m.cpu.ac
      cpu.sp := m.cpu.sp + 7
      cpu.rx := popAt (m.cpu.sp + 6) m
      cpu.psw.pc := popAt (m.cpu.sp + 1) m
      cpu.psw.conditionCode :=
        (ConditionCode.ofWord (popAt (m.cpu.sp + 2) m)).getD .zero } := by
  have h0 : (readMemory m.cpu.sp m).toOption.getD 0 = popAt m.cpu.sp m := rfl
  by_cases hc : code ≠ .overflow ∧ code ≠ .underflow
  · simp only [restoreContext, internalPop, if_pos hc, h0, Int.add_assoc, Int.reduceAdd,
      pop_view, hmode, hrb, hrl]
  · simp only [restoreContext, internalPop, if_neg hc, h0, Int.add_assoc, Int.reduceAdd,
      pop_view, hmode, hrb, hrl]

/-- The registers other than AC and the condition code are those after saving the context of
`m`, and so is RAM but for the saved AC and PC. -/
structure FrameKept (m n : Machine) : Prop where
  cpu : ∃ ac cc, n.cpu = { (saveContext m).cpu with ac := ac, psw.conditionCode := cc }
  ram : ∀ x, x ≠ translate m.cpu (m.cpu.sp - 7) → x ≠ translate m.cpu (m.cpu.sp - 6) →
    n.ram x = (saveContext m).ram x

/-- What an interrupt handler leaves of the machine when it runs on the frame of `m`. -/
structure Handled (m n : Machine) : Prop extends FrameKept m n where
  rest : n.disk = m.disk ∧ n.dma = m.dma ∧ n.interruptBitmap = m.interruptBitmap ∧
    n.interruptValue = m.interruptValue

theorem save_machine (m : Machine) :
    saveContext m = { m with cpu.sp := m.cpu.sp - 7, ram := (saveContext m).ram } := by
  rw [saveContext_eq]
  exact push_all_machine (frameWords m.cpu) m

theorem save_view (m : Machine) : SameView (saveContext m).cpu m.cpu := by
  rw [save_machine]
  exact ⟨rfl, rfl, rfl⟩

theorem save_sp (m : Machine) : (saveContext m).cpu.sp = m.cpu.sp - 7 := by
  rw [save_machine]

theorem handled_refl (m : Machine) : Handled m (saveContext m) := by
  refine ⟨⟨⟨m.cpu.ac, m.cpu.psw.conditionCode, ?_⟩, fun _ _ _ => rfl⟩, ?_⟩ <;> rw [save_machine]
  exact ⟨rfl, rfl, rfl, rfl⟩

theorem FrameKept.view {m n : Machine} (h : FrameKept m n) : SameView n.cpu m.cpu := by
  obtain ⟨ac, cc, hc⟩ := h.cpu
  obtain ⟨hm, hb, hl⟩ := save_view m
  rw [hc]
  exact ⟨hm, hb, hl⟩

theorem FrameKept.sp {m n : Machine} (h : FrameKept m n) : n.cpu.sp = m.cpu.sp - 7 := by
  obtain ⟨ac, cc, hc⟩ := h.cpu
  rw [hc]
  exact save_sp m

/-- A store at the saved AC or PC with new condition codes stays within what a handler may do. -/
theorem handled_store {m n : Machine} (cc : ConditionCode) (k v : Int) (hk : k = 0 ∨ k = 1)
    (hn : n = { saveContext m with cpu.psw.conditionCode := cc }) :
    Handled m (orUnchanged (writeMemory (n.cpu.sp + k) v n) n) := by
  have hv : SameView n.cpu m.cpu := by
    rw [hn]
    exact save_view m
  have hsp : n.cpu.sp = m.cpu.sp - 7 := by
    rw [hn]
    exact save_sp m
  have kept : Handled m n := by
    rw [hn]
    exact ⟨⟨⟨(saveContext m).cpu.ac, cc, rfl⟩, fun _ _ _ => rfl⟩, (handled_refl m).rest⟩
  rw [write_or_unchanged]
  split_ifs
  · refine ⟨⟨kept.cpu, ?_⟩, kept.rest⟩
    intro x h7 h6
    rw [← kept.ram x h7 h6]
    refine Function.update_of_ne ?_ _ _
    rw [translate_congr hv, hsp]
    rcases hk with rfl | rfl
    · simpa only [Int.add_zero] using h7
    · simpa only [show m.cpu.sp - 7 + 1 = m.cpu.sp - 6 by omega] using h6
  · exact kept

theorem handled_accumulator (m : Machine) (v : Int) :
    Handled m (storeAccumulator v (saveContext m)) :=
  ⟨⟨⟨_, _, rfl⟩, fun _ _ _ => rfl⟩, (handled_refl m).rest⟩

inductive Called (u : Unspecified) (s : System) : SyscallStatus × System → Prop where
  | returned (status : SyscallStatus) (mon : Monitor) (h : status ≠ .block) :
    Called u s (status, { s with monitor := mon })
  | retried (h : s.monitor.active = false) : Called u s (.block, retryAfterMonitor u s)
  | read (h : s.monitor.active = true) : Called u s (.success, readFromMonitor s)
  | slept (n : Int) (h : 0 < n) :
    Called u s (.block, s.modifyProcess s.kernel.currentActiveProcess
      (fun p => { p with sleepTics := n, state := .blocked }))

theorem syscall_called (u : Unspecified) (s : System) : Called u s (handleSyscall u s) := by
  have same : ∀ status, status ≠ .block → Called u s (status, s) :=
    fun status h => .returned status s.monitor h
  unfold handleSyscall
  dsimp only
  split
  · exact same _ (by decide)
  · split
    · exact same _ (by decide)
    · split
      · exact .returned _ _ (by decide)
      · rename_i hm
        exact .retried (by simpa using hm)
  · split
    · rename_i hm
      exact .read hm
    · rename_i hm
      exact .retried (by simpa using hm)
  · split
    · exact same _ (by decide)
    · split_ifs with hneg hzero
      · exact .returned _ _ (by decide)
      · exact same _ (by decide)
      · exact .slept _ (by omega)
  · exact same _ (by decide)

/-- No handler does more to the machine than that. -/
theorem handle_interrupt_handled (u : Unspecified) (code : InterruptCode) (s : System)
    (m : Machine) (hs : s.hw = saveContext m) :
    Handled m (handleInterrupt u code s).2.hw := by
  have hr := handled_refl m
  rw [← hs] at hr
  cases code
  case overflow => rw [handleInterrupt, hs]; exact handled_accumulator m _
  case underflow => rw [handleInterrupt, hs]; exact handled_accumulator m _
  case syscall =>
    have retry : Handled m (retryAfterMonitor u s).hw :=
      handled_store _ 1 _ (Or.inr rfl) (by rw [← hs]; rfl)
    have read : Handled m (readFromMonitor s).hw := by
      have h := handled_store (m := m) _ 0 (intToWord (toInt32 (s.monitor.keyboard 0))).1
        (Or.inl rfl) (congrArg (fun n : Machine => { n with cpu.psw.conditionCode :=
          (intToWord (toInt32 (s.monitor.keyboard 0))).2 }) hs)
      rw [Int.add_zero] at h
      exact h
    have call : Handled m (handleSyscall u s).2.hw := by
      have called := syscall_called u s
      generalize handleSyscall u s = r at called ⊢
      cases called with
      | returned => exact hr
      | retried => exact retry
      | read => exact read
      | slept => exact hr
    rw [handleInterrupt]
    split <;> rename_i hcall <;> rw [hcall] at call <;> exact call
  all_goals exact hr

def FrameWritable (c : Cpu) : Prop := ∀ k : Int, 1 ≤ k → k ≤ 7 → Accessible c (c.sp - k)

/-- In user mode the frame fits below a stack pointer that lies seven words above the base and not
behind the limit. -/
theorem frame_writable_user {c : Cpu} (hm : c.psw.mode = .user) (hb : 0 ≤ c.rb) (h7 : 7 ≤ c.sp)
    (hl : c.sp - 1 + c.rb ≤ c.rl) (hr : c.rl < 2000) : FrameWritable c := by
  intro k hk hk'
  rw [accessible_user hm]
  omega

structure FrameValid (c : Cpu) : Prop where
  ac : isValidInstruction c.ac
  pc : isValidInstruction c.psw.pc
  rx : isValidInstruction c.rx
  rb : isValidInstruction c.rb
  rl : isValidInstruction c.rl

theorem frame_words_valid {c : Cpu} (h : FrameValid c) : ∀ w ∈ frameWords c, isValidInstruction w := by
  intro w hw
  simp only [frameWords, List.mem_cons, List.not_mem_nil, or_false] at hw
  rcases hw with rfl | rfl | rfl | rfl | rfl | rfl | rfl
  · exact h.rx
  · exact h.rl
  · exact h.rb
  · exact mode_valid _
  · exact condition_code_valid _
  · exact h.pc
  · exact h.ac

/-- The frame as it lies in RAM, each word under the address it was pushed to. -/
theorem save_at {m : Machine} (hw : FrameWritable m.cpu) (hv : FrameValid m.cpu) (i : Nat)
    (hi : i < 7) :
    (saveContext m).ram (translate m.cpu (m.cpu.sp - 1 - i)) = (frameWords m.cpu)[i] := by
  rw [saveContext_eq]
  refine push_all_at (frameWords m.cpu) m i hi ?_ (frame_words_valid hv _ (List.getElem_mem _))
  rw [show m.cpu.sp - 1 - (i : Int) = m.cpu.sp - (i + 1) by omega]
  exact hw _ (by omega) (by omega)

theorem save_outside {m : Machine} {x : Int}
    (hx : ∀ k : Int, 1 ≤ k → k ≤ 7 → x ≠ translate m.cpu (m.cpu.sp - k)) :
    (saveContext m).ram x = m.ram x := by
  rw [saveContext_eq]
  apply push_all_outside
  intro i hi
  have hi : i < 7 := hi
  rw [show m.cpu.sp - 1 - (i : Int) = m.cpu.sp - (i + 1) by omega]
  exact hx _ (by omega) (by omega)

theorem frame_slot {m n : Machine} (h : FrameKept m n) (i : Nat) :
    n.cpu.sp + (6 - (i : Int)) = m.cpu.sp - 1 - i := by
  rw [h.sp]
  omega

/-- The words of a frame other than AC and PC outlive the handler, each one that could be stored. -/
theorem frame_word_kept {m n : Machine} (h : FrameKept m n) {i : Nat} (hi : i < 7) (h5 : i < 5)
    (ha : Accessible m.cpu (m.cpu.sp - 1 - i)) (hv : isValidInstruction (frameWords m.cpu)[i]) :
    popAt (n.cpu.sp + (6 - (i : Int))) n = (frameWords m.cpu)[i] := by
  rw [frame_slot h, pop_at_eq, translate_congr h.view, if_pos ((accessible_congr h.view _).mpr ha),
    h.ram, saveContext_eq]
  · exact push_all_at (frameWords m.cpu) m i hi ha hv
  · intro hx
    have := translate_injective hx
    omega
  · intro hx
    have := translate_injective hx
    omega

/-- A handler's return pops them as they were saved, or the 0 of a word that cannot be read. -/
theorem popped_word {m n : Machine} (h : FrameKept m n) {i : Nat} (hi : i < 7) (h5 : i < 5)
    (hv : isValidInstruction (frameWords m.cpu)[i]) :
    popAt (n.cpu.sp + (6 - (i : Int))) n = (frameWords m.cpu)[i] ∨
      popAt (n.cpu.sp + (6 - (i : Int))) n = 0 := by
  by_cases ha : Accessible m.cpu (m.cpu.sp - 1 - i)
  · exact Or.inl (frame_word_kept h hi h5 ha hv)
  · right
    rw [frame_slot h, pop_at_eq, if_neg]
    rw [accessible_congr h.view]
    exact ha

/-- Returning from a handler gives back every register of the interrupted program, with PC read
from where the frame keeps it and AC too, unless its handler sets AC. -/
theorem restore_kept {m n : Machine} (hw : FrameWritable m.cpu) (hv : FrameValid m.cpu)
    (h : FrameKept m n) (code : InterruptCode) :
    restoreContext code n = { n with cpu := { m.cpu with
      ac := if code ≠ .overflow ∧ code ≠ .underflow then n.ram (translate m.cpu (m.cpu.sp - 7))
        else n.cpu.ac
      psw.pc := n.ram (translate m.cpu (m.cpu.sp - 6)) } } := by
  have view := h.view
  have sp := h.sp
  have acc : ∀ k : Int, 1 ≤ k → k ≤ 7 →
      popAt (n.cpu.sp + (7 - k)) n = n.ram (translate m.cpu (m.cpu.sp - k)) := by
    intro k hl hu
    have ha : n.cpu.sp + (7 - k) = m.cpu.sp - k := by omega
    rw [pop_at_eq, translate_congr view, ha, if_pos]
    rw [accessible_congr view]
    exact hw k hl hu
  have kept : ∀ (i : Nat) (hi : i < 7), i < 5 →
      popAt (n.cpu.sp + (6 - i : Int)) n = (frameWords m.cpu)[i] := by
    intro i hi h5
    refine frame_word_kept h hi h5 ?_ (frame_words_valid hv _ (List.getElem_mem _))
    rw [show m.cpu.sp - 1 - (i : Int) = m.cpu.sp - (i + 1) by omega]
    exact hw _ (by omega) (by omega)
  have hrx : popAt (n.cpu.sp + 6) n = m.cpu.rx := kept 0 (by omega) (by omega)
  have hrl : popAt (n.cpu.sp + 5) n = m.cpu.rl := kept 1 (by omega) (by omega)
  have hrb : popAt (n.cpu.sp + 4) n = m.cpu.rb := kept 2 (by omega) (by omega)
  have hmode : popAt (n.cpu.sp + 3) n = m.cpu.psw.mode.toWord := kept 3 (by omega) (by omega)
  have hcc : popAt (n.cpu.sp + 2) n = m.cpu.psw.conditionCode.toWord := kept 4 (by omega) (by omega)
  have hpc : popAt (n.cpu.sp + 1) n = n.ram (translate m.cpu (m.cpu.sp - 6)) :=
    acc 6 (by omega) (by omega)
  have hac : popAt n.cpu.sp n = n.ram (translate m.cpu (m.cpu.sp - 7)) := by
    simpa using acc 7 (by omega) (by omega)
  rw [restore_of_frame, hac, hpc, hcc, hrx, sp]
  · obtain ⟨ac, cc, hcpu⟩ := h.cpu
    rw [save_machine] at hcpu
    simp only [hcpu, condition_code_of_toWord, Option.getD_some]
    congr 2
    omega
  · rw [hmode, mode_of_toWord, view.1]
    rfl
  · rw [hrb, view.2.1]
  · rw [hrl, view.2.2]

def interrupted (m : Machine) : Machine := { m with cpu.psw.interruptEnable := .disabled }

def entered (s : System) : System := { s with hw := saveContext (interrupted s.hw) }

def leave (code : InterruptCode) (status : Bool) (s : System) : System :=
  let hw := { s.hw with interruptBitmap := s.hw.interruptBitmap.erase code }
  let hw := if status then restoreContext code hw else hw
  { s with hw := { hw with cpu.psw.interruptEnable := .enabled } }

/-- Either no interrupt is taken, or one is pending with interrupts enabled. -/
theorem interrupts_idle_or_taken (m : Machine) :
    (m.interruptBitmap = ∅ ∨ m.cpu.psw.interruptEnable = .disabled) ∨
      m.interruptBitmap ≠ ∅ ∧ m.cpu.psw.interruptEnable = .enabled := by
  by_cases hp : m.interruptBitmap = ∅
  · exact Or.inl (Or.inl hp)
  · cases he : m.cpu.psw.interruptEnable with
    | disabled => exact Or.inl (Or.inr rfl)
    | enabled => exact Or.inr ⟨hp, rfl⟩

theorem check_interrupts_idle (u : Unspecified) {s : System}
    (h : s.hw.interruptBitmap = ∅ ∨ s.hw.cpu.psw.interruptEnable = .disabled) :
    checkInterrupts u s = (true, s) := by
  rw [checkInterrupts, if_pos h]

theorem check_interrupts_taken (u : Unspecified) {s : System} (hp : s.hw.interruptBitmap ≠ ∅)
    (he : s.hw.cpu.psw.interruptEnable = .enabled) :
    checkInterrupts u s =
      ((handleInterrupt u (codeToHandle s.hw.interruptBitmap) (entered s)).1,
        leave (codeToHandle s.hw.interruptBitmap)
          (handleInterrupt u (codeToHandle s.hw.interruptBitmap) (entered s)).1
          (handleInterrupt u (codeToHandle s.hw.interruptBitmap) (entered s)).2) := by
  have hn : ¬ (s.hw.interruptBitmap = ∅ ∨ s.hw.cpu.psw.interruptEnable = .disabled) := by
    simp [hp, he]
  rw [checkInterrupts, if_neg hn]
  have hstart : { s.setInterruptEnable .disabled with
      hw := saveContext (s.setInterruptEnable .disabled).hw } = entered s := rfl
  simp only [hstart]
  rcases handleInterrupt u (codeToHandle s.hw.interruptBitmap) (entered s) with ⟨status, t⟩
  cases status <;> rfl

/-- Leaving the handler of an interrupt whose frame was written in full: PC is what the frame
holds by then, AC too or what its handler made of it, every other register is what it was. -/
theorem leave_kept {s t : System} (hw : FrameWritable s.hw.cpu) (hv : FrameValid s.hw.cpu)
    (he : s.hw.cpu.psw.interruptEnable = .enabled) (h : FrameKept (interrupted s.hw) t.hw)
    (code : InterruptCode) :
    leave code true t = { t with
      hw := { t.hw with
        cpu := { s.hw.cpu with
          ac := if code ≠ .overflow ∧ code ≠ .underflow then
              t.hw.ram (translate s.hw.cpu (s.hw.cpu.sp - 7))
            else t.hw.cpu.ac
          psw.pc := t.hw.ram (translate s.hw.cpu (s.hw.cpu.sp - 6)) }
        interruptBitmap := t.hw.interruptBitmap.erase code } } := by
  have restored := restore_kept (m := interrupted s.hw)
    (n := { t.hw with interruptBitmap := t.hw.interruptBitmap.erase code })
    hw ⟨hv.ac, hv.pc, hv.rx, hv.rb, hv.rl⟩ ⟨h.cpu, h.ram⟩ code
  simp only [leave, if_true, restored]
  simp only [interrupted, ← he]
  rfl

theorem leave_restored {s t : System} (hw : FrameWritable s.hw.cpu) (hv : FrameValid s.hw.cpu)
    (he : s.hw.cpu.psw.interruptEnable = .enabled) (h : FrameKept (interrupted s.hw) t.hw)
    {code : InterruptCode} (hc : code ≠ .overflow ∧ code ≠ .underflow) :
    leave code true t = { t with
      hw := { t.hw with
        cpu := { s.hw.cpu with
          ac := t.hw.ram (translate s.hw.cpu (s.hw.cpu.sp - 7))
          psw.pc := t.hw.ram (translate s.hw.cpu (s.hw.cpu.sp - 6)) }
        interruptBitmap := t.hw.interruptBitmap.erase code } } := by
  rw [leave_kept hw hv he h code, if_pos hc]

/-- The saved AC and PC in the frame of a taken interrupt. -/
theorem entered_ac {s : System} (hw : FrameWritable s.hw.cpu) (hv : FrameValid s.hw.cpu) :
    (entered s).hw.ram (translate s.hw.cpu (s.hw.cpu.sp - 7)) = s.hw.cpu.ac := by
  have h := save_at (m := interrupted s.hw) hw ⟨hv.ac, hv.pc, hv.rx, hv.rb, hv.rl⟩ 6 (by omega)
  rw [show s.hw.cpu.sp - 7 = s.hw.cpu.sp - 1 - ((6 : Nat) : Int) by omega]
  exact h

theorem entered_pc {s : System} (hw : FrameWritable s.hw.cpu) (hv : FrameValid s.hw.cpu) :
    (entered s).hw.ram (translate s.hw.cpu (s.hw.cpu.sp - 6)) = s.hw.cpu.psw.pc := by
  have h := save_at (m := interrupted s.hw) hw ⟨hv.ac, hv.pc, hv.rx, hv.rb, hv.rl⟩ 5 (by omega)
  rw [show s.hw.cpu.sp - 6 = s.hw.cpu.sp - 1 - ((5 : Nat) : Int) by omega]
  exact h

theorem entered_bitmap (s : System) :
    (entered s).hw.interruptBitmap = s.hw.interruptBitmap := by
  rw [entered, save_machine]
  rfl

end Lucario.Proofs
