import Lucario.Proofs.ProcessorStep

namespace Lucario.Proofs

def Unpreempted (pending : Finset InterruptCode) : Prop :=
  .invalidInstr ∉ pending ∧ .invalidAddr ∉ pending ∧ .overflow ∉ pending ∧ .underflow ∉ pending

instance (pending : Finset InterruptCode) : Decidable (Unpreempted pending) :=
  inferInstanceAs (Decidable (_ ∧ _))

/-- The running process is about to execute a print or a read call. -/
structure Calling (s : System) : Prop where
  svc : ∃ inst m, fetched s.hw = some (inst, m) ∧ inst.opCode = .svc
  service : wordToInt s.hw.cpu.ac = 2 ∨ wordToInt s.hw.cpu.ac = 3
  enabled : s.hw.cpu.psw.interruptEnable = .enabled
  unpreempted : Unpreempted s.hw.interruptBitmap
  operand : Accessible s.hw.cpu s.hw.cpu.sp
  writable : FrameWritable s.hw.cpu
  valid : FrameValid s.hw.cpu

structure Trapped (s t : System) : Prop where
  kernel : t.kernel = s.kernel
  monitor : t.monitor = s.monitor
  ram : t.hw.ram = s.hw.ram
  cpu : ∃ mar mdr ir y, t.hw.cpu = { s.hw.cpu with
    mar := mar, mdr := mdr, ir := ir, psw.pc := s.hw.cpu.psw.pc + 1, cyclesCounter := y }
  pending : t.hw.interruptBitmap ≠ ∅
  code : codeToHandle t.hw.interruptBitmap = .syscall

variable {s t : System}

theorem code_to_handle_syscall {pending : Finset InterruptCode} (h : Unpreempted pending)
    (hs : .syscall ∈ pending) : codeToHandle pending = .syscall := by
  obtain ⟨h1, h2, h3, h4⟩ := h
  rw [codeToHandle, if_neg h1, if_neg h2, if_neg h3, if_neg h4, if_pos hs]

theorem unpreempted_insert {pending : Finset InterruptCode} (h : Unpreempted pending)
    {c : InterruptCode} (hc : c = .syscall ∨ c = .timer) : Unpreempted (insert c pending) := by
  obtain ⟨h1, h2, h3, h4⟩ := h
  rcases hc with rfl | rfl <;>
    exact ⟨by simp [h1], by simp [h2], by simp [h3], by simp [h4]⟩

/-- A call traps with the registers as they were, the counters and PC apart. -/
theorem Calling.trapped (h : Calling s) (u : Unspecified) :
    ∃ t, cpuStep u s = checkInterrupts u t ∧ Trapped s t := by
  obtain ⟨inst, m, hf, hop⟩ := h.svc
  obtain ⟨w, -, -, hm, -⟩ := fetched_machine hf
  have hsvc : (handler u inst m).2 = raiseInterrupt .syscall m := by
    unfold handler
    rw [hop]
    rfl
  refine ⟨{ s with hw := afterInstruction u inst m }, cpu_step_fetched u hf, ?_⟩
  have hafter : afterInstruction u inst m = countCycle (raiseInterrupt .syscall m) := by
    rw [afterInstruction, hsvc]
  have hpend : (raiseInterrupt .syscall m).interruptBitmap =
      insert .syscall s.hw.interruptBitmap := by
    rw [hm]
    rfl
  have unpre := unpreempted_insert h.unpreempted (Or.inl rfl)
  rw [← hpend] at unpre
  have hmem : InterruptCode.syscall ∈ (raiseInterrupt .syscall m).interruptBitmap :=
    Finset.mem_insert_self _ _
  have htrap : InterruptCode.syscall ∈ (afterInstruction u inst m).interruptBitmap ∧
      Unpreempted (afterInstruction u inst m).interruptBitmap := by
    rw [hafter, countCycle]
    dsimp only
    split_ifs
    · exact ⟨Finset.mem_insert_of_mem hmem, unpreempted_insert unpre (Or.inr rfl)⟩
    · exact ⟨hmem, unpre⟩
  refine ⟨rfl, rfl, ?_, ?_, Finset.ne_empty_of_mem htrap.1,
    code_to_handle_syscall htrap.2 htrap.1⟩
  · dsimp only
    rw [hafter, countCycle, hm]
    dsimp only
    split_ifs <;> rfl
  · obtain ⟨y, hy⟩ := count_cycle_cpu (raiseInterrupt .syscall m)
    refine ⟨s.hw.cpu.psw.pc, w, w, y, ?_⟩
    dsimp only
    rw [hafter, hy, hm]
    rfl

theorem Trapped.view (h : Trapped s t) : SameView t.hw.cpu s.hw.cpu := by
  obtain ⟨_, _, _, _, hc⟩ := h.cpu
  rw [hc]
  exact ⟨rfl, rfl, rfl⟩

theorem Trapped.sp (h : Trapped s t) : t.hw.cpu.sp = s.hw.cpu.sp := by
  obtain ⟨_, _, _, _, hc⟩ := h.cpu
  rw [hc]

/-- An address an instruction was fetched from is small enough for a word. -/
theorem fetched_pc_bounds {c : Cpu} (ha : Accessible c c.psw.pc) (hrb : isValidInstruction c.rb) :
    0 ≤ c.psw.pc ∧ c.psw.pc < 1002000 := by
  have hb := (valid_instruction_iff c.rb).mp hrb
  by_cases hm : c.psw.mode = .kernel
  · have hv := ha.1
    simp only [isPhysicalAddressValid, translate, if_pos hm, ramSize] at hv
    omega
  · have hu : c.psw.mode = .user := by
      cases hc : c.psw.mode with
      | user => rfl
      | kernel => exact absurd hc hm
    have := (accessible_user hu _).mp ha
    omega

theorem Calling.pc_bounds (h : Calling s) :
    0 ≤ s.hw.cpu.psw.pc ∧ s.hw.cpu.psw.pc < 1002000 := by
  obtain ⟨inst, m, hf, -⟩ := h.svc
  obtain ⟨w, -, ha, -, -⟩ := fetched_machine hf
  exact fetched_pc_bounds ha h.valid.rb

theorem Calling.frame (h : Calling s) (ht : Trapped s t) :
    FrameWritable t.hw.cpu ∧ FrameValid t.hw.cpu := by
  have bounds := h.pc_bounds
  refine ⟨?_, ?_⟩
  · intro k hl hu
    rw [accessible_congr ht.view, ht.sp]
    exact h.writable k hl hu
  · obtain ⟨_, _, _, _, hc⟩ := ht.cpu
    rw [hc]
    exact ⟨h.valid.ac, valid_of_range (by dsimp only; omega) (by dsimp only; omega), h.valid.rx,
      h.valid.rb, h.valid.rl⟩

theorem entered_sp (s : System) : (entered s).hw.cpu.sp = s.hw.cpu.sp - 7 := by
  rw [entered]
  exact save_sp (interrupted s.hw)

theorem entered_view (s : System) : SameView (entered s).hw.cpu s.hw.cpu := by
  obtain ⟨hm, hb, hl⟩ := save_view (interrupted s.hw)
  exact ⟨hm, hb, hl⟩

theorem Trapped.entered_view (h : Trapped s t) : SameView (entered t).hw.cpu s.hw.cpu := by
  obtain ⟨hm, hb, hl⟩ := Proofs.entered_view t
  obtain ⟨hm', hb', hl'⟩ := h.view
  exact ⟨hm.trans hm', hb.trans hb', hl.trans hl'⟩

theorem entered_accumulator (s : System) : (entered s).hw.cpu.ac = s.hw.cpu.ac := by
  rw [entered, save_machine]
  rfl

/-- The kernel reads the argument of a call above the frame of the trap. -/
theorem entered_argument (ha : Accessible s.hw.cpu s.hw.cpu.sp) :
    readMemory ((entered s).hw.cpu.sp + 7) (entered s).hw =
      .ok (s.hw.ram (translate s.hw.cpu s.hw.cpu.sp)) := by
  rw [entered_sp, show s.hw.cpu.sp - 7 + 7 = s.hw.cpu.sp by omega, read_accessible
    ((accessible_congr (entered_view s) _).mpr ha), translate_congr (entered_view s)]
  refine congrArg Except.ok (save_outside ?_)
  intro k hl hu he
  have : s.hw.cpu.sp = s.hw.cpu.sp - k := translate_injective he
  omega

/-- What is to be checked of a caller in user mode. -/
theorem calling_of_user {s : System}
    (h : (fetched s.hw).map (fun x => x.1.opCode) = some .svc ∧
      (wordToInt s.hw.cpu.ac = 2 ∨ wordToInt s.hw.cpu.ac = 3) ∧
      s.hw.cpu.psw.interruptEnable = .enabled ∧ Unpreempted s.hw.interruptBitmap ∧
      s.hw.cpu.psw.mode = .user ∧ 0 ≤ s.hw.cpu.rb ∧ 7 ≤ s.hw.cpu.sp ∧
      s.hw.cpu.sp + s.hw.cpu.rb ≤ s.hw.cpu.rl ∧ s.hw.cpu.rl < 2000 ∧
      isValidInstruction s.hw.cpu.ac ∧ isValidInstruction s.hw.cpu.psw.pc ∧
      isValidInstruction s.hw.cpu.rx) : Calling s := by
  obtain ⟨hop, hs, he, hp, hm, hb, h7, hl, hr, hac, hpc, hrx⟩ := h
  obtain ⟨⟨inst, m⟩, hf, hop⟩ := Option.map_eq_some_iff.mp hop
  refine ⟨⟨inst, m, hf, hop⟩, hs, he, hp, ?_, ?_, ?_⟩
  · rw [accessible_user hm]
    omega
  · exact frame_writable_user hm hb h7 (by omega) hr
  · exact ⟨hac, hpc, hrx, valid_of_range hb (by omega), valid_of_range (by omega) (by omega)⟩

structure ProgramKept (c d : Cpu) : Prop where
  ac : c.ac = d.ac
  psw : c.psw = d.psw
  rb : c.rb = d.rb
  rl : c.rl = d.rl
  rx : c.rx = d.rx
  sp : c.sp = d.sp

/-- The process waits for the monitor, about to make the same call again. -/
structure WaitsForMonitor (s t : System) : Prop where
  cpu : ProgramKept t.hw.cpu s.hw.cpu
  ram : ∀ x, (∀ k : Int, 1 ≤ k → k ≤ 7 → x ≠ translate s.hw.cpu (s.hw.cpu.sp - k)) →
    t.hw.ram x = s.hw.ram x
  kernel : t.kernel = { s.kernel.modifyProcess s.kernel.currentActiveProcess
    (fun p => { p with state := .blockedIo }) with osYield := true }
  monitor : t.monitor = s.monitor

/-- The frame of a trapped call keeps AC and PC where the handlers look for them, and RAM outside
of it. -/
theorem Calling.frame_words (h : Calling s) (ht : Trapped s t) :
    (entered t).hw.ram (translate s.hw.cpu (s.hw.cpu.sp - 7)) = s.hw.cpu.ac ∧
    (entered t).hw.ram (translate s.hw.cpu (s.hw.cpu.sp - 6)) = s.hw.cpu.psw.pc + 1 ∧
    ∀ x, (∀ k : Int, 1 ≤ k → k ≤ 7 → x ≠ translate s.hw.cpu (s.hw.cpu.sp - k)) →
      (entered t).hw.ram x = s.hw.ram x := by
  obtain ⟨hw, hv⟩ := h.frame ht
  have hac := entered_ac hw hv
  have hpc := entered_pc hw hv
  obtain ⟨_, _, _, _, hc⟩ := ht.cpu
  rw [translate_congr ht.view, ht.sp, hc] at hac hpc
  refine ⟨hac, hpc, ?_⟩
  intro x hx
  rw [← ht.ram]
  refine save_outside (m := interrupted t.hw) ?_
  intro k hl hu
  change x ≠ translate (interrupted t.hw).cpu (t.hw.cpu.sp - k)
  rw [ht.sp]
  have hi : SameView (interrupted t.hw).cpu s.hw.cpu := ht.view
  rw [translate_congr hi]
  exact hx k hl hu

/-- Stepping the saved PC back yields the address of the call itself. -/
theorem retry_word {pc : Int} (hl : 0 ≤ pc) (hu : pc < 1002000) :
    (intToWord (wordToInt (pc + 1) - 1)).1 = pc := by
  rw [word_to_int_small (by omega) (by omega), show pc + 1 - 1 = pc by omega,
    int_to_word_small hl (by omega)]

theorem Calling.retry_ram (h : Calling s) (ht : Trapped s t) (u : Unspecified) :
    (retryAfterMonitor u (entered t)).hw.ram =
      Function.update (entered t).hw.ram (translate s.hw.cpu (s.hw.cpu.sp - 6))
        s.hw.cpu.psw.pc := by
  obtain ⟨hl, hu⟩ := h.pc_bounds
  obtain ⟨-, hpc, -⟩ := h.frame_words ht
  have view := ht.entered_view
  have slot : (entered t).hw.cpu.sp + 1 = s.hw.cpu.sp - 6 := by
    rw [entered_sp, ht.sp]
    omega
  have acc : Accessible (entered t).hw.cpu (s.hw.cpu.sp - 6) :=
    (accessible_congr view _).mpr (h.writable 6 (by omega) (by omega))
  have saved : (readMemory ((entered t).hw.cpu.sp + 1) (entered t).hw).toOption.getD
      u.savedPcWord = s.hw.cpu.psw.pc + 1 := by
    rw [read_or_default, slot, if_pos acc, translate_congr view, hpc]
  unfold retryAfterMonitor
  simp only [System.modifyProcess]
  rw [saved, write_or_unchanged]
  simp only [retry_word hl hu]
  rw [slot, if_pos]
  · exact congrArg (fun x => Function.update (entered t).hw.ram x s.hw.cpu.psw.pc)
      (translate_congr view _)
  · exact ⟨acc, valid_of_range hl (by omega)⟩

theorem Calling.argument (h : Calling s) (ht : Trapped s t) :
    readMemory ((entered t).hw.cpu.sp + 7) (entered t).hw =
      .ok (s.hw.ram (translate s.hw.cpu s.hw.cpu.sp)) := by
  rw [entered_argument, translate_congr ht.view, ht.sp, ht.ram]
  rw [ht.sp]
  exact (accessible_congr ht.view _).mpr h.operand

theorem Trapped.accumulator (h : Trapped s t) : (entered t).hw.cpu.ac = s.hw.cpu.ac := by
  obtain ⟨_, _, _, _, hc⟩ := h.cpu
  rw [entered_accumulator, hc]

/-- The kernel's answer to a call while the monitor is closed. -/
theorem Calling.call_closed (h : Calling s) (ht : Trapped s t) (hc : s.monitor.active = false)
    (u : Unspecified) : handleSyscall u (entered t) = (.block, retryAfterMonitor u (entered t)) := by
  have hclosed : (entered t).monitor.active = false := by
    rw [← hc, ← ht.monitor]
    rfl
  unfold handleSyscall
  dsimp only
  rw [h.argument ht, ht.accumulator, hclosed]
  rcases h.service with hs | hs <;> rw [hs] <;> rfl

/-- A handled call ends with the registers of the caller; AC and PC come from the frame. -/
theorem Calling.left (h : Calling s) (ht : Trapped s t) {u : Unspecified} {r : System}
    (hr : handleInterrupt u .syscall (entered t) = (true, r))
    (hstep : cpuStep u s = checkInterrupts u t) :
    (cpuStep u s).1 = true ∧ (cpuStep u s).2 = { r with hw := (cpuStep u s).2.hw } ∧
    (cpuStep u s).2.hw.ram = r.hw.ram ∧
    ∃ mar mdr ir y, (cpuStep u s).2.hw.cpu = { s.hw.cpu with
      ac := r.hw.ram (translate s.hw.cpu (s.hw.cpu.sp - 7))
      mar := mar, mdr := mdr, ir := ir, cyclesCounter := y
      psw.pc := r.hw.ram (translate s.hw.cpu (s.hw.cpu.sp - 6)) } := by
  obtain ⟨hw, hv⟩ := h.frame ht
  have he : t.hw.cpu.psw.interruptEnable = .enabled := by
    obtain ⟨_, _, _, _, hc⟩ := ht.cpu
    rw [hc]
    exact h.enabled
  have kept := (handle_interrupt_handled u .syscall (entered t) (interrupted t.hw) rfl).toFrameKept
  rw [hstep, check_interrupts_taken u ht.pending he, ht.code]
  rw [hr] at kept ⊢
  dsimp only at kept ⊢
  rw [leave_restored hw hv he kept (by decide)]
  obtain ⟨mar, mdr, ir, y, hc⟩ := ht.cpu
  refine ⟨rfl, rfl, rfl, mar, mdr, ir, y, ?_⟩
  dsimp only
  rw [translate_congr ht.view, translate_congr ht.view, ht.sp, hc]

/-- AC and PC have words of their own in the frame. -/
theorem saved_words_apart (c : Cpu) : translate c (c.sp - 7) ≠ translate c (c.sp - 6) := by
  intro he
  have := translate_injective he
  omega

/-- With the monitor closed the caller is blocked at the call. -/
theorem Calling.blocks (h : Calling s) (hc : s.monitor.active = false) (u : Unspecified) :
    (cpuStep u s).1 = true ∧ WaitsForMonitor s (cpuStep u s).2 := by
  obtain ⟨t, hstep, ht⟩ := h.trapped u
  have hr : handleInterrupt u .syscall (entered t) =
      (true, (retryAfterMonitor u (entered t)).setYield) := by
    rw [handleInterrupt, h.call_closed ht hc u]
  obtain ⟨hstatus, hrest, hram, mar, mdr, ir, y, hcpu⟩ := h.left ht hr hstep
  obtain ⟨hac, -, hout⟩ := h.frame_words ht
  have hretry : (retryAfterMonitor u (entered t)).setYield.hw.ram = _ := h.retry_ram ht u
  rw [hretry, Function.update_self, Function.update_of_ne (saved_words_apart _), hac] at hcpu
  refine ⟨hstatus, ?_, ?_, ?_, ?_⟩
  · rw [hcpu]
    exact ⟨rfl, rfl, rfl, rfl, rfl, rfl⟩
  · intro x hx
    rw [hram, hretry, Function.update_of_ne (hx 6 (by omega) (by omega))]
    exact hout x hx
  · rw [hrest, ← ht.kernel]
    rfl
  · rw [hrest, ← ht.monitor]
    rfl

/-- The call is served: one line printed or one integer consumed, and the program goes on behind
the call. -/
structure ServedCall (s t : System) : Prop where
  cpu : ∃ ac, ProgramKept t.hw.cpu
    { s.hw.cpu with ac := ac, psw.pc := s.hw.cpu.psw.pc + 1 }
  ram : ∀ x, (∀ k : Int, 1 ≤ k → k ≤ 7 → x ≠ translate s.hw.cpu (s.hw.cpu.sp - k)) →
    t.hw.ram x = s.hw.ram x
  kernel : t.kernel = s.kernel
  active : t.monitor.active = s.monitor.active
  print : wordToInt s.hw.cpu.ac = 2 → t.hw.cpu.ac = s.hw.cpu.ac ∧
    t.monitor.keyboard = s.monitor.keyboard ∧
    t.monitor.printed = s.monitor.printed ++
      [outputMessage (s.kernel.processTable s.kernel.currentActiveProcess)
        (wordToInt (s.hw.ram (translate s.hw.cpu s.hw.cpu.sp)))]
  read : wordToInt s.hw.cpu.ac = 3 →
    t.hw.cpu.ac = (intToWord (toInt32 (s.monitor.keyboard 0))).1 ∧
    t.monitor.keyboard = (fun i => s.monitor.keyboard (i + 1)) ∧
    t.monitor.printed = s.monitor.printed

theorem history_kept (message : List Char) (mon : Monitor) :
    (monitorSaveHistory message mon).printed = mon.printed ∧
      (monitorSaveHistory message mon).keyboard = mon.keyboard ∧
      (monitorSaveHistory message mon).active = mon.active := by
  unfold monitorSaveHistory
  dsimp only
  split_ifs <;> exact ⟨rfl, rfl, rfl⟩

theorem print_open (message : List Char) {mon : Monitor} (h : mon.active = true) :
    (monitorPrint message mon).printed = mon.printed ++ [message] ∧
      (monitorPrint message mon).keyboard = mon.keyboard ∧
      (monitorPrint message mon).active = mon.active := by
  obtain ⟨hp, hk, ha⟩ := history_kept message mon
  unfold monitorPrint
  dsimp only
  rw [ha, if_pos h, hp]
  exact ⟨rfl, hk, rfl⟩

theorem read_monitor (s : System) :
    (readFromMonitor s).monitor.printed = s.monitor.printed ∧
      (readFromMonitor s).monitor.keyboard = (fun i => s.monitor.keyboard (i + 1)) ∧
      (readFromMonitor s).monitor.active = s.monitor.active := by
  unfold readFromMonitor
  dsimp only
  split_ifs
  · simp only [history_kept, and_self]
  · simp only [history_kept, and_self]

/-- The integer goes into the saved AC. -/
theorem Calling.read_ram (h : Calling s) (ht : Trapped s t) :
    (readFromMonitor (entered t)).hw.ram =
      Function.update (entered t).hw.ram (translate s.hw.cpu (s.hw.cpu.sp - 7))
        (intToWord (toInt32 (s.monitor.keyboard 0))).1 := by
  have view := ht.entered_view
  have slot : (entered t).hw.cpu.sp = s.hw.cpu.sp - 7 := by
    rw [entered_sp, ht.sp]
  have keyboard : (entered t).monitor.keyboard 0 = s.monitor.keyboard 0 := by
    rw [← ht.monitor]
    rfl
  have acc : Accessible (entered t).hw.cpu (s.hw.cpu.sp - 7) :=
    (accessible_congr view _).mpr (h.writable 7 (by omega) (by omega))
  unfold readFromMonitor
  dsimp only
  rw [write_or_unchanged, keyboard]
  dsimp only
  rw [slot, if_pos]
  · exact congrArg (fun x => Function.update (entered t).hw.ram x _) (translate_congr view _)
  · exact ⟨acc, int_to_word_valid _⟩

/-- A print call with the monitor open shows its argument and writes nothing. -/
theorem Calling.prints (h : Calling s) (ht : Trapped s t) (hs : wordToInt s.hw.cpu.ac = 2)
    (ho : s.monitor.active = true) {u : Unspecified} (hstep : cpuStep u s = checkInterrupts u t) :
    (cpuStep u s).1 = true ∧ ServedCall s (cpuStep u s).2 := by
  obtain ⟨hac, hpc, hout⟩ := h.frame_words ht
  have hkernel : (entered t).kernel = s.kernel := ht.kernel
  have hmonitor : (entered t).monitor = s.monitor := ht.monitor
  have hr : handleInterrupt u .syscall (entered t) =
      (true, { entered t with monitor := monitorPrint (outputMessage
        (s.kernel.processTable s.kernel.currentActiveProcess)
        (wordToInt (s.hw.ram (translate s.hw.cpu s.hw.cpu.sp)))) s.monitor }) := by
    unfold handleInterrupt handleSyscall
    dsimp only
    rw [h.argument ht, ht.accumulator, hs, hkernel, hmonitor, ho]
    rfl
  obtain ⟨hstatus, hrest, hram, mar, mdr, ir, y, hcpu⟩ := h.left ht hr hstep
  obtain ⟨hprinted, hkeyboard, hactive⟩ := print_open (outputMessage
    (s.kernel.processTable s.kernel.currentActiveProcess)
    (wordToInt (s.hw.ram (translate s.hw.cpu s.hw.cpu.sp)))) ho
  dsimp only at hcpu hram
  rw [hac, hpc] at hcpu
  refine ⟨hstatus, ⟨s.hw.cpu.ac, ?_⟩, ?_, ?_, ?_, ?_, ?_⟩
  · rw [hcpu]
    exact ⟨rfl, rfl, rfl, rfl, rfl, rfl⟩
  · intro x hx
    rw [hram]
    exact hout x hx
  · rw [hrest]
    exact hkernel
  · rw [hrest]
    exact hactive
  · intro _
    rw [hrest, hcpu]
    exact ⟨rfl, hkeyboard, hprinted⟩
  · intro hs'
    rw [hs] at hs'
    exact absurd hs' (by decide)

/-- A read call with the monitor open leaves the next integer in AC. -/
theorem Calling.reads (h : Calling s) (ht : Trapped s t) (hs : wordToInt s.hw.cpu.ac = 3)
    (ho : s.monitor.active = true) {u : Unspecified} (hstep : cpuStep u s = checkInterrupts u t) :
    (cpuStep u s).1 = true ∧ ServedCall s (cpuStep u s).2 := by
  obtain ⟨-, hpc, hout⟩ := h.frame_words ht
  have hmonitor : (entered t).monitor = s.monitor := ht.monitor
  have hr : handleInterrupt u .syscall (entered t) = (true, readFromMonitor (entered t)) := by
    unfold handleInterrupt handleSyscall
    dsimp only
    rw [ht.accumulator, hs, hmonitor, ho]
    rfl
  obtain ⟨hstatus, hrest, hram, mar, mdr, ir, y, hcpu⟩ := h.left ht hr hstep
  obtain ⟨hprinted, hkeyboard, hactive⟩ := read_monitor (entered t)
  rw [hmonitor] at hprinted hkeyboard hactive
  rw [h.read_ram ht] at hcpu hram
  rw [Function.update_self, Function.update_of_ne (saved_words_apart _).symm, hpc] at hcpu
  refine ⟨hstatus, ⟨(intToWord (toInt32 (s.monitor.keyboard 0))).1, ?_⟩, ?_, ?_, ?_, ?_, ?_⟩
  · rw [hcpu]
    exact ⟨rfl, rfl, rfl, rfl, rfl, rfl⟩
  · intro x hx
    rw [hram, Function.update_of_ne (hx 7 (by omega) (by omega))]
    exact hout x hx
  · rw [hrest]
    exact ht.kernel
  · rw [hrest]
    exact hactive
  · intro hs'
    rw [hs] at hs'
    exact absurd hs' (by decide)
  · intro _
    rw [hrest, hcpu]
    exact ⟨rfl, hkeyboard, hprinted⟩

/-- With the monitor open the caller is served. -/
theorem Calling.serves (h : Calling s) (ho : s.monitor.active = true) (u : Unspecified) :
    (cpuStep u s).1 = true ∧ ServedCall s (cpuStep u s).2 := by
  obtain ⟨t, hstep, ht⟩ := h.trapped u
  rcases h.service with hs | hs
  · exact h.prints ht hs ho hstep
  · exact h.reads ht hs ho hstep

end Lucario.Proofs
