import Lucario.Lib.Overlay
import Lucario.Proofs.InstructionFrame
import Lucario.Proofs.ProcessorStep
import Lucario.Proofs.Sessions

namespace Lucario.Proofs

def machineRam : Overlay.Part Machine Int Int where
  get m := m.ram
  set f m := { m with ram := f }
  get_set _ _ := rfl
  set_get _ := rfl

def systemRam : Overlay.Part System Int Int where
  get s := s.hw.ram
  set f s := { s with hw := { s.hw with ram := f } }
  get_set _ _ := rfl
  set_get _ := rfl

def InPartition (lo hi : Int) (c : Cpu) : Prop := c.psw.mode = .user ∧ c.rb = lo ∧ c.rl = hi

noncomputable abbrev around (lo hi : Int) (r : Int → Int) (m : Machine) : Machine :=
  Overlay.overlay machineRam (Set.Icc lo hi) r m

theorem InPartition.of_view {lo hi : Int} {c d : Cpu} (h : SameView c d)
    (hd : InPartition lo hi d) : InPartition lo hi c :=
  ⟨h.1.trans hd.1, h.2.1.trans hd.2.1, h.2.2.trans hd.2.2⟩

theorem translate_inside {lo hi a : Int} {c : Cpu} (hc : InPartition lo hi c)
    (ha : Accessible c a) : translate c a ∈ Set.Icc lo hi := by
  obtain ⟨hm, hb, hl⟩ := hc
  have := (accessible_user hm a).mp ha
  rw [translate_user hm, Set.mem_Icc]
  omega

/-- A user program cannot tell what lies around its partition. -/
theorem around_unnoticed (lo hi : Int) (r : Int → Int) :
    Unnoticed (InPartition lo hi) (around lo hi r) where
  view _ _ h hd := hd.of_view h
  cpu _ := rfl
  setCpu _ _ := rfl
  raise _ _ := rfl
  related _ _ _ := rfl
  load _ _ hF ha := Overlay.get_overlay_inside (L := machineRam) (translate_inside hF ha)
  store m a v hF ha := by
    have hin := translate_inside hF ha
    have hram : (Set.Icc lo hi).piecewise (Function.update m.ram (translate m.cpu a) v) r =
        Function.update ((Set.Icc lo hi).piecewise m.ram r) (translate m.cpu a) v := by
      funext x
      by_cases hx : x = translate m.cpu a
      · subst hx
        simp [Set.piecewise, hin]
      · by_cases hs : x ∈ Set.Icc lo hi <;> simp [Set.piecewise, hs, hx]
    exact congrArg (fun ram => ({ m with ram := ram } : Machine)) hram

theorem around_unnoticed_by_dma (lo hi : Int) (r : Int → Int) :
    UnnoticedByDma (around lo hi r) := ⟨fun _ => rfl, fun _ _ => rfl⟩

section

variable {lo hi : Int} {r : Int → Int} {m : Machine} {s : System}

theorem around_pop (hF : InPartition lo hi m.cpu) (a : Int) :
    popAt a (around lo hi r m) = popAt a m := by
  rw [popAt, (around_unnoticed lo hi r).read hF, popAt]

theorem around_push (hF : InPartition lo hi m.cpu) (v : Int) :
    internalPush v (around lo hi r m) = around lo hi r (internalPush v m) := by
  have moved : { around lo hi r m with cpu.sp := (around lo hi r m).cpu.sp - 1 } =
      around lo hi r { m with cpu.sp := m.cpu.sp - 1 } := rfl
  unfold internalPush
  dsimp only
  rw [moved]
  exact (around_unnoticed lo hi r).orUnchanged (m := { m with cpu.sp := m.cpu.sp - 1 }) hF _ v

theorem around_push_all (ws : List Int) (hF : InPartition lo hi m.cpu) :
    pushAll ws (around lo hi r m) = around lo hi r (pushAll ws m) := by
  induction ws generalizing m with
  | nil => rfl
  | cons w ws ih =>
    have hv : SameView (internalPush w m).cpu m.cpu := by
      rw [push_eq]
      exact ⟨rfl, rfl, rfl⟩
    change pushAll ws (internalPush w (around lo hi r m)) = _
    rw [around_push hF]
    exact ih (hF.of_view hv)

theorem around_entered (hF : InPartition lo hi s.hw.cpu) :
    entered { s with hw := around lo hi r s.hw } =
      { entered s with hw := around lo hi r (entered s).hw } := by
  have h := around_push_all (r := r) (frameWords s.hw.cpu) (m := interrupted s.hw) hF
  unfold entered
  dsimp only
  rw [saveContext_eq, saveContext_eq]
  exact congrArg (fun hw => ({ s with hw := hw } : System)) h

/-- The blocking calls and the interrupt handlers look at memory through the program's view. -/
theorem around_retry (u : Unspecified) (hF : InPartition lo hi s.hw.cpu) :
    retryAfterMonitor u { s with hw := around lo hi r s.hw } =
      { retryAfterMonitor u s with hw := around lo hi r (retryAfterMonitor u s).hw } := by
  unfold retryAfterMonitor
  simp only [System.modifyProcess]
  rw [(around_unnoticed lo hi r).cpu, (around_unnoticed lo hi r).read hF]
  generalize intToWord (wordToInt ((readMemory (s.hw.cpu.sp + 1) s.hw).toOption.getD
    u.savedPcWord) - 1) = w
  have stored := (around_unnoticed lo hi r).orUnchanged
    (m := { s.hw with cpu.psw.conditionCode := w.2 }) hF (s.hw.cpu.sp + 1) w.1
  exact congrArg (fun hw => ({ s.modifyProcess s.kernel.currentActiveProcess
    (fun p => { p with state := .blockedIo }) with hw := hw } : System)) stored

theorem around_read (hF : InPartition lo hi s.hw.cpu) :
    readFromMonitor { s with hw := around lo hi r s.hw } =
      { readFromMonitor s with hw := around lo hi r (readFromMonitor s).hw } := by
  unfold readFromMonitor
  dsimp only
  generalize intToWord (toInt32 (s.monitor.keyboard 0)) = w
  have stored := (around_unnoticed lo hi r).orUnchanged
    (m := { s.hw with cpu.psw.conditionCode := w.2 }) hF s.hw.cpu.sp w.1
  exact congrArg (fun hw => ({ hw := hw, kernel := s.kernel, vfs := s.vfs, monitor := _ } : System))
    stored

theorem around_syscall (u : Unspecified) (hF : InPartition lo hi s.hw.cpu) :
    handleSyscall u { s with hw := around lo hi r s.hw } =
      ((handleSyscall u s).1,
        { (handleSyscall u s).2 with hw := around lo hi r (handleSyscall u s).2.hw }) := by
  have retry := around_retry (r := r) u hF
  have read := around_read (r := r) hF
  unfold handleSyscall
  dsimp only
  rw [(around_unnoticed lo hi r).cpu, (around_unnoticed lo hi r).read hF, retry, read]
  generalize wordToInt s.hw.cpu.ac = code
  generalize readMemory (s.hw.cpu.sp + 7) s.hw = param
  split
  · rfl
  · cases param with
    | error status => rfl
    | ok w => dsimp only; split_ifs <;> rfl
  · split_ifs <;> rfl
  · cases param with
    | error status => rfl
    | ok w => dsimp only; split_ifs <;> rfl
  · rfl

theorem around_handle (u : Unspecified) (code : InterruptCode) (hF : InPartition lo hi s.hw.cpu) :
    handleInterrupt u code { s with hw := around lo hi r s.hw } =
      ((handleInterrupt u code s).1, { (handleInterrupt u code s).2 with
        hw := around lo hi r (handleInterrupt u code s).2.hw }) := by
  cases code
  case syscall =>
    unfold handleInterrupt
    dsimp only
    rw [around_syscall u hF]
    generalize handleSyscall u s = result
    obtain ⟨status, t⟩ := result
    cases status <;> rfl
  all_goals rfl

/-- A frame in the partition is popped the same whatever lies around. -/
theorem around_restore (code : InterruptCode) (hF : InPartition lo hi m.cpu)
    (hmode : (OpMode.ofWord (popAt (m.cpu.sp + 3) m)).getD .user = m.cpu.psw.mode)
    (hrb : popAt (m.cpu.sp + 4) m = m.cpu.rb) (hrl : popAt (m.cpu.sp + 5) m = m.cpu.rl) :
    restoreContext code (around lo hi r m) = around lo hi r (restoreContext code m) := by
  have pop : ∀ a, popAt a (around lo hi r m) = popAt a m := around_pop hF
  have hcpu : (around lo hi r m).cpu = m.cpu := rfl
  rw [restore_of_frame code m hmode hrb hrl, restore_of_frame]
  · rw [hcpu]
    simp only [pop]
    rfl
  · rw [hcpu, pop]
    exact hmode
  · rw [hcpu, pop]
    exact hrb
  · rw [hcpu, pop]
    exact hrl

/-- What a handler leaves on the stack brings back mode, base and limit. -/
theorem frame_view_kept {m n : Machine} (h : FrameKept m n) (hw : FrameWritable m.cpu)
    (hrb : isValidInstruction m.cpu.rb) (hrl : isValidInstruction m.cpu.rl) :
    (OpMode.ofWord (popAt (n.cpu.sp + 3) n)).getD .user = n.cpu.psw.mode ∧
      popAt (n.cpu.sp + 4) n = n.cpu.rb ∧ popAt (n.cpu.sp + 5) n = n.cpu.rl := by
  obtain ⟨vmode, vrb, vrl⟩ := h.view
  have acc : ∀ i : Nat, i < 5 → Accessible m.cpu (m.cpu.sp - 1 - i) := by
    intro i hi
    rw [show m.cpu.sp - 1 - (i : Int) = m.cpu.sp - (i + 1) by omega]
    exact hw _ (by omega) (by omega)
  have mode : popAt (n.cpu.sp + 3) n = m.cpu.psw.mode.toWord :=
    frame_word_kept h (i := 3) (by omega) (by omega) (acc 3 (by omega)) (mode_valid _)
  have base : popAt (n.cpu.sp + 4) n = m.cpu.rb :=
    frame_word_kept h (i := 2) (by omega) (by omega) (acc 2 (by omega)) hrb
  have limit : popAt (n.cpu.sp + 5) n = m.cpu.rl :=
    frame_word_kept h (i := 1) (by omega) (by omega) (acc 1 (by omega)) hrl
  rw [mode, base, limit, mode_of_toWord, vmode, vrb, vrl]
  exact ⟨rfl, rfl, rfl⟩

/-- Taking an interrupt in the partition does not reach outside of it. -/
theorem around_check (u : Unspecified) (hF : InPartition lo hi s.hw.cpu)
    (hw : FrameWritable s.hw.cpu) (hrb : isValidInstruction lo) (hrl : isValidInstruction hi) :
    checkInterrupts u { s with hw := around lo hi r s.hw } =
      ((checkInterrupts u s).1, { (checkInterrupts u s).2 with
        hw := around lo hi r (checkInterrupts u s).2.hw }) := by
  rcases interrupts_idle_or_taken s.hw with hidle | ⟨hp, he⟩
  · rw [check_interrupts_idle u hidle, check_interrupts_idle u]
    exact hidle
  · have hF' : InPartition lo hi (entered s).hw.cpu := by
      obtain ⟨hm, hb, hl⟩ := save_view (interrupted s.hw)
      exact hF.of_view ⟨hm, hb, hl⟩
    have hbitmap : (around lo hi r s.hw).interruptBitmap = s.hw.interruptBitmap := rfl
    have kept := (handle_interrupt_handled u (codeToHandle s.hw.interruptBitmap) (entered s)
      (interrupted s.hw) rfl).toFrameKept
    have taken := check_interrupts_taken u (s := { s with hw := around lo hi r s.hw }) hp he
    rw [taken, check_interrupts_taken u hp he, around_entered hF]
    dsimp only
    rw [hbitmap, around_handle u _ hF']
    generalize codeToHandle s.hw.interruptBitmap = code at kept ⊢
    generalize handleInterrupt u code (entered s) = result at kept ⊢
    obtain ⟨status, t⟩ := result
    cases status with
    | false => rfl
    | true =>
      rw [← hF.2.1] at hrb
      rw [← hF.2.2] at hrl
      obtain ⟨hmode, hrb', hrl'⟩ := frame_view_kept kept hw hrb hrl
      have hT : InPartition lo hi t.hw.cpu := hF.of_view kept.view
      have restored := around_restore (r := r) code
        (m := { t.hw with interruptBitmap := t.hw.interruptBitmap.erase code }) hT hmode hrb' hrl'
      refine congrArg (Prod.mk true) ?_
      simp only [leave, if_true]
      have moved : { around lo hi r t.hw with
          interruptBitmap := (around lo hi r t.hw).interruptBitmap.erase code } =
          around lo hi r { t.hw with interruptBitmap := t.hw.interruptBitmap.erase code } := rfl
      rw [moved, restored]
      rfl

theorem around_fetch (hF : InPartition lo hi m.cpu) :
    fetch (around lo hi r m) = ((fetch m).1, around lo hi r (fetch m).2) := by
  have moved : { around lo hi r m with cpu.mar := (around lo hi r m).cpu.psw.pc } =
      around lo hi r { m with cpu.mar := m.cpu.psw.pc } := rfl
  have loaded := (around_unnoticed lo hi r).read (m := { m with cpu.mar := m.cpu.psw.pc }) hF
    m.cpu.psw.pc
  unfold fetch
  dsimp only
  rw [moved]
  dsimp only at loaded
  have hpc : (around lo hi r m).cpu.psw.pc = m.cpu.psw.pc := rfl
  rw [hpc, loaded]
  cases readMemory m.cpu.psw.pc { m with cpu.mar := m.cpu.psw.pc } <;> rfl

theorem around_fetched (hF : InPartition lo hi m.cpu) :
    fetched (around lo hi r m) = (fetched m).map (fun x => (x.1, around lo hi r x.2)) := by
  unfold fetched
  rw [around_fetch hF]
  generalize fetch m = f
  obtain ⟨status, n⟩ := f
  cases status <;> rfl

/-- After the instruction the frame of an interrupt still fits into the partition. -/
theorem after_instruction_partition {u : Unspecified} {inst : Instruction}
    (hF : InPartition lo hi m.cpu) (hop : ¬ Privileged inst.opCode) (hlo : 0 ≤ lo)
    (hhi : hi < 2000) (hsp : 8 ≤ m.cpu.sp) (hsp' : m.cpu.sp ≤ hi - lo + 1) :
    InPartition lo hi (afterInstruction u inst m).cpu ∧
      FrameWritable (afterInstruction u inst m).cpu := by
  obtain ⟨view, moved⟩ := handler_view u inst m hop
  obtain ⟨y, hcpu⟩ := count_cycle_cpu (handler u inst m).2
  have hF' := hF.of_view view
  rw [afterInstruction, hcpu]
  refine ⟨hF', ?_⟩
  obtain ⟨hm, hb, hl⟩ := hF
  obtain ⟨hm', hb', hl'⟩ := hF'
  refine frame_writable_user hm' (by dsimp only; omega) ?_ ?_ (by dsimp only; omega) <;> dsimp only
  · rcases moved with h | ⟨h, -⟩ | ⟨h, -⟩ <;> omega
  · rcases moved with h | ⟨h, -⟩ | ⟨h, ha | ha⟩
    · omega
    · omega
    · have := (accessible_user hm _).mp ha
      omega
    · omega

/-- A processor step in user mode, whatever it fetches and whatever is pending, is confined to the
partition. -/
theorem cpu_step_confined (u : Unspecified) (hF : InPartition lo hi s.hw.cpu) (hlo : 0 ≤ lo)
    (hlohi : lo ≤ hi) (hhi : hi < 2000) (hsp : 8 ≤ s.hw.cpu.sp) (hsp' : s.hw.cpu.sp ≤ hi - lo + 1)
    (hop : ∀ inst m, fetched s.hw = some (inst, m) →
      ¬ Privileged inst.opCode ∧ inst.opCode ≠ .sdmaon) :
    Overlay.Confined systemRam (Set.Icc lo hi) (cpuStep u) s := by
  intro r
  change cpuStep u { s with hw := around lo hi r s.hw } =
    ((cpuStep u s).1, { (cpuStep u s).2 with hw := around lo hi r (cpuStep u s).2.hw })
  have hfetched := around_fetched (r := r) hF
  cases hf : fetched s.hw with
  | none =>
    rw [hf] at hfetched
    rw [cpu_step_unfetched u hf, cpu_step_unfetched u hfetched]
    rfl
  | some x =>
    obtain ⟨inst, m⟩ := x
    rw [hf] at hfetched
    obtain ⟨hpriv, hon⟩ := hop inst m hf
    obtain ⟨w, -, -, hm, -⟩ := fetched_machine hf
    have hFm : InPartition lo hi m.cpu := by
      rw [hm]
      exact hF
    have carried := (around_unnoticed lo hi r).handler hFm u inst
      (fun _ => around_unnoticed_by_dma lo hi r) (fun h => absurd h hon)
    have after : afterInstruction u inst (around lo hi r m) =
        around lo hi r (afterInstruction u inst m) := by
      unfold Carries at carried
      rw [afterInstruction, carried, afterInstruction]
      exact (around_unnoticed lo hi r).count _
    obtain ⟨hF', hw'⟩ := after_instruction_partition (u := u) hFm hpriv hlo hhi
      (by rw [hm]; exact hsp) (by rw [hm]; exact hsp')
    rw [cpu_step_fetched u hf, cpu_step_fetched u hfetched]
    dsimp only
    rw [after]
    exact around_check (s := { s with hw := afterInstruction u inst m }) u hF' hw'
      (valid_of_range hlo (by omega)) (valid_of_range (by omega) (by omega))

end

/-- A step of a user program writes nothing outside its partition and does not depend on what is
there. -/
theorem user_confinement (u : Unspecified) (s : System) (hm : s.hw.cpu.psw.mode = .user)
    (hb : 0 ≤ s.hw.cpu.rb) (hbl : s.hw.cpu.rb ≤ s.hw.cpu.rl) (hl : s.hw.cpu.rl < ramSize)
    (hsp : 8 ≤ s.hw.cpu.sp) (hsp' : s.hw.cpu.sp ≤ s.hw.cpu.rl - s.hw.cpu.rb + 1)
    (hop : ∀ inst m, fetched s.hw = some (inst, m) →
      inst.opCode ≠ .chmod ∧ inst.opCode ≠ .strrb ∧ inst.opCode ≠ .strrl ∧
        inst.opCode ≠ .sdmaon) :
    (∀ x, x ∉ Set.Icc s.hw.cpu.rb s.hw.cpu.rl → (cpuStep u s).2.hw.ram x = s.hw.ram x) ∧
    ∀ s', Overlay.SameInside systemRam (Set.Icc s.hw.cpu.rb s.hw.cpu.rl) s s' →
      (cpuStep u s').1 = (cpuStep u s).1 ∧
      Overlay.SameInside systemRam (Set.Icc s.hw.cpu.rb s.hw.cpu.rl) (cpuStep u s).2
        (cpuStep u s').2 := by
  have confined := cpu_step_confined u (s := s) ⟨hm, rfl, rfl⟩ hb hbl hl hsp hsp' (by
    intro inst m hf
    obtain ⟨hchmod, hstrrb, hstrrl, hon⟩ := hop inst m hf
    exact ⟨fun hpriv => hpriv.elim hchmod (fun h => h.elim hstrrb hstrrl), hon⟩)
  refine ⟨fun x hx => confined.frame hx, ?_⟩
  intro s' hs
  exact confined.independent hs

theorem user_confinement_first_reader :
    (cpuStep zeros firstReader).2.hw.ram 299 = firstReader.hw.ram 299 ∧
      (cpuStep zeros firstReader).2.hw.ram 385 = firstReader.hw.ram 385 := by
  have state : (fetched firstReader.hw).map (fun x => x.1.opCode) = some .loadrx ∧
      firstReader.hw.cpu.psw.mode = .user ∧ firstReader.hw.cpu.sp = 84 ∧
      firstReader.hw.cpu.rb = 300 ∧ firstReader.hw.cpu.rl = 384 := by decide +kernel
  obtain ⟨hop, hm, hsp, hb, hl⟩ := state
  have hr : firstReader.hw.cpu.rl < ramSize := by
    rw [hl]
    decide
  have confined := (user_confinement zeros firstReader hm (by omega) (by omega) hr (by omega)
    (by omega) (by
      intro inst m hf
      rw [hf] at hop
      have hread : inst.opCode = .loadrx := Option.some.inj hop
      rw [hread]
      decide)).1
  rw [hb, hl] at confined
  exact ⟨confined 299 (by simp), confined 385 (by simp)⟩

end Lucario.Proofs
