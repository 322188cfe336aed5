import Lucario.Lib.Simulation
import Lucario.Proofs.Agreement
import Lucario.Proofs.DeferredOverflow
import Lucario.Proofs.ExactSleep
import Lucario.Proofs.Isolation
import Lucario.Proofs.StackBounds

namespace Lucario.Proofs

inductive Effect where
  | output (value : Int)
  | input (value : Int)
  | sleep (tics : Int)

/-- The answer to a system call that nothing stands in the way of. A program does not get one when
it asks for its end, when its argument cannot be read or for a sleep that is negative. -/
inductive Answered (m : Machine) : List Effect → Machine → Prop where
  | output {w : Int} (hac : wordToInt m.cpu.ac = 2) (hw : readMemory m.cpu.sp m = .ok w) :
      Answered m [.output (wordToInt w)] m
  | input (v : Int) (hac : wordToInt m.cpu.ac = 3) :
      Answered m [.input v] { m with cpu.ac := (intToWord (toInt32 v)).1 }
  | sleep {w : Int} (hac : wordToInt m.cpu.ac = 4) (hw : readMemory m.cpu.sp m = .ok w)
      (hn : 1 ≤ wordToInt w) : Answered m [.sleep (wordToInt w)] m
  | awake {w : Int} (hac : wordToInt m.cpu.ac = 4) (hw : readMemory m.cpu.sp m = .ok w)
      (hn : wordToInt w = 0) : Answered m [] m
  | unknown (hac : wordToInt m.cpu.ac ∉ [1, 2, 3, 4]) : Answered m [] m

/-- One instruction of a program that has the machine to itself: no timer, no other process, and
every call is answered when it is made. -/
inductive AloneStep : Machine → List Effect → Machine → Prop where
  | instruction {m n k : Machine} {inst : Instruction} (u : Unspecified)
      (hf : fetched m = some (inst, n)) (hop : inst.opCode ≠ .svc)
      (hh : handler u inst n = (.success, k)) : AloneStep m [] k
  | call {m n k : Machine} {inst : Instruction} {os : List Effect}
      (hf : fetched m = some (inst, n)) (hop : inst.opCode = .svc) (ha : Answered n os k) :
      AloneStep m os k

inductive Shown (p : Pcb) (mon mon' : Monitor) : List Effect → Prop where
  | quiet (hp : mon'.printed = mon.printed) (hk : mon'.keyboard = mon.keyboard) :
      Shown p mon mon' []
  | output (v : Int) (hp : mon'.printed = mon.printed ++ [outputMessage p v])
      (hk : mon'.keyboard = mon.keyboard) : Shown p mon mon' [.output v]
  | input (hp : mon'.printed = mon.printed)
      (hk : mon'.keyboard = fun i => mon.keyboard (i + 1)) :
      Shown p mon mon' [.input (mon.keyboard 0)]
  | sleep (n : Int) (hp : mon'.printed = mon.printed) (hk : mon'.keyboard = mon.keyboard) :
      Shown p mon mon' [.sleep n]

/-- The words a program can count on: those of its partition but for the ones from `floor` up to
its stack pointer, where interrupts save its registers. -/
def Home (floor : Int) (c : Cpu) : Set Int :=
  {x | c.rb ≤ x ∧ x ≤ c.rl ∧ ¬ (floor ≤ x - c.rb ∧ x - c.rb < c.sp)}

/-- An instruction that takes neither its code nor its operand from below the stack pointer and
leaves the registers such that an interrupt can save them above `floor`. -/
structure Disciplined (floor : Int) (u : Unspecified) (inst : Instruction) (m : Machine) : Prop where
  code : translate m.cpu (m.cpu.psw.pc - 1) ∈ Home floor m.cpu
  operand : OperandIn (Home floor m.cpu) inst m.cpu
  top : inst.opCode = .svc → Accessible m.cpu m.cpu.sp
  room : (handler u inst m).1 = .success → floor + 7 ≤ (handler u inst m).2.cpu.sp
  valid : (handler u inst m).1 = .success → FrameValid (handler u inst m).2.cpu

structure Placed (a : Pcb) (s : System) : Prop where
  home : AtHome a s.hw.cpu
  bounds : 0 ≤ partitionBase a ∧ partitionBase a ≤ partitionLimit a ∧ partitionLimit a < 2000
  pending : s.hw.interruptBitmap ⊆ {.timer}

section
variable {u : Unspecified} {inst : Instruction} {m : Machine}

theorem write_sp (a v : Int) (m : Machine) :
    (finishWrite m (writeMemory a v m)).2.cpu.sp = m.cpu.sp := by
  by_cases hw : Accessible m.cpu a ∧ isValidInstruction v
  · rw [write_accessible hw.1 hw.2]
    rfl
  · obtain ⟨status, hs⟩ := write_refused hw
    rw [hs]
    rfl

theorem overflow_sp (v : Int) (m : Machine) : (raiseOnOverflow v m).cpu.sp = m.cpu.sp := by
  unfold raiseOnOverflow
  split_ifs <;> rfl

/-- Only the stack instructions move the stack pointer. -/
theorem handler_sp (hop : ¬ MovesStack inst.opCode) :
    (handler u inst m).2.cpu.sp = m.cpu.sp := by
  have hfetch := (fetch_operand_steady inst m).sp
  have arithmetic : (executeArithmetic inst m).2.cpu.sp = m.cpu.sp := by
    unfold executeArithmetic
    generalize fetchOperand inst m = f at hfetch
    obtain ⟨operand, n⟩ := f
    cases operand with
    | none => exact hfetch
    | some w =>
      dsimp only
      cases inst.opCode
      case sum | res => exact (overflow_sp _ _).trans hfetch
      case mult =>
        refine (overflow_sp _ _).trans ?_
        split_ifs <;> exact hfetch
      case divi =>
        dsimp only
        split_ifs
        · exact hfetch
        · exact (overflow_sp _ _).trans hfetch
      all_goals exact hfetch
  have movement : (executeDataMovement u inst m).2.cpu.sp = m.cpu.sp := by
    unfold executeDataMovement
    generalize fetchOperand inst m = f at hfetch
    obtain ⟨operand, n⟩ := f
    cases inst.opCode
    case str =>
      dsimp only
      split_ifs
      · rfl
      · exact write_sp _ _ _
    case strsp => exact write_sp _ _ _
    case load =>
      cases operand <;> exact hfetch
    all_goals rfl
  have branching : (executeBranching inst m).2.cpu.sp = m.cpu.sp := by
    unfold executeBranching
    dsimp only
    split_ifs
    · rfl
    · cases readMemory m.cpu.sp m with
      | error status => rfl
      | ok w =>
        dsimp only
        cases inst.opCode
        case jmpe | jmpne | jmplt | jmplgt =>
          dsimp only
          split_ifs <;> rfl
        all_goals rfl
  have device : ForDma inst.opCode → (executeDMAInstruction u inst m).2.cpu.sp = m.cpu.sp := by
    intro hdma
    generalize hf : fetchOperand inst m = f at hfetch
    obtain ⟨operand, n⟩ := f
    rcases dma_execute_eq u inst hf hdma rfl with ⟨-, -, he⟩ | ⟨-, -, he⟩ | ⟨-, -, k, hset, hon, he⟩
    · rw [he]
      exact hfetch
    · rw [he]
      exact hfetch
    · have hk : k.cpu = n.cpu := by
        by_cases ho : inst.opCode = .sdmaon
        · rw [hon ho, dma_transfer_eq]
          split_ifs <;> rfl
        · rw [hset ho]
      rw [he]
      split_ifs <;> exact (congrArg Cpu.sp hk).trans hfetch
  unfold handler
  cases ho : inst.opCode
  case sum | res | mult | divi => exact arithmetic
  case load | str | loadrx | strrx => exact movement
  case loadrb | strrb | loadrl | strrl | loadsp | strsp => exact movement
  case comp =>
    unfold executeComparison
    generalize fetchOperand inst m = f at hfetch
    obtain ⟨operand, n⟩ := f
    cases operand <;> exact hfetch
  case tti =>
    unfold executeTimerInterval
    generalize fetchOperand inst m = f at hfetch
    obtain ⟨operand, n⟩ := f
    cases operand <;> exact hfetch
  case jmpe | jmpne | jmplt | jmplgt | j => exact branching
  case retrn | psh | pop => exact absurd (by simp [MovesStack, ho]) hop
  case svc | invalid => rfl
  case hab | dhab =>
    unfold executeInterruptsChange
    rw [ho]
  case chmod =>
    unfold executeChangeMode
    split_ifs <;> rfl
  all_goals exact device (by simp [ForDma, ho])

end

section

variable {floor : Int} {u : Unspecified} {inst : Instruction} {m m' n : Machine} {c d : Cpu}

theorem ProgramKept.symm (h : ProgramKept c d) : ProgramKept d c :=
  ⟨h.ac.symm, h.psw.symm, h.rb.symm, h.rl.symm, h.rx.symm, h.sp.symm⟩

theorem home_congr (hb : d.rb = c.rb) (hl : d.rl = c.rl) (hs : d.sp = c.sp) :
    Home floor d = Home floor c := by
  rw [Home, Home, hb, hl, hs]

theorem ProgramKept.home (h : ProgramKept c d) : Home floor c = Home floor d :=
  home_congr h.rb h.rl h.sp

/-- The stack pointer points to a word that stays. -/
theorem top_at_home (hm : c.psw.mode = .user) (ha : Accessible c c.sp) :
    translate c c.sp ∈ Home floor c := by
  have hin := (accessible_user hm _).mp ha
  rw [translate_user hm]
  refine ⟨by omega, by omega, fun h => ?_⟩
  omega

/-- Where an instruction was fetched from, before and after the fetch. -/
theorem fetched_from_home (hf : fetched m = some (inst, n))
    (hcode : translate n.cpu (n.cpu.psw.pc - 1) ∈ Home floor n.cpu) :
    pcWord m.cpu ∈ Home floor m.cpu := by
  obtain ⟨w, -, -, hn, -⟩ := fetched_machine hf
  rw [hn] at hcode
  dsimp only at hcode
  rw [Int.add_sub_cancel] at hcode
  exact hcode

/-- A frame lies outside. -/
theorem frame_not_home (hm : c.psw.mode = .user) (hroom : floor + 7 ≤ c.sp) {x : Int}
    (hx : x ∈ Home floor c) (w : Int) : ¬ FrameStores c x w := by
  obtain ⟨-, -, hout⟩ := hx
  rintro (⟨i, hi, -, -, rfl, -⟩ | ⟨k, v, hk, -, -, rfl, -⟩) <;> rw [translate_user hm] at hout
  · exact hout ⟨by omega, by omega⟩
  · exact hout ⟨by omega, by omega⟩

theorem frame_word_not_home (hm : c.psw.mode = .user) (hroom : floor + 7 ≤ c.sp) {x : Int}
    (hx : x ∈ Home floor c) : ∀ k : Int, 1 ≤ k → k ≤ 7 → x ≠ translate c (c.sp - k) := by
  obtain ⟨-, -, hout⟩ := hx
  rintro k hl hu rfl
  rw [translate_user hm] at hout
  exact hout ⟨by omega, by omega⟩

/-- An instruction that succeeds on one machine does the same on another with the same words at
home, and both agree on what is home afterwards. -/
theorem home_handler (h : Agree (Home floor m.cpu) m m') (hm : m.cpu.psw.mode = .user)
    (hpriv : ¬ Privileged inst.opCode) (hon : inst.opCode ≠ .sdmaon)
    (hin : OperandIn (Home floor m.cpu) inst m.cpu) :
    (handler u inst m').1 = (handler u inst m).1 ∧ ((handler u inst m).1 = .success →
      Agree (Home floor (handler u inst m).2.cpu) (handler u inst m).2 (handler u inst m').2) := by
  obtain ⟨hstatus, agree⟩ := h.handler (u := u) hon hin (top_at_home hm)
  refine ⟨hstatus, fun hs => ?_⟩
  obtain ⟨⟨-, hb, hl⟩, -⟩ := handler_view u inst m hpriv
  have shrinks : m.cpu.sp ≤ (handler u inst m).2.cpu.sp →
      Home floor (handler u inst m).2.cpu ⊆ Home floor m.cpu := by
    rintro hsp x ⟨hxl, hxu, hout⟩
    rw [hb] at hxl hout
    rw [hl] at hxu
    exact ⟨hxl, hxu, fun hx => hout ⟨hx.1, by omega⟩⟩
  by_cases hop : inst.opCode = .psh
  · have moves := push_moves (u := u) (m := m) hop
    split_ifs at moves
    · rw [moves.1] at hs
      cases hs
    · refine (h.pushed hop hs).mono ?_
      rintro x ⟨hxl, hxu, hout⟩
      rw [hb] at hxl hout
      rw [hl] at hxu
      have hsp : (handler u inst m).2.cpu.sp = m.cpu.sp - 1 := moves.sp
      rw [hsp] at hout
      by_cases hx : x = translate m.cpu (m.cpu.sp - 1)
      · exact Or.inl hx
      · refine Or.inr ⟨hxl, hxu, fun hin => hout ⟨hin.1, ?_⟩⟩
        rw [translate_user hm] at hx
        omega
  · refine agree.mono (shrinks ?_)
    by_cases hstack : MovesStack inst.opCode
    · rcases hstack with ho | ho | ho
      · exact absurd ho hop
      · have moves := pop_moves (u := u) (m := m) ho
        split_ifs at moves
        · rw [moves.1] at hs
          cases hs
        · have hsp : (handler u inst m).2.cpu.sp = m.cpu.sp + 1 := moves.sp
          omega
      · rcases (handler_view u inst m hpriv).2 with hsp | ⟨hsp, -⟩ | ⟨hsp, -⟩
        · omega
        · have hreturn : handler u inst m = executeReturn m := by
            unfold handler
            rw [ho]
          rw [hreturn, executeReturn] at hsp hs ⊢
          cases hr : readMemory m.cpu.sp m with
          | error status =>
            rw [hr] at hs
            cases hs
          | ok w =>
            rw [hr] at hsp
            dsimp only at hsp
            omega
        · omega
    · rw [handler_sp hstack]

/-- Both fetch the same instruction. -/
theorem home_fetched (h : Agree (Home floor m.cpu) m m') (hf : fetched m = some (inst, n))
    (hcode : pcWord m.cpu ∈ Home floor m.cpu) :
    ∃ n', fetched m' = some (inst, n') ∧ Agree (Home floor n.cpu) n n' := by
  obtain ⟨n', hf'⟩ := fetched_of_word ⟨n, hf⟩ h.cpu (h.ram _ hcode)
  obtain ⟨w, -, -, hn, -⟩ := fetched_machine hf
  obtain ⟨w', -, -, hn', -⟩ := fetched_machine hf'
  refine ⟨n', hf', ?_⟩
  rw [hn, hn']
  refine ⟨⟨h.cpu.ac, ?_, h.cpu.rb, h.cpu.rl, h.cpu.rx, h.cpu.sp⟩, h.ram⟩
  dsimp only
  rw [h.cpu.psw]

end

section

variable {floor : Int} {u : Unspecified} {inst : Instruction} {m : Machine} {s t : System} {a : Pcb}

/-- A handler that touches neither the machine nor the accumulator returns to the very registers
it has interrupted. -/
theorem returns_unchanged {code : InterruptCode} (ht : TakesInterrupt s.hw)
    (hw : FrameWritable s.hw.cpu) (hv : FrameValid s.hw.cpu)
    (hcode : codeToHandle s.hw.interruptBitmap = code)
    (hne : code ≠ .overflow ∧ code ≠ .underflow)
    (hr : handleInterrupt u code (entered s) = (true, t)) (hhw : t.hw = (entered s).hw) :
    (checkInterrupts u s).1 = true ∧ (checkInterrupts u s).2.hw.cpu = s.hw.cpu ∧
      (checkInterrupts u s).2 = { t with hw := (checkInterrupts u s).2.hw } := by
  have kept : FrameKept (interrupted s.hw) t.hw := by
    rw [hhw]
    exact (handled_refl _).toFrameKept
  rw [check_interrupts_taken u ht.1 ht.2, hcode, hr]
  dsimp only
  rw [leave_restored hw hv ht.2 kept hne, hhw, entered_ac hw hv, entered_pc hw hv]
  exact ⟨rfl, rfl, rfl⟩

structure Undisturbed (floor : Int) (m n : Machine) : Prop where
  cpu : ProgramKept n.cpu m.cpu
  ram : ∀ x ∈ Home floor m.cpu, n.ram x = m.ram x

/-- Interrupts store their frames outside of a home they leave room for. -/
theorem check_interrupts_home (u : Unspecified) (hm : s.hw.cpu.psw.mode = .user)
    (hroom : floor + 7 ≤ s.hw.cpu.sp) :
    ∀ x ∈ Home floor s.hw.cpu, (checkInterrupts u s).2.hw.ram x = s.hw.ram x := by
  intro x hx
  exact (check_interrupts_stores u s).frame (fun w hw => frame_not_home hm hroom hx w hw.2)

/-- The instruction of a step that does not end its process has succeeded. -/
theorem instruction_succeeds (he : s.hw.cpu.psw.interruptEnable = .enabled)
    (hf : fetched s.hw = some (inst, m)) (hs : (cpuStep u s).1 = true) :
    (handler u inst m).1 = .success := by
  by_contra hfail
  have hstop : (execute u inst m).1 = .stop := by
    unfold execute
    generalize handler u inst m = r at hfail ⊢
    obtain ⟨status, n⟩ := r
    cases status with
    | success => exact absurd rfl hfail
    | fail => rfl
  obtain ⟨⟨c, hc, hmem⟩, henable⟩ := stop_pending hstop
  obtain ⟨w, -, -, hm, -⟩ := fetched_machine hf
  rw [cpu_step_fetched u hf] at hs
  have ended := (check_interrupts_fatal (s := { s with hw := afterInstruction u inst m }) u hc
    hmem).mpr (by
      dsimp only
      rw [henable, hm]
      exact he)
  rw [ended] at hs
  cases hs

/-- Counting a cycle is none of the program's business. -/
theorem after_instruction_home (u : Unspecified) (inst : Instruction) (m : Machine) :
    Undisturbed floor (handler u inst m).2 (afterInstruction u inst m) := by
  unfold afterInstruction countCycle
  dsimp only
  split_ifs <;> exact ⟨⟨rfl, rfl, rfl, rfl, rfl, rfl⟩, fun _ _ => rfl⟩

structure Saveable (floor : Int) (c : Cpu) : Prop where
  user : c.psw.mode = .user
  room : floor + 7 ≤ c.sp
  writable : FrameWritable c
  valid : FrameValid c

theorem after_instruction_saveable (hfloor : 0 ≤ floor) (h : Placed a s)
    (hf : fetched s.hw = some (inst, m)) (hmannerly : MannerlyInstruction u inst m)
    (hd : Disciplined floor u inst m) (hs : (handler u inst m).1 = .success) :
    Saveable floor (afterInstruction u inst m).cpu := by
  obtain ⟨w, -, -, hm, -⟩ := fetched_machine hf
  have hin : Enclosed (partitionBase a) (partitionLimit a) m.cpu := by
    rw [hm]
    exact h.home.enclosed
  obtain ⟨⟨hmode, hb, hl⟩, hsp⟩ :=
    after_instruction_enclosed (u := u) hin (not_elevates hmannerly.unprivileged)
  have kept := (@after_instruction_home floor u inst m).cpu
  have hroom : floor + 7 ≤ (afterInstruction u inst m).cpu.sp := by
    rw [kept.sp]
    exact hd.room hs
  have hvalid := hd.valid hs
  obtain ⟨hlo, -, hhi⟩ := h.bounds
  refine ⟨hmode, hroom, ?_, ?_⟩
  · exact frame_writable_user hmode (by omega) (by omega) (by omega) (by omega)
  · refine ⟨?_, ?_, ?_, ?_, ?_⟩
    · rw [kept.ac]
      exact hvalid.ac
    · rw [kept.psw]
      exact hvalid.pc
    · rw [kept.rx]
      exact hvalid.rx
    · rw [kept.rb]
      exact hvalid.rb
    · rw [kept.rl]
      exact hvalid.rl

/-- No interrupt but a system call shows in the program or on the monitor. -/
theorem silent_interrupts (hf : fetched s.hw = some (inst, m))
    (hcalm : m.interruptBitmap ⊆ {.timer}) (hmannerly : MannerlyInstruction u inst m)
    (hop : inst.opCode ≠ .svc) (hsave : Saveable floor (afterInstruction u inst m).cpu)
    (he : (afterInstruction u inst m).cpu.psw.interruptEnable = .enabled)
    (hs : (cpuStep u s).1 = true) :
    Undisturbed floor (afterInstruction u inst m) (cpuStep u s).2.hw ∧
      (cpuStep u s).2.monitor = s.monitor := by
  rw [cpu_step_fetched u hf] at hs ⊢
  have hram := check_interrupts_home (s := { s with hw := afterInstruction u inst m }) u
    hsave.user hsave.room
  by_cases hnone : (afterInstruction u inst m).interruptBitmap = ∅
  · rw [check_interrupts_idle u (Or.inl hnone)]
    exact ⟨⟨ProgramKept.refl _, fun _ _ => rfl⟩, rfl⟩
  have taken : TakesInterrupt (afterInstruction u inst m) := ⟨hnone, he⟩
  rcases mannerly_pending hmannerly hcalm with hsub | ⟨c, hc, hraised, hmem, hsub⟩
  · obtain ⟨d, hd⟩ := Finset.nonempty_iff_ne_empty.mpr hnone
    have hd' : d = .timer := by simpa using hsub hd
    have htimer : codeToHandle (afterInstruction u inst m).interruptBitmap = .timer := by
      have only : ∀ d, d ≠ .timer → d ∉ (afterInstruction u inst m).interruptBitmap :=
        fun d hne hmem => hne (by simpa using hsub hmem)
      unfold codeToHandle
      simp [only, hd' ▸ hd]
    obtain ⟨-, hcpu, hrest⟩ := returns_unchanged (u := u)
      (s := { s with hw := afterInstruction u inst m }) (t := (entered { s with
        hw := afterInstruction u inst m }).setYield) taken hsave.writable hsave.valid htimer
      (by decide) rfl rfl
    refine ⟨⟨?_, hram⟩, ?_⟩
    · rw [hcpu]
      exact ProgramKept.refl _
    · rw [hrest]
      rfl
  · have hcode := code_to_handle_raisable hc hmannerly.noTransfer hmem hsub
    rcases hc with hfatal | ⟨rfl, -⟩ | ⟨-, hsvc⟩ | ⟨-, hon⟩
    · have ended := (check_interrupts_fatal (s := { s with hw := afterInstruction u inst m }) u
        hfatal hmem).mpr he
      rw [ended] at hs
      cases hs
    · -- the overflow is the instruction's own, so that its handler finds the same accumulator
      have overflowing : ∃ r, Overflowing inst m r := by
        by_contra hno
        have quiet := @handler_no_overflow u inst { m with interruptBitmap := ∅ }
          (fun r hr => hno ⟨r, hr⟩)
        have hover : InterruptCode.overflow ∈ raised u inst m := by
          rw [hraised]
          exact Finset.mem_singleton_self _
        exact absurd (quiet.raised hover) (Finset.notMem_empty _)
      obtain ⟨r, hr⟩ := overflowing
      obtain ⟨hvalue, -, hac⟩ := after_overflow u hr
      obtain ⟨-, hcpu⟩ := overflow_taken u (s := { s with hw := afterInstruction u inst m }) he hcode
        hnone hsave.writable hsave.valid
      refine ⟨⟨?_, hram⟩, ?_⟩
      · rw [hcpu]
        dsimp only
        rw [hvalue, ← hac]
        exact ProgramKept.refl _
      · rw [check_interrupts_taken u hnone he, hcode]
        rfl
    · exact absurd hsvc hop
    · exact absurd hon hmannerly.noTransfer

theorem Agree.undisturbed {m n : Machine} {t : Machine} (h : Agree (Home floor m.cpu) m t)
    (hu : Undisturbed floor m n) : Agree (Home floor n.cpu) n t := by
  refine ⟨h.cpu.trans hu.cpu.symm, fun x hx => ?_⟩
  rw [hu.cpu.home] at hx
  rw [h.ram x hx, hu.ram x hx]

theorem Undisturbed.trans {k m n : Machine} (h : Undisturbed floor k m) (h' : Undisturbed floor m n) :
    Undisturbed floor k n := by
  refine ⟨h'.cpu.trans h.cpu, fun x hx => ?_⟩
  rw [h'.ram x (h.cpu.home ▸ hx), h.ram x hx]

/-- An instruction other than SVC: the program does the same alone, and nobody sees anything. -/
theorem instruction_alone {t : Machine} (hfloor : 0 ≤ floor) (h : Placed a s)
    (hf : fetched s.hw = some (inst, m)) (hmannerly : MannerlyInstruction u inst m)
    (hd : Disciplined floor u inst m) (hop : inst.opCode ≠ .svc) (hs : (cpuStep u s).1 = true)
    (agree : Agree (Home floor s.hw.cpu) s.hw t) (p : Pcb) :
    ∃ t', AloneStep t [] t' ∧ Agree (Home floor (cpuStep u s).2.hw.cpu) (cpuStep u s).2.hw t' ∧
      Shown p s.monitor (cpuStep u s).2.monitor [] := by
  obtain ⟨w, -, -, hm, -⟩ := fetched_machine hf
  obtain ⟨k, hf', hagree⟩ := home_fetched agree hf (fetched_from_home hf hd.code)
  have succeeds := instruction_succeeds h.home.enabled hf hs
  have huser : m.cpu.psw.mode = .user := by
    rw [hm]
    exact h.home.enclosed.1.1
  have hcalm : m.interruptBitmap ⊆ {.timer} := by
    rw [hm]
    exact h.pending
  have henabled : m.cpu.psw.interruptEnable = .enabled := by
    rw [hm]
    exact h.home.enabled
  obtain ⟨hstatus, hafter⟩ := home_handler (u := u) hagree huser hmannerly.unprivileged
    hmannerly.noTransfer hd.operand
  have hsave := after_instruction_saveable hfloor h hf hmannerly hd succeeds
  obtain ⟨undisturbed, hmonitor⟩ := silent_interrupts hf hcalm hmannerly hop hsave
    (mannerly_enabled hmannerly henabled) hs
  refine ⟨(handler u inst k).2, .instruction u hf' hop (Prod.ext (hstatus.trans succeeds) rfl), ?_,
    .quiet (by rw [hmonitor]) (by rw [hmonitor])⟩
  exact (hafter succeeds).undisturbed ((after_instruction_home u inst m).trans undisturbed)

/-- The state in which a system call of a disciplined program is handled. -/
theorem call_placed (hfloor : 0 ≤ floor) (h : Placed a s) (hf : fetched s.hw = some (inst, m))
    (hmannerly : MannerlyInstruction u inst m) (hd : Disciplined floor u inst m)
    (hop : inst.opCode = .svc) :
    Undisturbed floor m (afterInstruction u inst m) ∧
      Saveable floor (afterInstruction u inst m).cpu ∧
      TakesInterrupt (afterInstruction u inst m) ∧
      codeToHandle (afterInstruction u inst m).interruptBitmap = .syscall := by
  have hsvc : handler u inst m = (.success, raiseInterrupt .syscall m) := by
    unfold handler
    rw [hop]
    rfl
  have succeeds : (handler u inst m).1 = .success := by rw [hsvc]
  obtain ⟨w, -, -, hm, -⟩ := fetched_machine hf
  have hcalm : m.interruptBitmap ⊆ {.timer} := by
    rw [hm]
    exact h.pending
  have henabled : m.cpu.psw.interruptEnable = .enabled := by
    rw [hm]
    exact h.home.enabled
  have raises : InterruptCode.syscall ∈ (afterInstruction u inst m).interruptBitmap := by
    rw [afterInstruction, hsvc]
    exact count_cycle_pending (Finset.mem_insert_self _ _)
  have unpreempted : Unpreempted (afterInstruction u inst m).interruptBitmap := by
    have added : ∀ c ∈ (afterInstruction u inst m).interruptBitmap, c = .syscall ∨ c = .timer := by
      intro c hc
      by_cases ht : c = .timer
      · exact Or.inr ht
      · rw [afterInstruction, count_cycle_bitmap ht, hsvc] at hc
        rcases Finset.mem_insert.mp hc with rfl | hc
        · exact Or.inl rfl
        · exact Or.inr (by simpa using hcalm hc)
    refine ⟨?_, ?_, ?_, ?_⟩ <;>
    · intro hc
      have := added _ hc
      simp at this
  have after := @after_instruction_home floor u inst m
  rw [hsvc] at after
  exact ⟨⟨after.cpu, after.ram⟩, after_instruction_saveable hfloor h hf hmannerly hd succeeds,
    ⟨Finset.ne_empty_of_mem raises, mannerly_enabled hmannerly henabled⟩,
    code_to_handle_syscall unpreempted raises⟩

theorem calling_placed (hfloor : 0 ≤ floor) (h : Placed a s) (hf : fetched s.hw = some (inst, m))
    (hmannerly : MannerlyInstruction u inst m) (hd : Disciplined floor u inst m)
    (hop : inst.opCode = .svc)
    (hservice : wordToInt s.hw.cpu.ac = 2 ∨ wordToInt s.hw.cpu.ac = 3) : Calling s := by
  obtain ⟨undisturbed, hsave, -⟩ := call_placed hfloor h hf hmannerly hd hop
  obtain ⟨w, -, haccess, hm, -⟩ := fetched_machine hf
  have kept := undisturbed.cpu
  have view := kept.view
  have hm' : SameView m.cpu s.hw.cpu := by
    rw [hm]
    exact ⟨rfl, rfl, rfl⟩
  have same : (afterInstruction u inst m).cpu.sp = s.hw.cpu.sp := by
    rw [kept.sp, hm]
  have hrb : isValidInstruction s.hw.cpu.rb := by
    have := hsave.valid.rb
    rwa [kept.rb, hm] at this
  refine ⟨⟨inst, m, hf, hop⟩, hservice, h.home.enabled, ?_, ?_, ?_, ?_⟩
  · refine ⟨?_, ?_, ?_, ?_⟩ <;>
    · intro hc
      have := h.pending hc
      simp at this
  · have top := hd.top hop
    rw [hm] at top
    exact top
  · intro k hl hu
    have := hsave.writable k hl hu
    rwa [accessible_congr view, accessible_congr hm', same] at this
  · have hpc := fetched_pc_bounds haccess hrb
    refine ⟨?_, valid_of_range hpc.1 (by omega), ?_, hrb, ?_⟩
    · have := hsave.valid.ac
      rwa [kept.ac, hm] at this
    · have := hsave.valid.rx
      rwa [kept.rx, hm] at this
    · have := hsave.valid.rl
      rwa [kept.rl, hm] at this

/-- The argument of a call is the same word for the program alone. -/
theorem argument_alone {k : Machine} (hm : m.cpu.psw.mode = .user)
    (ha : Accessible m.cpu m.cpu.sp) (agree : Agree (Home floor m.cpu) m k) :
    readMemory k.cpu.sp k = .ok (m.ram (translate m.cpu m.cpu.sp)) := by
  rw [agree.cpu.sp, agree.read (top_at_home hm), read_accessible ha]

/-- A call that takes effect on the monitor is answered alone, one that finds it closed is not
made yet. -/
theorem service_alone {k : Machine} (hfloor : 0 ≤ floor) (h : Placed a s)
    (hf : fetched s.hw = some (inst, m)) (hmannerly : MannerlyInstruction u inst m)
    (hd : Disciplined floor u inst m) (hop : inst.opCode = .svc)
    (hservice : wordToInt s.hw.cpu.ac = 2 ∨ wordToInt s.hw.cpu.ac = 3)
    (agree : Agree (Home floor m.cpu) m k) :
    (s.monitor.active = false ∧ (cpuStep u s).2.monitor = s.monitor ∧
      Undisturbed floor s.hw (cpuStep u s).2.hw) ∨
    ∃ os k', Answered k os k' ∧ Agree (Home floor (cpuStep u s).2.hw.cpu) (cpuStep u s).2.hw k' ∧
      Shown (s.kernel.processTable s.kernel.currentActiveProcess) s.monitor
        (cpuStep u s).2.monitor os ∧ ∀ n, .sleep n ∉ os := by
  have calling := calling_placed hfloor h hf hmannerly hd hop hservice
  obtain ⟨undisturbed, hsave, -⟩ := call_placed hfloor h hf hmannerly hd hop
  obtain ⟨w, -, -, hm, -⟩ := fetched_machine hf
  have huser : s.hw.cpu.psw.mode = .user := h.home.enclosed.1.1
  have hroom : floor + 7 ≤ s.hw.cpu.sp := by
    have := hsave.room
    rwa [undisturbed.cpu.sp, hm] at this
  have hac : m.cpu.ac = s.hw.cpu.ac := by rw [hm]
  cases hopen : s.monitor.active with
  | false =>
    obtain ⟨-, waits⟩ := calling.blocks hopen u
    exact Or.inl ⟨rfl, waits.monitor, waits.cpu,
      fun x hx => waits.ram x (frame_word_not_home huser hroom hx)⟩
  | true =>
    obtain ⟨-, served⟩ := calling.serves hopen u
    obtain ⟨ac, kept⟩ := served.cpu
    have hram : ∀ x ∈ Home floor m.cpu, (cpuStep u s).2.hw.ram x = m.ram x := by
      intro x hx
      rw [hm] at hx ⊢
      exact served.ram x (frame_word_not_home huser hroom hx)
    right
    rcases hservice with hprint | hread
    · obtain ⟨hkept, hkeyboard, hprinted⟩ := served.print hprint
      have top : Accessible m.cpu m.cpu.sp := hd.top hop
      have hmu : m.cpu.psw.mode = .user := by
        rw [hm]
        exact huser
      refine ⟨_, k, .output ?_ (argument_alone hmu top agree), agree.undisturbed ⟨?_, hram⟩, ?_,
        fun n hn => by simp at hn⟩
      · rw [agree.cpu.ac, hac]
        exact hprint
      · rw [hm]
        exact ⟨hkept, kept.psw, kept.rb, kept.rl, kept.rx, kept.sp⟩
      · refine .output _ (hprinted.trans ?_) hkeyboard
        rw [hm]
        rfl
    · obtain ⟨hvalue, hkeyboard, hprinted⟩ := served.read hread
      refine ⟨_, _, .input (s.monitor.keyboard 0) ?_, ?_, .input hprinted hkeyboard,
        fun n hn => by simp at hn⟩
      · rw [agree.cpu.ac, hac]
        exact hread
      · refine Agree.undisturbed (m := { m with
          cpu.ac := (intToWord (toInt32 (s.monitor.keyboard 0))).1 })
          (agree.setCpu (agree.cpu.ac_set _)) ⟨?_, hram⟩
        rw [hm]
        exact ⟨hvalue, kept.psw, kept.rb, kept.rl, kept.rx, kept.sp⟩

/-- What the kernel does with the calls that have nothing to do with the monitor's state, and what
comes back. -/
theorem other_call {c : Int} (hac : wordToInt s.hw.cpu.ac = c) (h23 : c ≠ 2 ∧ c ≠ 3) {w : Int}
    (hw : readMemory (s.hw.cpu.sp + 7) s.hw = .ok w) :
    (handleInterrupt u .syscall s).1 = false ∨
    (c = 4 ∧ 1 ≤ wordToInt w ∨ c = 4 ∧ wordToInt w = 0 ∨ c ∉ [1, 2, 3, 4]) ∧
      ∃ t, handleInterrupt u .syscall s = (true, t) ∧ t.hw = s.hw ∧ t.monitor = s.monitor := by
  by_cases h1 : c = 1
  · left
    unfold handleInterrupt handleSyscall
    simp only [hac, h1]
  by_cases h4 : c = 4
  · rcases lt_trichotomy (wordToInt w) 0 with hneg | hzero | hpos
    · left
      unfold handleInterrupt handleSyscall
      simp only [hac, h4, hw, if_pos hneg]
    · right
      refine ⟨Or.inr (Or.inl ⟨h4, hzero⟩), s, ?_, rfl, rfl⟩
      unfold handleInterrupt handleSyscall
      simp only [hac, h4, hw, hzero, lt_irrefl, if_false, if_true]
    · right
      refine ⟨Or.inl ⟨h4, by omega⟩, (s.modifyProcess s.kernel.currentActiveProcess
        (fun p => { p with sleepTics := wordToInt w, state := .blocked })).setYield, ?_, rfl, rfl⟩
      rw [handleInterrupt, sleep_call u (hac.trans h4) hw (by omega)]
  · right
    refine ⟨Or.inr (Or.inr (by simp [h1, h4, h23.1, h23.2])), s, ?_, rfl, rfl⟩
    unfold handleInterrupt handleSyscall
    rw [hac]
    split <;> simp_all

/-- Such a call ends its caller only when that is asked for, or a negative sleep. -/
theorem call_goes_on {c : Int} (hac : wordToInt s.hw.cpu.ac = c) (h23 : c ≠ 2 ∧ c ≠ 3) {w : Int}
    (hw : readMemory (s.hw.cpu.sp + 7) s.hw = .ok w) (hgo : c ≠ 1 ∧ (c = 4 → 0 ≤ wordToInt w)) :
    (handleInterrupt u .syscall s).1 = true := by
  by_cases h4 : c = 4
  · have hpos := hgo.2 h4
    rcases Int.lt_or_eq_of_le hpos with hn | hn
    · rw [handleInterrupt, sleep_call u (hac.trans h4) hw (by omega)]
    · unfold handleInterrupt handleSyscall
      simp only [hac, h4, hw, ← hn, lt_irrefl, if_false, if_true]
  · unfold handleInterrupt handleSyscall
    rw [hac]
    split <;> simp_all

theorem quiet_call_alone {k : Machine} (hfloor : 0 ≤ floor) (h : Placed a s)
    (hc : s.kernel.currentActiveProcess ≠ -1) (hf : fetched s.hw = some (inst, m))
    (hmannerly : MannerlyInstruction u inst m) (hd : Disciplined floor u inst m)
    (hop : inst.opCode = .svc)
    (hservice : wordToInt s.hw.cpu.ac ≠ 2 ∧ wordToInt s.hw.cpu.ac ≠ 3)
    (hs : (cpuStep u s).1 = true) (agree : Agree (Home floor m.cpu) m k) (p : Pcb) :
    ∃ os, Answered k os k ∧ Agree (Home floor (cpuStep u s).2.hw.cpu) (cpuStep u s).2.hw k ∧
      Shown p s.monitor (cpuStep u s).2.monitor os ∧
      ∀ n, .sleep n ∈ os → PutsToSleep s (.worker u) n := by
  obtain ⟨undisturbed, hsave, taken, hcode⟩ := call_placed hfloor h hf hmannerly hd hop
  obtain ⟨v, -, -, hm, -⟩ := fetched_machine hf
  have huser : m.cpu.psw.mode = .user := by
    rw [hm]
    exact h.home.enclosed.1.1
  have hac : m.cpu.ac = s.hw.cpu.ac := by rw [hm]
  have top : Accessible m.cpu m.cpu.sp := hd.top hop
  have hsp : Accessible (afterInstruction u inst m).cpu (afterInstruction u inst m).cpu.sp := by
    rw [accessible_congr undisturbed.cpu.view, undisturbed.cpu.sp]
    exact top
  have hargument : readMemory (afterInstruction u inst m).cpu.sp (afterInstruction u inst m) =
      .ok (m.ram (translate m.cpu m.cpu.sp)) := by
    rw [read_accessible hsp, translate_congr undisturbed.cpu.view, undisturbed.cpu.sp]
    exact congrArg Except.ok (undisturbed.ram _ (top_at_home huser top))
  have hread := entered_argument (s := { s with hw := afterInstruction u inst m }) hsp
  rw [read_accessible hsp] at hargument
  dsimp only at hread
  rw [Except.ok.inj hargument] at hread
  have hentered : wordToInt (entered { s with hw := afterInstruction u inst m }).hw.cpu.ac =
      wordToInt s.hw.cpu.ac := by
    rw [entered_accumulator]
    dsimp only
    rw [undisturbed.cpu.ac, hac]
  rw [cpu_step_fetched u hf] at hs ⊢
  rcases other_call (u := u) hentered hservice hread with hend | ⟨hkind, t, hr, hhw, hmonitor⟩
  · rw [check_interrupts_taken u (s := { s with hw := afterInstruction u inst m }) taken.1 taken.2,
      hcode] at hs
    dsimp only at hs
    rw [hend] at hs
    cases hs
  · obtain ⟨-, hcpu, hrest⟩ := returns_unchanged (u := u)
      (s := { s with hw := afterInstruction u inst m }) taken hsave.writable hsave.valid hcode
      (by decide) hr hhw
    have hram := check_interrupts_home (s := { s with hw := afterInstruction u inst m }) u
      hsave.user hsave.room
    have same := agree.undisturbed (undisturbed.trans
      ⟨by rw [hcpu]; exact ProgramKept.refl _, hram⟩)
    have hshown : (checkInterrupts u { s with hw := afterInstruction u inst m }).2.monitor =
        s.monitor := by
      rw [hrest]
      exact hmonitor
    have hk := argument_alone huser top agree
    have hkac : wordToInt k.cpu.ac = wordToInt s.hw.cpu.ac := by rw [agree.cpu.ac, hac]
    rcases hkind with ⟨h4, hn⟩ | ⟨h4, hn⟩ | hother
    · refine ⟨_, .sleep (hkac.trans h4) hk hn, same, .sleep _ (by rw [hshown]) (by rw [hshown]), ?_⟩
      intro n hmem
      obtain rfl := Effect.sleep.inj (List.mem_singleton.mp hmem)
      refine ⟨u, inst, m, _, executed_of_fetched hc hf, taken.2, taken.1, hcode, ?_, ?_, rfl⟩
      · rw [undisturbed.cpu.ac, hac]
        exact h4
      · rw [read_accessible hsp]
        exact hargument
    · exact ⟨_, .awake (hkac.trans h4) hk hn, same, .quiet (by rw [hshown]) (by rw [hshown]),
        fun n hn => by simp at hn⟩
    · exact ⟨_, .unknown (by rw [hkac]; exact hother), same,
        .quiet (by rw [hshown]) (by rw [hshown]), fun n hn => by simp at hn⟩

end

/-- The machine as the process in slot `p` finds it whenever it runs. -/
def machineOf (s : System) (p : Int) : Machine := { s.hw with cpu := registers s p }

/-- The effects `os` of an event as far as the process in slot `p` is concerned: those of its own
executions, each shown on the monitor or handled as a sleep. -/
structure Performs (p : Int) (s : System) (e : Event) (os : List Effect) : Prop where
  own : Runs s e p → Shown (s.kernel.processTable p) s.monitor (next s e).monitor os
  others : ¬ Runs s e p → os = []
  slept : ∀ n, .sleep n ∈ os → PutsToSleep s e n

/-- The event makes a print or read call of the process in slot `p` that has to be made again,
since the monitor is closed. -/
def callsInVain (p : Int) (s : System) (e : Event) : Bool :=
  s.kernel.currentActiveProcess = p && !s.monitor.active &&
    (wordToInt s.hw.cpu.ac = 2 || wordToInt s.hw.cpu.ac = 3) &&
    (executed s e).any (fun x => x.2.1.opCode = .svc)

def KeepsDiscipline (floor p : Int) (s : System) (e : Event) : Prop :=
  Runs s e p → ∀ u inst m, executed s e = some (u, inst, m) → Disciplined floor u inst m

section

variable {floor : Int} {u : Unspecified} {s : System} {p : Int} {e : Event} {t : Machine}

theorem Agree.running (agree : Agree (Home floor (registers s p)) (machineOf s p) t)
    (hcur : s.kernel.currentActiveProcess = p) : Agree (Home floor s.hw.cpu) s.hw t := by
  rw [machineOf, registers_current hcur] at agree
  exact agree

theorem Orderly.placed (h : Orderly s) (hp : Live s.kernel p)
    (hcur : s.kernel.currentActiveProcess = p) : Placed (s.kernel.processTable p) s := by
  obtain ⟨-, -, hbounds⟩ := partition_bounds h.owned hp
  have home := h.home p hp
  rw [registers_current hcur] at home
  exact ⟨home, hbounds, h.pending⟩

/-- The running process goes on alone as it does in the system. -/
theorem running_alone (hfloor : 0 ≤ floor) (h : Orderly s) (hm : Mannerly s (.worker u))
    (hp : Live s.kernel p) (hcur : s.kernel.currentActiveProcess = p)
    (hd : KeepsDiscipline floor p s (.worker u)) (hs : (cpuStep u s).1 = true)
    (agree : Agree (Home floor s.hw.cpu) s.hw t) :
    ∃ os t', (AloneStep t os t' ∨ os = [] ∧ t' = t ∧ callsInVain p s (.worker u)) ∧
      Agree (Home floor (cpuStep u s).2.hw.cpu) (cpuStep u s).2.hw t' ∧
      Shown (s.kernel.processTable p) s.monitor (cpuStep u s).2.monitor os ∧
      ∀ n, .sleep n ∈ os → PutsToSleep s (.worker u) n := by
  have placed := h.placed hp hcur
  have hc : s.kernel.currentActiveProcess ≠ -1 := by
    have := hp.1
    omega
  cases hf : fetched s.hw with
  | none =>
    rw [cpu_step_unfetched u hf] at hs
    cases hs
  | some x =>
    obtain ⟨inst, m⟩ := x
    have hx := executed_of_fetched (u := u) hc hf
    have hmannerly := hm u inst m hx
    have hdisc := hd ⟨hcur, u, rfl⟩ u inst m hx
    obtain ⟨k, hf', hagree⟩ := home_fetched agree hf (fetched_from_home hf hdisc.code)
    by_cases hop : inst.opCode = .svc
    · by_cases hservice : wordToInt s.hw.cpu.ac = 2 ∨ wordToInt s.hw.cpu.ac = 3
      · rcases service_alone hfloor placed hf hmannerly hdisc hop hservice hagree with
          ⟨hclosed, hmon, undisturbed⟩ | ⟨os, k', hanswer, hafter, hshown, hnone⟩
        · have vain : callsInVain p s (.worker u) := by
            simp [callsInVain, hcur, hclosed, hservice, hx, hop]
          exact ⟨[], t, Or.inr ⟨rfl, rfl, vain⟩, agree.undisturbed undisturbed,
            .quiet (by rw [hmon]) (by rw [hmon]), fun n hn => by simp at hn⟩
        · rw [hcur] at hshown
          exact ⟨os, k', Or.inl (.call hf' hop hanswer), hafter, hshown,
            fun n hn => absurd hn (hnone n)⟩
      · obtain ⟨os, hanswer, hafter, hshown, hslept⟩ := quiet_call_alone hfloor placed hc hf
          hmannerly hdisc hop (not_or.mp hservice) hs hagree (s.kernel.processTable p)
        exact ⟨os, k, Or.inl (.call hf' hop hanswer), hafter, hshown, hslept⟩
    · obtain ⟨t', hstep, hafter, hshown⟩ := instruction_alone hfloor placed hf hmannerly hdisc hop hs
        agree (s.kernel.processTable p)
      exact ⟨[], t', Or.inl hstep, hafter, hshown, fun n hn => by simp at hn⟩

/-- One event, seen by one process. -/
theorem event_alone (hfloor : 0 ≤ floor) (h : Orderly s) (hm : Mannerly s e)
    (hp : Live s.kernel p) (hlive : Live (next s e).kernel p) (hd : KeepsDiscipline floor p s e)
    (agree : Agree (Home floor (registers s p)) (machineOf s p) t) :
    ∃ os t', Performs p s e os ∧
      (Runs s e p ∧ AloneStep t os t' ∨ os = [] ∧ t' = t ∧ (Runs s e p → callsInVain p s e)) ∧
      Agree (Home floor (registers (next s e) p)) (machineOf (next s e) p) t' := by
  by_cases hruns : Runs s e p
  · obtain ⟨hcur, u, rfl⟩ := hruns
    have hc : s.kernel.currentActiveProcess ≠ -1 := by
      have := hp.1
      omega
    obtain ⟨hs, hregs⟩ := worker_registers_running u ⟨hp.1, hp.2.1⟩ hcur hlive
    obtain ⟨cpu, k, hnext⟩ := worker_kept u hc
    have hram : (next s (.worker u)).hw.ram = (cpuStep u s).2.hw.ram := by rw [hnext]
    have hmonitor : (next s (.worker u)).monitor = (cpuStep u s).2.monitor := by rw [hnext]
    have own := agree.running hcur
    obtain ⟨os, t', hstep, hafter, hshown, hslept⟩ := running_alone hfloor h hm hp hcur hd hs own
    refine ⟨os, t', ⟨fun _ => ?_, fun hno => absurd ⟨hcur, u, rfl⟩ hno, hslept⟩,
      hstep.imp (⟨⟨hcur, u, rfl⟩, ·⟩) (fun idle => ⟨idle.1, idle.2.1, fun _ => idle.2.2⟩), ?_⟩
    · rw [hmonitor]
      exact hshown
    · rw [hregs]
      refine ⟨?_, fun x hx => ?_⟩
      · dsimp only [machineOf]
        rw [hregs]
        exact hafter.cpu
      · dsimp only [machineOf]
        rw [hram]
        exact hafter.ram x hx
  · have hne : e ≠ .restart := by
      rintro rfl
      exact restart_ends hlive
    have hregs := next_registers h hp hlive hruns
    refine ⟨[], t, ⟨fun hrun => absurd hrun hruns, fun _ => rfl, fun n hn => by simp at hn⟩,
      Or.inr ⟨rfl, rfl, fun hrun => absurd hrun hruns⟩, ?_⟩
    rw [hregs]
    refine ⟨?_, fun x hx => ?_⟩
    · dsimp only [machineOf]
      rw [hregs]
      exact agree.cpu
    · obtain ⟨⟨-, hb, hl⟩, -⟩ := (h.home p hp).enclosed
      have hin : x ∈ Partition (s.kernel.processTable p) := by
        rw [Partition, ← hb, ← hl]
        exact ⟨hx.1, hx.2.1⟩
      dsimp only [machineOf]
      rw [next_spares h hm hp hne hruns hin]
      exact agree.ram x hx

theorem fetch_possible {m : Machine} (ha : Accessible m.cpu m.cpu.psw.pc) : fetched m ≠ none := by
  have hread := read_congr { m with cpu.mar := m.cpu.psw.pc } m ⟨rfl, rfl, rfl⟩ rfl m.cpu.psw.pc
  unfold fetched fetch
  dsimp only
  rw [hread, read_accessible ha]
  exact Option.some_ne_none _

/-- The alone machine sees the same addresses and cannot fetch either. -/
theorem Agree.unfetched {P : Set Int} {m : Machine} (own : Agree P m t) (hf : fetched m = none) :
    fetched t = none := by
  by_contra hno
  obtain ⟨⟨inst, k⟩, hk⟩ := Option.ne_none_iff_exists'.mp hno
  obtain ⟨w, -, haccess, -, -⟩ := fetched_machine hk
  rw [accessible_congr own.cpu.view, own.cpu.psw] at haccess
  exact fetch_possible haccess hf

/-- An instruction other than SVC ends its process by failing. -/
theorem ended_fails {a : Pcb} {inst : Instruction} {m : Machine} (h : Placed a s)
    (hf : fetched s.hw = some (inst, m)) (hmannerly : MannerlyInstruction u inst m)
    (hop : inst.opCode ≠ .svc) (hstatus : (cpuStep u s).1 = false) :
    (handler u inst m).1 = .fail := by
  obtain ⟨w, -, -, hm, -⟩ := fetched_machine hf
  have hcalm : m.interruptBitmap ⊆ {.timer} := by
    rw [hm]
    exact h.pending
  by_contra hno
  have succeeds : (handler u inst m).1 = .success := by
    cases hs : (handler u inst m).1 with
    | success => rfl
    | fail => exact absurd hs hno
  -- then nothing fatal is pending, and no other handler ends a process
  have harmless : ∀ c ∈ (afterInstruction u inst m).interruptBitmap,
      c = .timer ∨ c = .overflow := by
    intro c hc
    by_cases ht : c = .timer
    · exact Or.inl ht
    rw [afterInstruction, count_cycle_bitmap ht] at hc
    have old : c ∉ m.interruptBitmap := fun hmem => ht (by simpa using hcalm hmem)
    have notFatal := (handler_reports hmannerly.noTransfer succeeds c hc).resolve_left old
    rcases (handler_adds c hc).resolve_left old with hfatal | ⟨hover, -⟩ | ⟨-, hsvc⟩ | ⟨-, hon⟩
    · exact absurd hfatal notFatal
    · exact Or.inr hover
    · exact absurd hsvc hop
    · exact absurd hon hmannerly.noTransfer
  rw [cpu_step_fetched u hf] at hstatus
  rcases interrupts_idle_or_taken (afterInstruction u inst m) with hidle | ⟨hp, he⟩
  · rw [check_interrupts_idle u hidle] at hstatus
    cases hstatus
  · have hcode : codeToHandle (afterInstruction u inst m).interruptBitmap = .timer ∨
        codeToHandle (afterInstruction u inst m).interruptBitmap = .overflow := by
      obtain ⟨d, hd⟩ := Finset.nonempty_iff_ne_empty.mpr hp
      have absent : ∀ c, c ≠ .timer → c ≠ .overflow →
          c ∉ (afterInstruction u inst m).interruptBitmap :=
        fun c h1 h2 hc => (harmless c hc).elim h1 h2
      by_cases ho : InterruptCode.overflow ∈ (afterInstruction u inst m).interruptBitmap
      · right
        unfold codeToHandle
        simp [absent, ho]
      · left
        have ht : d = .timer := (harmless d hd).resolve_right (fun hd' => ho (hd' ▸ hd))
        unfold codeToHandle
        simp [absent, ho, ht ▸ hd]
    rw [check_interrupts_taken u (s := { s with hw := afterInstruction u inst m }) hp he] at hstatus
    dsimp only at hstatus
    rcases hcode with hc | hc <;> rw [hc] at hstatus <;> cases hstatus

/-- A system call that ends its process gets no answer alone. -/
theorem stuck_call {a : Pcb} {inst : Instruction} {m k : Machine} (hfloor : 0 ≤ floor)
    (h : Placed a s) (hf : fetched s.hw = some (inst, m))
    (hmannerly : MannerlyInstruction u inst m) (hd : Disciplined floor u inst m)
    (hop : inst.opCode = .svc) (hstatus : (cpuStep u s).1 = false)
    (agree : Agree (Home floor m.cpu) m k) (hk : fetched t = some (inst, k)) :
    ∀ os t', ¬ AloneStep t os t' := by
  obtain ⟨undisturbed, hsave, taken, hcode⟩ := call_placed hfloor h hf hmannerly hd hop
  obtain ⟨v, -, -, hm, -⟩ := fetched_machine hf
  have hac : k.cpu.ac = s.hw.cpu.ac := by
    rw [agree.cpu.ac, hm]
  have huser : m.cpu.psw.mode = .user := by
    rw [hm]
    exact h.home.enclosed.1.1
  have hargument := argument_alone huser (hd.top hop) agree
  -- a print or read call would have been served or blocked
  have hservice : wordToInt s.hw.cpu.ac ≠ 2 ∧ wordToInt s.hw.cpu.ac ≠ 3 := by
    refine not_or.mp (fun hservice => ?_)
    have calling := calling_placed hfloor h hf hmannerly hd hop hservice
    have goes : (cpuStep u s).1 = true := by
      cases hopen : s.monitor.active with
      | false => exact (calling.blocks hopen u).1
      | true => exact (calling.serves hopen u).1
    rw [hstatus] at goes
    cases goes
  -- the others end their caller only when it asks for that or for a negative sleep
  have unanswered : wordToInt s.hw.cpu.ac = 1 ∨ wordToInt s.hw.cpu.ac = 4 ∧
      wordToInt (m.ram (translate m.cpu m.cpu.sp)) < 0 := by
    by_contra hno
    have hsp : Accessible (afterInstruction u inst m).cpu (afterInstruction u inst m).cpu.sp := by
      rw [accessible_congr undisturbed.cpu.view, undisturbed.cpu.sp]
      exact hd.top hop
    have hword : (afterInstruction u inst m).ram (translate (afterInstruction u inst m).cpu
        (afterInstruction u inst m).cpu.sp) = m.ram (translate m.cpu m.cpu.sp) := by
      rw [translate_congr undisturbed.cpu.view, undisturbed.cpu.sp]
      exact undisturbed.ram _ (top_at_home huser (hd.top hop))
    have hread := entered_argument (s := { s with hw := afterInstruction u inst m }) hsp
    dsimp only at hread
    rw [hword] at hread
    have hentered : wordToInt (entered { s with hw := afterInstruction u inst m }).hw.cpu.ac =
        wordToInt s.hw.cpu.ac := by
      rw [entered_accumulator]
      dsimp only
      rw [undisturbed.cpu.ac, hm]
    rw [cpu_step_fetched u hf, check_interrupts_taken u
      (s := { s with hw := afterInstruction u inst m }) taken.1 taken.2, hcode] at hstatus
    dsimp only at hstatus
    have goes := call_goes_on (u := u) hentered hservice hread
      ⟨fun h1 => hno (Or.inl h1), fun h4 => not_lt.mp (fun hneg => hno (Or.inr ⟨h4, hneg⟩))⟩
    rw [goes] at hstatus
    cases hstatus
  rintro os t' (⟨u', hk', ho, -⟩ | ⟨hk', -, hanswer⟩)
  · rw [hk] at hk'
    obtain ⟨rfl, rfl⟩ := Prod.mk.inj (Option.some.inj hk')
    exact ho hop
  · rw [hk] at hk'
    obtain ⟨rfl, rfl⟩ := Prod.mk.inj (Option.some.inj hk')
    cases hanswer with
    | output hac' => exact hservice.1 (hac ▸ hac')
    | input v hac' => exact hservice.2 (hac ▸ hac')
    | sleep hac' hw hn =>
      rw [hargument] at hw
      obtain rfl := Except.ok.inj hw
      rw [hac] at hac'
      omega
    | awake hac' hw hn =>
      rw [hargument] at hw
      obtain rfl := Except.ok.inj hw
      rw [hac] at hac'
      omega
    | unknown hac' =>
      rw [hac] at hac'
      rcases unanswered with h1 | ⟨h4, -⟩
      · simp [h1] at hac'
      · simp [h4] at hac'

/-- A process that does not run survives the event. -/
theorem bystander_lives (hs : Scheduled s.kernel) (hp : Live s.kernel p) (he : e ≠ .restart)
    (hruns : ¬ Runs s e p) : Live (next s e).kernel p := by
  cases e with
  | create host u progName =>
    rw [Live, next, (created_slots (create_process_created host u progName s)).2 p hp.2.2]
    exact hp
  | worker u =>
    have hcur : s.kernel.currentActiveProcess ≠ p := fun hcur => hruns ⟨hcur, u, rfl⟩
    have worked := worker_step_worked u s
    have at_tick := (worked_at_tick hs worked).1
    have live : Live (workerStep u s).2.kernel p := by
      rw [Live, (worked_slots worked).2 p hcur]
      exact hp
    rw [next, workerIteration]
    generalize workerStep u s = r at at_tick live
    obtain ⟨ticks, n⟩ := r
    cases ticks with
    | true => exact (tick_live at_tick.current p).mpr live
    | false => exact live
  | monitor active => exact hp
  | restart => exact absurd rfl he

/-- A running process survives a step that does not report its end. -/
theorem survivor_lives (hp : Live s.kernel p)
    (hcur : s.kernel.currentActiveProcess = p) (hstatus : (cpuStep u s).1 = true) :
    Live (next s (.worker u)).kernel p := by
  have hc : s.kernel.currentActiveProcess ≠ -1 := by
    have := hp.1
    omega
  have stepped := cpu_step_stepped u s
  have ticked : ∀ n : System, n.kernel.currentActiveProcess = p → Live n.kernel p →
      Live (schedulerTick n).kernel p := by
    intro n hn hlive
    exact (tick_live (Or.inr (by rw [hn]; exact ⟨hp.1, hp.2.1⟩)) p).mpr hlive
  rw [next, workerIteration, workerStep, if_pos hc]
  generalize cpuStep u s = r at stepped hstatus
  cases stepped with
  | plain status hw mon =>
    obtain rfl : status = true := hstatus
    dsimp only
    split_ifs
    · exact ticked _ hcur hp
    · exact hp
  | yielded hw => exact ticked _ hcur hp
  | blocked hw f hf =>
    have blocked := (blocks_kept hf (s.kernel.processTable p)).2.2.2.1
    refine ticked _ hcur ⟨hp.1, hp.2.1, ?_⟩
    dsimp only [Kernel.modifyProcess]
    rw [hcur, Function.update_self]
    exact blocked

/-- Where a process is ended it could not go on alone either. -/
theorem ended_stuck (hfloor : 0 ≤ floor) (h : Orderly s) (hm : Mannerly s e)
    (hp : Live s.kernel p) (hdead : ¬ Live (next s e).kernel p) (he : e ≠ .restart)
    (hd : KeepsDiscipline floor p s e)
    (agree : Agree (Home floor (registers s p)) (machineOf s p) t) :
    ∀ os t', ¬ AloneStep t os t' := by
  have hruns : Runs s e p := by
    by_contra hruns
    exact hdead (bystander_lives h.scheduled hp he hruns)
  obtain ⟨hcur, u, rfl⟩ := hruns
  have hc : s.kernel.currentActiveProcess ≠ -1 := by
    have := hp.1
    omega
  have hstatus : (cpuStep u s).1 = false := by
    by_contra hno
    exact hdead (survivor_lives hp hcur (by simpa using hno))
  have placed := h.placed hp hcur
  have own := agree.running hcur
  cases hf : fetched s.hw with
  | none =>
    have unfetched := own.unfetched hf
    rintro os t' (⟨u', hk, -, -⟩ | ⟨hk, -, -⟩) <;> rw [unfetched] at hk <;> cases hk
  | some x =>
    obtain ⟨inst, m⟩ := x
    have hx := executed_of_fetched (u := u) hc hf
    have hmannerly := hm u inst m hx
    have hdisc := hd ⟨hcur, u, rfl⟩ u inst m hx
    obtain ⟨w, -, -, hmachine, -⟩ := fetched_machine hf
    obtain ⟨k, hf', hagree⟩ := home_fetched own hf (fetched_from_home hf hdisc.code)
    have huser : m.cpu.psw.mode = .user := by
      rw [hmachine]
      exact placed.home.enclosed.1.1
    by_cases hop : inst.opCode = .svc
    · exact stuck_call hfloor placed hf hmannerly hdisc hop hstatus hagree hf'
    · have fails := ended_fails placed hf hmannerly hop hstatus
      obtain ⟨hsame, -⟩ := home_handler (u := u) hagree huser hmannerly.unprivileged
        hmannerly.noTransfer hdisc.operand
      rintro os t' (⟨u', hk, -, hh⟩ | ⟨hk, ho, -⟩)
      · rw [hf'] at hk
        obtain ⟨rfl, rfl⟩ := Prod.mk.inj (Option.some.inj hk)
        have succeeded : (handler u' inst k).1 = .success := by rw [hh]
        rw [handler_status u' u, hsame, fails] at succeeded
        cases succeeded
      · rw [hf'] at hk
        obtain ⟨rfl, rfl⟩ := Prod.mk.inj (Option.some.inj hk)
        exact hop ho

def immediateStep (floor p : Int) (s : System) (e : Event) : Bool :=
  s.kernel.currentActiveProcess ≠ p ||
    (executed s e).all (fun x => x.2.1.direction = .immediate ∧
      (x.2.2.cpu.rb ≤ translate x.2.2.cpu (x.2.2.cpu.psw.pc - 1) ∧
        translate x.2.2.cpu (x.2.2.cpu.psw.pc - 1) ≤ x.2.2.cpu.rl ∧
        translate x.2.2.cpu (x.2.2.cpu.psw.pc - 1) - x.2.2.cpu.rb < floor) ∧
      Accessible x.2.2.cpu x.2.2.cpu.sp ∧ floor + 7 ≤ (handler x.1 x.2.1 x.2.2).2.cpu.sp ∧
      ∀ w ∈ frameWords (handler x.1 x.2.1 x.2.2).2.cpu, isValidInstruction w)

theorem keeps_of_immediate (h : immediateStep floor p s e) : KeepsDiscipline floor p s e := by
  intro hruns u inst m hx
  rw [immediateStep, hruns.1, hx] at h
  simp only [ne_eq, not_true_eq_false, decide_false, Bool.false_or, Option.all_some,
    decide_eq_true_eq] at h
  obtain ⟨hmode, ⟨hl, hu, hlow⟩, htop, hroom, hvalid⟩ := h
  refine ⟨⟨hl, hu, fun hin => ?_⟩, ?_, fun _ => htop, fun _ => hroom, fun _ => ?_⟩
  · omega
  · rintro - (hdirect | hindexed)
    · exact absurd (hmode.symm.trans hdirect) (by decide)
    · exact absurd (hmode.symm.trans hindexed) (by decide)
  · refine ⟨?_, ?_, ?_, ?_, ?_⟩ <;> exact hvalid _ (by simp [frameWords])

def printsAmongOthers : List Event :=
  let host := hostOf "_start 1\n.N 4\n.P A\n04100007\n25100000\n04100002\n13100000\n"
    "_start 1\n.N 2\n.P B\n04100003\n13100000\n"
  .create host zeros ['a'] :: .create host zeros ['b'] :: .monitor true ::
    List.replicate 8 (.worker zeros)

theorem prints_mannerly (k : Nat) (e : Event) (he : printsAmongOthers[k]? = some e) :
    Mannerly (Trace.stateAt next (boot zeroKeys) printsAmongOthers k) e := by
  have plain : ∀ k < printsAmongOthers.length, ∀ e ∈ printsAmongOthers[k]?,
      plainStep (Trace.stateAt next (boot zeroKeys) printsAmongOthers k) e := by decide +kernel
  exact mannerly_of_plain (Trace.every_index plain he)

theorem prints_lives : Lifetime (boot zeroKeys) printsAmongOthers 0 0 11 :=
  .of_live ⟨_, _, _, rfl⟩ (by decide) (by decide +kernel)

theorem prints_disciplined (k : Nat) (e : Event) (he : printsAmongOthers[k]? = some e) :
    KeepsDiscipline 40 0 (Trace.stateAt next (boot zeroKeys) printsAmongOthers k) e := by
  have immediate : ∀ k < printsAmongOthers.length, ∀ e ∈ printsAmongOthers[k]?,
      immediateStep 40 0 (Trace.stateAt next (boot zeroKeys) printsAmongOthers k) e := by
    decide +kernel
  exact keeps_of_immediate (Trace.every_index immediate he)

instance (floor : Int) (c : Cpu) (x : Int) : Decidable (x ∈ Home floor c) :=
  inferInstanceAs (Decidable (_ ∧ _ ∧ ¬ (_ ∧ _)))

end

end Lucario.Proofs
