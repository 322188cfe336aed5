import Lucario.Proofs.ExactArithmetic
import Lucario.Proofs.FaultAttribution
import Lucario.Proofs.Stores

namespace Lucario.Proofs

open SignMagnitude (wrap encode)

structure NoOverflow (m n : Machine) : Prop where
  value : n.interruptValue = m.interruptValue
  raised : .overflow ∈ n.interruptBitmap → .overflow ∈ m.interruptBitmap

section

variable {u : Unspecified} {inst : Instruction} {m n k : Machine}

theorem NoOverflow.refl (m : Machine) : NoOverflow m m := ⟨rfl, id⟩

theorem NoOverflow.raise (h : NoOverflow m n) {code : InterruptCode} (hc : code ≠ .overflow) :
    NoOverflow m (raiseInterrupt code n) :=
  ⟨h.value, fun ho => h.raised (by simpa [raiseInterrupt, hc.symm] using ho)⟩

theorem fetch_no_overflow (inst : Instruction) (m : Machine) :
    NoOverflow m (fetchOperand inst m).2 := by
  cases h : operandWord inst m with
  | none =>
    rw [fetch_of_no_operand h]
    refine (NoOverflow.refl m).raise ?_
    unfold fetchFault
    split <;> decide
  | some w =>
    rw [fetch_of_operand h]
    exact ⟨rfl, id⟩

theorem write_no_overflow (a v : Int) (h : NoOverflow m n) :
    NoOverflow m (finishWrite n (writeMemory a v n)).2 := by
  by_cases hw : Accessible n.cpu a ∧ isValidInstruction v
  · rw [write_accessible hw.1 hw.2]
    exact ⟨h.value, h.raised⟩
  · obtain ⟨status, hs⟩ := write_refused hw
    rw [hs]
    exact h.raise (by decide)

theorem movement_no_overflow : NoOverflow m (executeDataMovement u inst m).2 := by
  have fetched := fetch_no_overflow inst m
  unfold executeDataMovement
  cases inst.opCode
  case str =>
    dsimp only
    split_ifs
    · exact (NoOverflow.refl m).raise (by decide)
    · exact write_no_overflow _ _ (.refl m)
  case strsp => exact write_no_overflow _ _ (.refl m)
  case load =>
    dsimp only
    generalize fetchOperand inst m = f at fetched ⊢
    obtain ⟨operand, n⟩ := f
    cases operand with
    | none =>
      have loaded : NoOverflow m (updatePSWFlags { n with cpu.ac := u.data }) :=
        ⟨fetched.value, fetched.raised⟩
      exact loaded.raise (by decide)
    | some w => exact ⟨fetched.value, fetched.raised⟩
  case strrx | strrb | strrl | loadrx | loadrb | loadrl | loadsp => exact ⟨rfl, id⟩
  all_goals exact (NoOverflow.refl m).raise (by decide)

theorem branching_no_overflow : NoOverflow m (executeBranching inst m).2 := by
  unfold executeBranching
  dsimp only
  split_ifs
  · exact ⟨rfl, id⟩
  · cases readMemory m.cpu.sp m with
    | error status => exact (NoOverflow.refl m).raise (by decide)
    | ok w =>
      dsimp only
      cases inst.opCode
      case jmpe | jmpne | jmplt | jmplgt =>
        dsimp only
        split_ifs <;> exact ⟨rfl, id⟩
      all_goals exact (NoOverflow.refl m).raise (by decide)

theorem stack_no_overflow : NoOverflow m (executeStackManipulation inst m).2 := by
  unfold executeStackManipulation
  cases inst.opCode
  case psh =>
    dsimp only
    split_ifs
    · exact (NoOverflow.refl m).raise (by decide)
    · exact write_no_overflow _ _ ⟨rfl, id⟩
  case pop =>
    dsimp only
    split_ifs
    · exact (NoOverflow.refl m).raise (by decide)
    · exact ⟨rfl, id⟩
  all_goals exact (NoOverflow.refl m).raise (by decide)

theorem dma_no_overflow (hop : ForDma inst.opCode) :
    NoOverflow m (executeDMAInstruction u inst m).2 := by
  have fetched := fetch_no_overflow inst m
  have done := fun operand n (hf : fetchOperand inst m = (operand, n)) =>
    dma_execute_eq u inst hf hop rfl
  generalize fetchOperand inst m = f at fetched done
  obtain ⟨operand, n⟩ := f
  rcases done operand n rfl with ⟨-, -, he⟩ | ⟨-, -, he⟩ | ⟨-, -, k, hset, hon, he⟩ <;> rw [he]
  · exact fetched.raise (by decide)
  · exact fetched.raise (by decide)
  · have programmed : NoOverflow m k := by
      by_cases ho : inst.opCode = .sdmaon
      · rw [hon ho, dma_transfer_eq]
        have stored : ∀ d r v, NoOverflow m
            { n with dma := d, ram := r, disk := v } := fun _ _ _ => ⟨fetched.value, fetched.raised⟩
        split_ifs <;> exact (stored _ _ _).raise (by decide)
      · rw [hset ho]
        exact ⟨fetched.value, fetched.raised⟩
    split_ifs
    · exact programmed.raise (by decide)
    · exact programmed

theorem arithmetic_no_overflow (hop : IsArithmetic inst.opCode)
    (h : ∀ r, ¬ Overflowing inst m r) : NoOverflow m (executeArithmetic inst m).2 := by
  cases hw : operandWord inst m with
  | none =>
    have fetched := fetch_no_overflow inst m
    rw [fetch_of_no_operand hw] at fetched
    unfold executeArithmetic
    rw [fetch_of_no_operand hw]
    exact fetched
  | some w =>
    by_cases hdiv : inst.opCode = .divi ∧ wordToInt w = 0
    · unfold executeArithmetic
      rw [fetch_of_operand hw]
      simp only [hdiv.1, hdiv.2, if_true]
      exact ⟨rfl, fun ho => by simpa [raiseInterrupt] using ho⟩
    · rw [arithmetic_eq hop hw (fun hd hz => hdiv ⟨hd, hz⟩), withResult]
      rw [if_neg (fun hlarge => h _ ⟨hop, hlarge, w, hw, rfl⟩)]
      exact ⟨rfl, id⟩

/-- Only a result that is too large raises IC_OVERFLOW. -/
theorem handler_no_overflow (h : ∀ r, ¬ Overflowing inst m r) :
    NoOverflow m (handler u inst m).2 := by
  unfold handler
  cases hop : inst.opCode
  case sum | res | mult | divi => exact arithmetic_no_overflow (by simp [IsArithmetic, hop]) h
  case load | str | loadrx | strrx => exact movement_no_overflow
  case loadrb | strrb | loadrl | strrl | loadsp | strsp => exact movement_no_overflow
  case comp =>
    have fetched := fetch_no_overflow inst m
    unfold executeComparison
    generalize fetchOperand inst m = f at fetched ⊢
    obtain ⟨operand, n⟩ := f
    cases operand <;> exact ⟨fetched.value, fetched.raised⟩
  case jmpe | jmpne | jmplt | jmplgt | j => exact branching_no_overflow
  case svc => exact (NoOverflow.refl m).raise (by decide)
  case retrn =>
    unfold executeReturn
    cases readMemory m.cpu.sp m with
    | error status => exact (NoOverflow.refl m).raise (by decide)
    | ok w => exact ⟨rfl, id⟩
  case hab | dhab =>
    unfold executeInterruptsChange
    rw [hop]
    exact ⟨rfl, id⟩
  case tti =>
    have fetched := fetch_no_overflow inst m
    unfold executeTimerInterval
    generalize fetchOperand inst m = f at fetched ⊢
    obtain ⟨operand, n⟩ := f
    cases operand <;> exact ⟨fetched.value, fetched.raised⟩
  case chmod =>
    unfold executeChangeMode
    split_ifs
    · exact ⟨rfl, id⟩
    · exact ⟨rfl, id⟩
    · exact (NoOverflow.refl m).raise (by decide)
  case psh | pop => exact stack_no_overflow
  case invalid => exact (NoOverflow.refl m).raise (by decide)
  all_goals exact dma_no_overflow (by simp [ForDma, hop])

theorem after_no_overflow (h : ∀ r, ¬ Overflowing inst m r) :
    NoOverflow m (afterInstruction u inst m) := by
  have handled := handler_no_overflow (u := u) h
  refine ⟨(count_cycle_value _).trans handled.value, ?_⟩
  intro ho
  exact handled.raised ((count_cycle_bitmap (by decide) _).mp ho)

end

def Overflows (s : System) (e : Event) (r : Int) : Prop :=
  ∃ u inst m, executed s e = some (u, inst, m) ∧ Overflowing inst m r

/-- AC as the instruction of the event leaves it, before any interrupt is taken. -/
def acLeft (s : System) (e : Event) : Option Int :=
  (executed s e).map (fun x => (afterInstruction x.1 x.2.1 x.2.2).cpu.ac)

/-- The event ends with an overflow being handled, of its own instruction or a deferred one. -/
def DeliversOverflow (s : System) (e : Event) : Prop :=
  ∃ u inst m, executed s e = some (u, inst, m) ∧ TakesInterrupt (afterInstruction u inst m) ∧
    codeToHandle (afterInstruction u inst m).interruptBitmap = .overflow

def KeepsAc (s : System) (e : Event) : Prop :=
  ∀ u inst m, executed s e = some (u, inst, m) →
    (checkInterrupts u { s with hw := afterInstruction u inst m }).2.hw.cpu.ac =
      (afterInstruction u inst m).cpu.ac

/-- Handling interrupts remembers no other value and leaves nothing new pending. -/
theorem check_interrupts_no_overflow (u : Unspecified) (s : System) :
    NoOverflow s.hw (checkInterrupts u s).2.hw := by
  rcases interrupts_idle_or_taken s.hw with hidle | ⟨hp, he⟩
  · rw [check_interrupts_idle u hidle]
    exact .refl _
  · refine ⟨?_, ?_⟩
    · have handled := handle_interrupt_handled u (codeToHandle s.hw.interruptBitmap) (entered s)
        (interrupted s.hw) rfl
      rw [check_interrupts_taken u hp he]
      generalize handleInterrupt u (codeToHandle s.hw.interruptBitmap) (entered s) = r at handled ⊢
      obtain ⟨cpu, hleft⟩ := leave_machine (codeToHandle s.hw.interruptBitmap) r.1 r.2
      rw [hleft]
      exact handled.rest.2.2.2
    · rw [check_interrupts_bitmap u hp he]
      exact Finset.mem_of_mem_erase

/-- A handled overflow leaves the remembered value, reduced, in AC; its frame has no say. -/
theorem delivered_accumulator (u : Unspecified) {s : System} (ht : TakesInterrupt s.hw)
    (hc : codeToHandle s.hw.interruptBitmap = .overflow) :
    (checkInterrupts u s).2.hw.cpu.ac = encode signBit (wrap signBit s.hw.interruptValue) := by
  rw [check_interrupts_taken u ht.1 ht.2, hc, ← entered_value s, ← rebuilt_accumulator]
  rfl

/-- What an event leaves pending and remembered is what its processor step left. -/
theorem next_interrupts {s : System} {e : Event} {u : Unspecified} {inst : Instruction}
    {m : Machine} (h : executed s e = some (u, inst, m)) :
    NoOverflow (afterInstruction u inst m) (next s e).hw := by
  obtain ⟨rfl, hc, hf⟩ := executed_worker h
  obtain ⟨cpu, k, hnext⟩ := worker_kept u hc
  have taken := check_interrupts_no_overflow u { s with hw := afterInstruction u inst m }
  rw [hnext, cpu_step_fetched u hf]
  exact ⟨taken.value, taken.raised⟩

theorem executed_no_overflow {s : System} {e : Event} {u : Unspecified} {inst : Instruction}
    {m : Machine} (hx : executed s e = some (u, inst, m)) (h : ∀ r, ¬ Overflows s e r) :
    NoOverflow s.hw (afterInstruction u inst m) := by
  have hm : m.interruptValue = s.hw.interruptValue ∧ m.interruptBitmap = s.hw.interruptBitmap := by
    obtain ⟨-, -, hf⟩ := executed_worker hx
    obtain ⟨w, -, -, hm, -⟩ := fetched_machine hf
    rw [hm]
    exact ⟨rfl, rfl⟩
  have quiet := after_no_overflow (u := u) (fun r hr => h r ⟨u, inst, m, hx, hr⟩)
  exact ⟨quiet.value.trans hm.1, fun ho => hm.2 ▸ quiet.raised ho⟩

/-- An overflow is remembered with its value. -/
theorem overflows_remembered {s : System} {e : Event} {r : Int} (h : Overflows s e r) :
    (next s e).hw.interruptValue = r := by
  obtain ⟨u, inst, m, hx, hover⟩ := h
  exact (next_interrupts hx).value.trans (after_overflow u hover).1

theorem overflows_left {s : System} {e : Event} {r : Int} (h : Overflows s e r) :
    acLeft s e = some (encode signBit (wrap signBit r)) := by
  obtain ⟨u, inst, m, hx, hover⟩ := h
  rw [acLeft, hx]
  exact congrArg some (after_overflow u hover).2.2

theorem created_no_overflow (host : Host) (u : Unspecified) (progName : List Char) (s : System) :
    NoOverflow s.hw (createProcess host u progName s).2.hw := by
  have created := create_process_created host u progName s
  obtain ⟨status, disk, vfs, hload⟩ := load_to_disk host u progName s
  generalize createProcess host u progName s = r at created
  cases created with
  | full => exact .refl _
  | refused =>
    rw [hload]
    exact ⟨rfl, id⟩
  | made i entry start hi hslot =>
    obtain ⟨ram, himage⟩ := load_image_ram (getBaseRegister start) entry.wordCount.toNat 0
      ⟨entry.startTrack, entry.startCylinder, entry.startSector⟩ (vfsLoadToDisk host u progName s).2.hw
    rw [himage, hload]
    exact ⟨rfl, id⟩

/-- An overflow that is pending after an event without one was pending before with its value. -/
theorem next_no_overflow {s : System} {e : Event} (h : ∀ r, ¬ Overflows s e r)
    (hp : .overflow ∈ (next s e).hw.interruptBitmap) : NoOverflow s.hw (next s e).hw := by
  cases hx : executed s e with
  | some x =>
    obtain ⟨u, inst, m⟩ := x
    have after := executed_no_overflow hx h
    have taken := next_interrupts hx
    exact ⟨taken.value.trans after.value, fun ho => after.raised (taken.raised ho)⟩
  | none =>
    cases e with
    | create host u progName => exact created_no_overflow host u progName s
    | worker u =>
      by_cases hc : s.kernel.currentActiveProcess = -1
      · obtain ⟨cpu, k, htick⟩ := tick_kept s
        rw [next_idle u hc, htick]
        exact ⟨rfl, id⟩
      · have hf : fetched s.hw = none := by
          rw [executed, if_neg hc] at hx
          exact Option.map_eq_none_iff.mp hx
        obtain ⟨cpu, k, hnext⟩ := worker_kept u hc
        rw [hnext, cpu_step_unfetched u hf]
        exact ⟨rfl, id⟩
    | monitor active => exact ⟨rfl, id⟩
    | restart => exact absurd hp (Finset.notMem_empty _)

/-- The event at index `j` is the last of the first `i` to overflow. -/
def LastOverflow (s : System) (es : List Event) (i j : Nat) (e : Event) (r : Int) : Prop :=
  j < i ∧ es[j]? = some e ∧ Overflows (Trace.stateAt next s es j) e r ∧
    ∀ k c q, j < k → k < i → es[k]? = some c → ¬ Overflows (Trace.stateAt next s es k) c q

/-- A pending overflow is remembered with the value of the last instruction that had one. -/
theorem pending_overflow (keyboard : Nat → Int) (es : List Event) {i : Nat} (hi : i ≤ es.length)
    (hp : .overflow ∈ (Trace.stateAt next (boot keyboard) es i).hw.interruptBitmap) :
    ∃ j e r, LastOverflow (boot keyboard) es i j e r ∧
      (Trace.stateAt next (boot keyboard) es i).hw.interruptValue = r := by
  induction i with
  | zero => exact absurd hp (Finset.notMem_empty _)
  | succ i ih =>
    have he : es[i]? = some es[i] := List.getElem?_eq_getElem (by omega)
    rw [Trace.stateAt_succ he] at hp ⊢
    by_cases h : ∃ r, Overflows (Trace.stateAt next (boot keyboard) es i) es[i] r
    · obtain ⟨r, hr⟩ := h
      refine ⟨i, es[i], r, ⟨by omega, he, hr, ?_⟩, overflows_remembered hr⟩
      intro k c q hk hk'
      omega
    · have quiet := next_no_overflow (fun r hr => h ⟨r, hr⟩) hp
      obtain ⟨j, e, r, ⟨hj, hje, hr, hlast⟩, hvalue⟩ := ih (by omega) (quiet.raised hp)
      refine ⟨j, e, r, ⟨by omega, hje, hr, ?_⟩, quiet.value.trans hvalue⟩
      intro k c q hjk hk hc
      by_cases hki : k = i
      · subst hki
        obtain rfl : es[k] = c := Option.some.inj (he.symm.trans hc)
        exact fun hq => h ⟨q, hq⟩
      · exact hlast k c q hjk (by omega) hc

theorem handled_code_pending {pending : Finset InterruptCode}
    (h : codeToHandle pending = .overflow) : .overflow ∈ pending := by
  unfold codeToHandle at h
  split_ifs at h with h1 h2 h3
  exact h3

/-- The value an overflow is handled with is that of the last instruction that had one. -/
theorem delivered_value (keyboard : Nat → Int) (es : List Event) {i : Nat} {e : Event}
    {u : Unspecified} {inst : Instruction} {m : Machine} (he : es[i]? = some e)
    (hx : executed (Trace.stateAt next (boot keyboard) es i) e = some (u, inst, m))
    (hp : .overflow ∈ (afterInstruction u inst m).interruptBitmap) :
    ∃ j e' r, LastOverflow (boot keyboard) es (i + 1) j e' r ∧
      (afterInstruction u inst m).interruptValue = r := by
  by_cases h : ∃ r, Overflows (Trace.stateAt next (boot keyboard) es i) e r
  · obtain ⟨r, hr⟩ := h
    refine ⟨i, e, r, ⟨by omega, he, hr, fun k c q hk hk' => by omega⟩, ?_⟩
    rw [← (next_interrupts hx).value]
    exact overflows_remembered hr
  · have hi : i ≤ es.length := (List.getElem?_eq_some_iff.mp he).1.le
    have quiet := executed_no_overflow hx (fun r hr => h ⟨r, hr⟩)
    obtain ⟨j, e', r, ⟨hj, hje, hr, hlast⟩, hvalue⟩ :=
      pending_overflow keyboard es hi (quiet.raised hp)
    refine ⟨j, e', r, ⟨by omega, hje, hr, ?_⟩, quiet.value.trans hvalue⟩
    intro k c q hjk hk hc
    by_cases hki : k = i
    · subst hki
      obtain rfl : e = c := Option.some.inj (he.symm.trans hc)
      exact fun hq => h ⟨q, hq⟩
    · exact hlast k c q hjk (by omega) hc

/-- A handled overflow keeps AC exactly when AC still is the word that the last overflowing
instruction stored: always in the step of that instruction, but not when a later instruction or
another process has changed AC in the meantime. -/
theorem deferred_overflow (keyboard : Nat → Int) (es : List Event) (i : Nat) (e : Event)
    (he : es[i]? = some e)
    (hd : DeliversOverflow (Trace.stateAt next (boot keyboard) es i) e) :
    ∃ j e' r, LastOverflow (boot keyboard) es (i + 1) j e' r ∧
      (KeepsAc (Trace.stateAt next (boot keyboard) es i) e ↔
        acLeft (Trace.stateAt next (boot keyboard) es i) e =
          acLeft (Trace.stateAt next (boot keyboard) es j) e') := by
  obtain ⟨u, inst, m, hx, ht, hc⟩ := hd
  obtain ⟨j, e', r, hlast, hvalue⟩ :=
    delivered_value keyboard es he hx (handled_code_pending hc)
  refine ⟨j, e', r, hlast, ?_⟩
  have delivered := delivered_accumulator u
    (s := { Trace.stateAt next (boot keyboard) es i with hw := afterInstruction u inst m }) ht hc
  dsimp only at delivered
  rw [hvalue] at delivered
  rw [overflows_left hlast.2.2.1, acLeft, hx, Option.map_some, Option.some_inj]
  constructor
  · intro hkept
    exact (hkept u inst m hx).symm.trans delivered
  · intro hac u' inst' m' hx'
    obtain ⟨rfl, rfl, rfl⟩ : u = u' ∧ inst = inst' ∧ m = m' := by
      simpa using hx.symm.trans hx'
    exact delivered.trans hac.symm

/-- A program that multiplies 99999 by itself with the interrupts disabled and loads a 5 before
it enables them again. -/
def deferring : List Event :=
  [.create (hostOf "_start 1\n.N 5\n.P A\n16000000\n04199999\n02199999\n04100005\n15000000\n" "")
    zeros ['a']] ++ List.replicate 6 (.worker zeros)

def waiting : List Event :=
  [.create (hostOf "_start 1\n.N 5\n.P A\n16000000\n04199999\n02199999\n08100005\n15000000\n" "")
    zeros ['a']] ++ List.replicate 6 (.worker zeros)

theorem overflows_opcode {s : System} {e : Event} {r : Int} (h : Overflows s e r) :
    (executed s e).any (fun x => x.2.1.opCode ∈ [.sum, .res, .mult, .divi]) := by
  obtain ⟨u, inst, m, hx, hop, -⟩ := h
  rw [hx]
  simpa [IsArithmetic] using hop

/-- What is to be checked of an event that handles an overflow. -/
theorem delivers_of_handled {s : System} {e : Event}
    (h : (executed s e).map (fun x => (decide (TakesInterrupt (afterInstruction x.1 x.2.1 x.2.2)),
      codeToHandle (afterInstruction x.1 x.2.1 x.2.2).interruptBitmap)) = some (true, .overflow)) :
    DeliversOverflow s e := by
  obtain ⟨⟨u, inst, m⟩, hx, heq⟩ := Option.map_eq_some_iff.mp h
  obtain ⟨ht, hc⟩ := Prod.mk.inj heq
  exact ⟨u, inst, m, hx, of_decide_eq_true ht, hc⟩

theorem deferred_overflow_kept :
    ¬ DeliversOverflow (Trace.stateAt next (boot zeroKeys) waiting 4) (.worker zeros) ∧
    KeepsAc (Trace.stateAt next (boot zeroKeys) waiting 6) (.worker zeros) := by
  have disabled : (executed (Trace.stateAt next (boot zeroKeys) waiting 4) (.worker zeros)).any
      (fun x => TakesInterrupt (afterInstruction x.1 x.2.1 x.2.2)) = false := by decide +kernel
  obtain ⟨j, e, r, ⟨hj, he, hover, -⟩, kept⟩ :=
    deferred_overflow zeroKeys waiting 6 (.worker zeros) rfl
      (delivers_of_handled (by decide +kernel))
  have opcode := overflows_opcode hover
  constructor
  · rintro ⟨u, inst, m, hx, ht, -⟩
    rw [hx] at disabled
    simp [ht] at disabled
  · have multiplies : ∀ k < 7, ∀ d ∈ waiting[k]?,
        (executed (Trace.stateAt next (boot zeroKeys) waiting k) d).any
          (fun x => x.2.1.opCode ∈ [.sum, .res, .mult, .divi]) → k = 4 := by
      decide +kernel
    obtain rfl := multiplies j hj e he opcode
    obtain rfl := Option.some.inj he
    exact kept.mpr (by decide +kernel)

theorem not_deferred_overflow :
    ¬ ∀ (keyboard : Nat → Int) (es : List Event) (i : Nat) (e : Event), es[i]? = some e →
      DeliversOverflow (Trace.stateAt next (boot keyboard) es i) e →
      KeepsAc (Trace.stateAt next (boot keyboard) es i) e := by
  intro h
  have kept := h zeroKeys deferring 6 (.worker zeros) rfl (delivers_of_handled (by decide +kernel))
  have lost : (executed (Trace.stateAt next (boot zeroKeys) deferring 6) (.worker zeros)).map
      (fun x => ((checkInterrupts x.1 { Trace.stateAt next (boot zeroKeys) deferring 6 with
        hw := afterInstruction x.1 x.2.1 x.2.2 }).2.hw.cpu.ac,
        (afterInstruction x.1 x.2.1 x.2.2).cpu.ac)) = some (9800001, 5) := by
    decide +kernel
  obtain ⟨⟨u, inst, m⟩, hx, heq⟩ := Option.map_eq_some_iff.mp lost
  obtain ⟨hafter, hbefore⟩ := Prod.mk.inj heq
  have same := kept u inst m hx
  rw [hafter, hbefore] at same
  exact absurd same (by decide)

end Lucario.Proofs
