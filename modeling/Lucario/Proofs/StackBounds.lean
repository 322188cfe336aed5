import Lucario.Execute
import Lucario.Proofs.Sessions

namespace Lucario.Proofs

structure InStack (c : Cpu) : Prop where
  user : c.psw.mode = .user
  base : 0 ≤ c.rb
  ordered : c.rb ≤ c.rl
  limit : c.rl < ramSize
  boundary : 0 ≤ c.rx
  above : c.rx ≤ c.sp
  below : c.sp ≤ c.rl - c.rb

def MovesStack (op : OpCode) : Prop := op = .psh ∨ op = .pop ∨ op = .retrn

def Crosses (c : Cpu) (op : OpCode) : Prop :=
  op = .psh ∧ c.sp - 1 < c.rx ∨ (op = .pop ∨ op = .retrn) ∧ c.rl - c.rb < c.sp + 1

/-- An instruction that succeeds has stayed in the stack, and one that would have left it fails. -/
structure StackGuarded (u : Unspecified) (inst : Instruction) (m : Machine) : Prop where
  kept : (handler u inst m).1 = .success → InStack (handler u inst m).2.cpu
  refused : Crosses m.cpu inst.opCode → (handler u inst m).1 = .fail

def ReturnsAtBase (inst : Instruction) (c : Cpu) : Prop :=
  inst.opCode = .retrn ∧ c.sp + c.rb = c.rl

structure SameStack (c d : Cpu) : Prop where
  mode : c.psw.mode = d.psw.mode
  rb : c.rb = d.rb
  rl : c.rl = d.rl
  rx : c.rx = d.rx
  sp : c.sp = d.sp

/-- What stack instructions lead to, with anything else in between that leaves the protection and
the stack pointer alone, as long as none of them is a RETRN on the last word. -/
inductive StackRun (m : Machine) : Machine → Prop where
  | start : StackRun m m
  | step {n k : Machine} (h : StackRun m n) (same : SameStack k.cpu n.cpu) (u : Unspecified)
      (inst : Instruction) (hop : MovesStack inst.opCode) (hreturn : ¬ ReturnsAtBase inst k.cpu) :
    StackRun m (handler u inst k).2

variable {u : Unspecified} {inst : Instruction} {m : Machine}

theorem InStack.accessible {c : Cpu} (h : InStack c) {a : Int} (hl : 0 ≤ a)
    (hu : a ≤ c.rl - c.rb) : Accessible c a := by
  have hb := h.base
  have hlim := h.limit
  simp only [ramSize] at hlim
  rw [accessible_user h.user]
  omega

theorem InStack.of_same {c d : Cpu} (h : InStack d) (same : SameStack c d) : InStack c := by
  obtain ⟨hm, hb, hl, hx, hs⟩ := same
  obtain ⟨hu, h0, hord, hlim, hbound, habove, hbelow⟩ := h
  exact ⟨hm.trans hu, hb ▸ h0, by rw [hb, hl]; exact hord, hl ▸ hlim, hx ▸ hbound,
    by rw [hx, hs]; exact habove, by rw [hs, hl, hb]; exact hbelow⟩

/-- The same register file with another stack pointer in the stack. -/
theorem InStack.move {c d : Cpu} (h : InStack c) {sp : Int}
    (same : SameStack d { c with sp := sp }) (hl : c.rx ≤ sp) (hu : sp ≤ c.rl - c.rb) :
    InStack d := by
  have moved : InStack { c with sp := sp } :=
    ⟨h.user, h.base, h.ordered, h.limit, h.boundary, hl, hu⟩
  exact moved.of_same same

/-- PSH stops at the boundary register; a store that is refused has moved the stack pointer. -/
theorem push_moves (hop : inst.opCode = .psh) :
    if m.cpu.sp - 1 < m.cpu.rx then
      (handler u inst m).1 = .fail ∧ SameStack (handler u inst m).2.cpu m.cpu
    else SameStack (handler u inst m).2.cpu { m.cpu with sp := m.cpu.sp - 1 } := by
  have hpush : handler u inst m = executeStackManipulation inst m := by
    unfold handler
    rw [hop]
  rw [hpush, executeStackManipulation, hop]
  dsimp only
  split_ifs with hbound
  · exact ⟨rfl, rfl, rfl, rfl, rfl, rfl⟩
  · generalize hw : writeMemory (m.cpu.sp - 1) m.cpu.ac { m with cpu.sp := m.cpu.sp - 1 } = r
    cases r with
    | error status => exact ⟨rfl, rfl, rfl, rfl, rfl⟩
    | ok n =>
      have same : n.cpu = { m.cpu with sp := m.cpu.sp - 1 } := by
        unfold writeMemory at hw
        split_ifs at hw
        cases hp : getPhysicalAddress { m.cpu with sp := m.cpu.sp - 1 } (m.cpu.sp - 1) with
        | error status => simp [hp, Except.map] at hw
        | ok a =>
          simp only [hp, Except.map, Except.ok.injEq] at hw
          rw [← hw]
          rfl
      simp only [finishWrite]
      rw [same]
      exact ⟨rfl, rfl, rfl, rfl, rfl⟩

/-- POP stops at the limit. -/
theorem pop_moves (hop : inst.opCode = .pop) :
    if m.cpu.rl ≤ m.cpu.sp + m.cpu.rb then
      (handler u inst m).1 = .fail ∧ SameStack (handler u inst m).2.cpu m.cpu
    else SameStack (handler u inst m).2.cpu { m.cpu with sp := m.cpu.sp + 1 } := by
  have hpop : handler u inst m = executeStackManipulation inst m := by
    unfold handler
    rw [hop]
  rw [hpop, executeStackManipulation, hop]
  dsimp only
  split_ifs with hlimit
  · exact ⟨rfl, rfl, rfl, rfl, rfl, rfl⟩
  · exact ⟨rfl, rfl, rfl, rfl, rfl⟩

/-- RETRN reads a word of the stack and does not look at the limit. -/
theorem return_moves (h : InStack m.cpu) (hop : inst.opCode = .retrn) :
    (handler u inst m).1 = .success ∧
      SameStack (handler u inst m).2.cpu { m.cpu with sp := m.cpu.sp + 1 } := by
  have hreturn : handler u inst m = executeReturn m := by
    unfold handler
    rw [hop]
  have readable : Accessible m.cpu m.cpu.sp := h.accessible (h.boundary.trans h.above) h.below
  rw [hreturn, executeReturn, read_accessible readable]
  exact ⟨rfl, rfl, rfl, rfl, rfl, rfl⟩

/-- A stack instruction keeps the stack pointer in the stack, a RETRN on the last word apart. -/
theorem stack_instruction_kept (h : InStack m.cpu) (hop : MovesStack inst.opCode)
    (hreturn : ¬ ReturnsAtBase inst m.cpu) : InStack (handler u inst m).2.cpu := by
  have habove := h.above
  have hbelow := h.below
  rcases hop with hop | hop | hop
  · have moves := push_moves (u := u) (m := m) hop
    split_ifs at moves with hbound
    · exact h.of_same moves.2
    · exact h.move moves (by omega) (by omega)
  · have moves := pop_moves (u := u) (m := m) hop
    split_ifs at moves with hlimit
    · exact h.of_same moves.2
    · exact h.move moves (by omega) (by omega)
  · have hroom : m.cpu.sp + m.cpu.rb ≠ m.cpu.rl := fun he => hreturn ⟨hop, he⟩
    exact h.move (return_moves h hop).2 (by omega) (by omega)

theorem stack_instruction_refused (h : InStack m.cpu) (hreturn : ¬ ReturnsAtBase inst m.cpu)
    (hcross : Crosses m.cpu inst.opCode) : (handler u inst m).1 = .fail := by
  have hbelow := h.below
  rcases hcross with ⟨hop, hbound⟩ | ⟨hop | hop, hlimit⟩
  · have moves := push_moves (u := u) (m := m) hop
    rw [if_pos hbound] at moves
    exact moves.1
  · have moves := pop_moves (u := u) (m := m) hop
    rw [if_pos (by omega)] at moves
    exact moves.1
  · exact absurd ⟨hop, by omega⟩ hreturn

/-- From every user state with the stack pointer in the stack, an instruction guards the bounds of
the stack unless it is a RETRN on the last word, and so does every run without one. -/
theorem stack_guarded (h : InStack m.cpu) :
    (∀ (u : Unspecified) (inst : Instruction), MovesStack inst.opCode →
      (StackGuarded u inst m ↔ ¬ ReturnsAtBase inst m.cpu)) ∧
    ∀ n, StackRun m n → InStack n.cpu := by
  constructor
  · intro u inst hop
    constructor
    · rintro guarded ⟨hret, hbase⟩
      have crosses : Crosses m.cpu inst.opCode := Or.inr ⟨Or.inr hret, by omega⟩
      have success := (return_moves (u := u) h hret).1
      rw [guarded.refused crosses] at success
      cases success
    · intro hreturn
      exact ⟨fun _ => stack_instruction_kept h hop hreturn,
        stack_instruction_refused h hreturn⟩
  · intro n run
    induction run with
    | start => exact h
    | step _ same u inst hop hreturn ih =>
      exact stack_instruction_kept (ih.of_same same) hop hreturn

def emptyStack : Machine :=
  { (boot zeroKeys).hw with cpu := { Cpu.zero with rb := 300, rl := 384, rx := 4, sp := 84 } }

theorem empty_stack_in_stack : InStack emptyStack.cpu :=
  ⟨rfl, by decide, by decide, by decide, by decide, by decide, by decide⟩

theorem stack_guarded_empty :
    StackGuarded zeros ⟨.pop, .direct, 0⟩ emptyStack ∧
      InStack (handler zeros ⟨.psh, .direct, 0⟩ emptyStack).2.cpu := by
  obtain ⟨guarded, run⟩ := stack_guarded empty_stack_in_stack
  refine ⟨(guarded zeros ⟨.pop, .direct, 0⟩ (Or.inr (Or.inl rfl))).mpr ?_, run _ ?_⟩
  · rintro ⟨hop, -⟩
    cases hop
  · refine .step .start ⟨rfl, rfl, rfl, rfl, rfl⟩ zeros ⟨.psh, .direct, 0⟩ (Or.inl rfl) ?_
    rintro ⟨hop, -⟩
    cases hop

/-- RETRN on the last word takes the stack pointer past it. -/
theorem not_stack_guarded :
    ¬ ∀ (u : Unspecified) (inst : Instruction) (m : Machine), InStack m.cpu →
      MovesStack inst.opCode → StackGuarded u inst m := by
  intro guarded
  have left := (guarded zeros ⟨.retrn, .direct, 0⟩ emptyStack empty_stack_in_stack
    (Or.inr (Or.inr rfl))).kept (by decide)
  exact absurd left.below (by decide)

end Lucario.Proofs
