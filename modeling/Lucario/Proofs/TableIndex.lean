import Lucario.Proofs.DebugRuns
import Lucario.Proofs.ServiceCall
import Lucario.Proofs.Sessions

namespace Lucario.Proofs

/-- The indices at which `handleSyscall` accesses `PROCESS_TABLE[currentActiveProcess]`, be it
only for a log line. -/
def syscallAccesses (s : System) : List Int :=
  let access := [s.kernel.currentActiveProcess]
  match wordToInt s.hw.cpu.ac, readMemory (s.hw.cpu.sp + 7) s.hw with
  | 1, .ok _ => access
  | 2, .ok _ => access
  | 3, _ => access
  | 4, .ok w => if wordToInt w = 0 then [] else access
  | _, _ => []

def stepAccesses (u : Unspecified) (s : System) : List Int :=
  match fetched s.hw with
  | none => []
  | some (inst, m) =>
    let s := { s with hw := afterInstruction u inst m }
    if s.hw.interruptBitmap = ∅ ∨ s.hw.cpu.psw.interruptEnable = .disabled then []
    else if codeToHandle s.hw.interruptBitmap = .syscall then syscallAccesses (entered s)
    else []

def tickAccesses (s : System) : List Int :=
  (if s.kernel.currentActiveProcess ≠ -1 then [s.kernel.currentActiveProcess] else []) ++
    (findNext (beforeScan s)).toList

def workerAccesses (u : Unspecified) (s : System) : List Int :=
  if s.kernel.currentActiveProcess ≠ -1 then
    stepAccesses u s ++
      match cpuStep u s with
      | (false, s) =>
        s.kernel.currentActiveProcess :: tickAccesses (markFinished (releaseMemory s))
      | (true, s) =>
        if s.kernel.osYield then
          tickAccesses { s with kernel := { s.kernel with osYield := false } }
        else []
  else tickAccesses s

def consoleAccesses (c : Console) : ConsoleEvent → List Int
  | .kernel (.worker u) => workerAccesses u c.system
  | .step u => if c.debugging then stepAccesses u c.system else []
  | _ => []

def withTable (t : Int → Pcb) (s : System) : System :=
  { s with kernel := { s.kernel with processTable := t } }

/-- The list is complete: a call that accesses nothing does the same whatever the table holds, and
leaves it as it is. -/
theorem syscall_without_access (u : Unspecified) {s : System} (t : Int → Pcb)
    (h : syscallAccesses s = []) :
    handleSyscall u (withTable t s) =
      ((handleSyscall u s).1, withTable t (handleSyscall u s).2) := by
  have hparam : readMemory ((withTable t s).hw.cpu.sp + 7) (withTable t s).hw =
      readMemory (s.hw.cpu.sp + 7) s.hw := rfl
  have hcode : (withTable t s).hw.cpu.ac = s.hw.cpu.ac := rfl
  unfold syscallAccesses at h
  unfold handleSyscall
  simp only [hparam, hcode] at h ⊢
  generalize readMemory (s.hw.cpu.sp + 7) s.hw = param at h ⊢
  generalize wordToInt s.hw.cpu.ac = code at h ⊢
  split at h
  · cases h
  · cases h
  · cases h
  · split_ifs at h with hzero
    simp only [hzero, lt_irrefl, if_false, if_true]
  · rename_i h3 h1 h2 h4
    cases param with
    | ok w =>
      split
      · exact absurd rfl (h1 w rfl)
      · exact absurd rfl (h2 w rfl)
      · exact absurd rfl h3
      · exact absurd rfl (h4 w rfl)
      · rfl
    | error status =>
      split
      · rfl
      · rfl
      · exact absurd rfl h3
      · rfl
      · rfl

def NeedsSlot (m : Machine) : Prop :=
  wordToInt m.cpu.ac = 3 ∨ Accessible m.cpu m.cpu.sp ∧
    (wordToInt m.cpu.ac = 1 ∨ wordToInt m.cpu.ac = 2 ∨
      wordToInt m.cpu.ac = 4 ∧ wordToInt (m.ram (translate m.cpu m.cpu.sp)) ≠ 0)

instance (m : Machine) : Decidable (NeedsSlot m) := inferInstanceAs (Decidable (_ ∨ _))

/-- The argument of a call is read above the frame, where the caller left it. -/
theorem syscall_accesses_entered (s : System) :
    syscallAccesses (entered s) =
      if NeedsSlot s.hw then [s.kernel.currentActiveProcess] else [] := by
  have hcode := entered_accumulator s
  have hcur : (entered s).kernel.currentActiveProcess = s.kernel.currentActiveProcess := rfl
  unfold syscallAccesses NeedsSlot
  rw [hcode, hcur]
  by_cases ha : Accessible s.hw.cpu s.hw.cpu.sp
  · rw [entered_argument ha]
    dsimp only
    split <;> simp_all
  · have hinacc : ¬ Accessible (entered s).hw.cpu ((entered s).hw.cpu.sp + 7) := by
      rw [entered_sp, show s.hw.cpu.sp - 7 + 7 = s.hw.cpu.sp by omega]
      exact fun h => ha ((accessible_congr (entered_view s) _).mp h)
    obtain ⟨status, hs⟩ := read_inaccessible hinacc
    rw [hs]
    dsimp only
    split <;> simp_all

/-- The step handles a system call that goes by the running process. -/
def CallsThroughSlot (u : Unspecified) (s : System) : Prop :=
  ∃ inst m, fetched s.hw = some (inst, m) ∧
    (afterInstruction u inst m).interruptBitmap ≠ ∅ ∧
    (afterInstruction u inst m).cpu.psw.interruptEnable = .enabled ∧
    codeToHandle (afterInstruction u inst m).interruptBitmap = .syscall ∧
    NeedsSlot (afterInstruction u inst m)

/-- A processor step goes by the running process in such a call, once or more, or not at all. -/
theorem step_accesses (u : Unspecified) (s : System) :
    CallsThroughSlot u s ∧ stepAccesses u s = [s.kernel.currentActiveProcess] ∨
      ¬ CallsThroughSlot u s ∧ stepAccesses u s = [] := by
  unfold stepAccesses CallsThroughSlot
  cases hf : fetched s.hw with
  | none => exact Or.inr ⟨by simp, rfl⟩
  | some x =>
    obtain ⟨inst, m⟩ := x
    dsimp only
    rcases interrupts_idle_or_taken (afterInstruction u inst m) with hidle | ⟨hp, he⟩
    · rw [if_pos hidle]
      refine Or.inr ⟨?_, rfl⟩
      rintro ⟨inst', m', heq, hp, he, -⟩
      obtain ⟨rfl, rfl⟩ := Prod.mk.inj (Option.some.inj heq)
      rcases hidle with hempty | hdisabled
      · exact hp hempty
      · rw [hdisabled] at he
        cases he
    · have hn : ¬ ((afterInstruction u inst m).interruptBitmap = ∅ ∨
          (afterInstruction u inst m).cpu.psw.interruptEnable = .disabled) := by
        simp [hp, he]
      rw [if_neg hn, syscall_accesses_entered]
      split_ifs with hcode hneeds
      · exact Or.inl ⟨⟨inst, m, rfl, hp, he, hcode, hneeds⟩, rfl⟩
      · refine Or.inr ⟨?_, rfl⟩
        rintro ⟨inst', m', heq, -, -, -, hneeds'⟩
        obtain ⟨rfl, rfl⟩ := Prod.mk.inj (Option.some.inj heq)
        exact hneeds hneeds'
      · refine Or.inr ⟨?_, rfl⟩
        rintro ⟨inst', m', heq, -, -, hcode', -⟩
        obtain ⟨rfl, rfl⟩ := Prod.mk.inj (Option.some.inj heq)
        exact hcode hcode'

/-- A tick made with a slot index or none saves to and loads from a slot. -/
theorem tick_accesses {s : System} (hc : ValidCurrent s.kernel.currentActiveProcess) :
    ∀ a ∈ tickAccesses s, 0 ≤ a ∧ a < 20 := by
  intro a ha
  rcases List.mem_append.mp ha with hsave | hload
  · split_ifs at hsave with hidle
    · obtain rfl := List.mem_singleton.mp hsave
      exact hc.resolve_left hidle
    · cases hsave
  · have hfind : findNext (beforeScan s) = some a := by simpa using hload
    rw [findNext, before_scan_current, scan_order_eq hc] at hfind
    obtain ⟨-, hl, hu⟩ := CyclicScan.find_some hfind
    exact ⟨hl, by simpa using hu⟩

/-- With a process running, every access of an iteration is to its slot or made by the tick. -/
theorem worker_accesses (u : Unspecified) {s : System}
    (hc : ValidCurrent s.kernel.currentActiveProcess) :
    ∀ a ∈ workerAccesses u s, 0 ≤ a ∧ a < 20 := by
  unfold workerAccesses
  split_ifs with hidle
  · have slot := hc.resolve_left hidle
    have current := cpu_step_current u s
    have own : ∀ a ∈ stepAccesses u s, 0 ≤ a ∧ a < 20 := by
      intro a ha
      rcases step_accesses u s with ⟨-, h⟩ | ⟨-, h⟩ <;> rw [h] at ha
      · obtain rfl := List.mem_singleton.mp ha
        exact slot
      · cases ha
    intro a ha
    rcases List.mem_append.mp ha with hstep | hrest
    · exact own a hstep
    · generalize cpuStep u s = r at current hrest
      obtain ⟨status, t⟩ := r
      have ht : ValidCurrent t.kernel.currentActiveProcess := current ▸ hc
      cases status with
      | false =>
        rcases List.mem_cons.mp hrest with rfl | htick
        · exact current ▸ slot
        · exact tick_accesses (s := markFinished (releaseMemory t)) ht a htick
      | true =>
        dsimp only at hrest
        split_ifs at hrest
        · exact tick_accesses (s := { t with kernel := { t.kernel with osYield := false } }) ht a
            hrest
        · cases hrest
  · exact tick_accesses hc

/-- In every run every access to the process table by the running process is in range, unless the
debugger executes, with no process running, a system call that goes by it. -/
theorem table_index_in_range (keyboard : Nat → Int) (es : List ConsoleEvent) :
    (∀ i e, es[i]? = some e →
      ∀ a ∈ consoleAccesses (Trace.stateAt consoleNext (consoleBoot keyboard) es i) e,
        0 ≤ a ∧ a < maxProcesses) ↔
      ∀ i u, es[i]? = some (.step u) →
        (Trace.stateAt consoleNext (consoleBoot keyboard) es i).debugging = true →
        (Trace.stateAt consoleNext
          (consoleBoot keyboard) es i).system.kernel.currentActiveProcess = -1 →
        ¬ CallsThroughSlot u (Trace.stateAt consoleNext (consoleBoot keyboard) es i).system := by
  constructor
  · intro h i u he hdebug hidle hcall
    have inrange := h i (.step u) he
    simp only [consoleAccesses, hdebug, if_true] at inrange
    rcases step_accesses u (Trace.stateAt consoleNext (consoleBoot keyboard) es i).system with
      ⟨-, haccess⟩ | ⟨hno, -⟩
    · rw [haccess, hidle] at inrange
      have := (inrange (-1) (List.mem_singleton_self _)).1
      omega
    · exact hno hcall
  · intro h i e he a ha
    have current := console_current keyboard es i
    generalize hc : Trace.stateAt consoleNext (consoleBoot keyboard) es i = c at current ha
    cases e with
    | kernel e =>
      cases e with
      | worker u => exact worker_accesses u current a ha
      | create host u progName => cases ha
      | monitor active => cases ha
      | restart => cases ha
    | debug host argument => cases ha
    | step u =>
      simp only [consoleAccesses] at ha
      split_ifs at ha with hdebug
      · have safe := h i u he
        rw [hc] at safe
        rcases step_accesses u c.system with ⟨hcall, haccess⟩ | ⟨-, hnone⟩
        · rw [haccess] at ha
          obtain rfl := List.mem_singleton.mp ha
          exact current.resolve_left (fun hidle => safe hdebug hidle hcall)
        · rw [hnone] at ha
          cases ha
      · cases ha
    | quit => cases ha

def idleRead : List ConsoleEvent :=
  [.debug (hostOf "_start 1\n.N 2\n.P A\n04100003\n13000000\n" "") ['a'], .step zeros,
    .step zeros]

theorem not_table_index_in_range :
    ¬ ∀ (keyboard : Nat → Int) (es : List ConsoleEvent) (i : Nat) (e : ConsoleEvent),
      es[i]? = some e →
      ∀ a ∈ consoleAccesses (Trace.stateAt consoleNext (consoleBoot keyboard) es i) e,
        0 ≤ a ∧ a < maxProcesses := by
  intro h
  have outside : (-1 : Int) ∈ consoleAccesses
      (Trace.stateAt consoleNext (consoleBoot zeroKeys) idleRead 2) (.step zeros) := by
    decide +kernel
  exact absurd (h zeroKeys idleRead 2 _ rfl _ outside).1 (by decide)

end Lucario.Proofs
