import Lucario.ConsoleLoop
import Lucario.Proofs.CommandTokens
import Lucario.Proofs.DebugLoad

namespace Lucario.Proofs

def Accepts (name : List Char) (count : Nat) : Prop :=
  if name = "run".toList then 1 ≤ count ∧ count ≤ maxProcesses
  else if name = "debug".toList then count = 1
  else count = 0

def Refused (line : List Char) : Prop :=
  ∃ name operands, lineWords (cString line) = name :: operands ∧ ¬ Accepts name operands.length

instance (name : List Char) (count : Nat) : Decidable (Accepts name count) :=
  inferInstanceAs (Decidable
    (if name = "run".toList then 1 ≤ count ∧ count ≤ maxProcesses
    else if name = "debug".toList then count = 1
    else count = 0))

structure Unchanged (s s' : System) : Prop where
  cpu : s'.hw.cpu = s.hw.cpu
  ram : s'.hw.ram = s.hw.ram
  disk : s'.hw.disk = s.hw.disk
  pending : s'.hw.interruptBitmap = s.hw.interruptBitmap
  kernel : s'.kernel = s.kernel
  vfs : s'.vfs = s.vfs

/-- A round reads no slot but those its line has filled. -/
def ReadsFilled (line : List Char) (sh : Shell) : Prop :=
  ∀ i ∈ slotsRead line sh, i < (parseInput (storeLine line sh.buffer) sh.argument).2.argCount

def NoEffect (host : Host) (u : Nat → Unspecified) (wild : Nat → List Char) (line : List Char)
    (sh : Shell) : Prop :=
  Unchanged sh.system (consoleRound host u wild line sh).2.system ∧ ReadsFilled line sh

def loaderCpu : Cpu := { Cpu.zero with psw.mode := .kernel }

/-- Nothing is pending, and the registers and memory are what a load of the file for the debugger
makes of them. -/
def AlreadyLoaded (host : Host) (path : List Char) (m : Machine) : Prop :=
  m.interruptBitmap = ∅ ∧
    match host path with
    | none => m.cpu = Cpu.zero
    | some file =>
      let header := (programInfo file).1
      if ramSize < osReservedSize + minStackSize + header.wordCount then m.cpu = loaderCpu
      else
        let words := delivered header.wordCount.toNat (programInfo file).2
        (∀ i (hi : i < (accepted words).length), m.ram (osReservedSize + i) = (accepted words)[i]) ∧
          m.cpu = if accepted words = words then startRegisters header loaderCpu else loaderCpu

variable {host : Host} {u : Nat → Unspecified} {wild : Nat → List Char}
  {path name line : List Char} {count : Nat} {s : System} {sh : Shell}

theorem start_debugging_loads (hp : path ≠ []) :
    (startDebugging host path s).2 =
      { s with hw := (loadProgram host path (cpuReset s.hw)).2 } := by
  unfold startDebugging
  dsimp only
  rw [if_neg hp]
  split <;> simp_all

theorem unchanged_by_load {m : Machine} (hdisk : m.disk = s.hw.disk)
    (hpending : m.interruptBitmap = ∅) :
    Unchanged s { s with hw := m } ↔
      s.hw.interruptBitmap = ∅ ∧ m.ram = s.hw.ram ∧ s.hw.cpu = m.cpu := by
  constructor
  · intro h
    exact ⟨h.pending.symm.trans hpending, h.ram, h.cpu.symm⟩
  · rintro ⟨hnone, hram, hcpu⟩
    exact ⟨hcpu.symm, hram, hdisk, hpending.trans hnone.symm, rfl, rfl⟩

/-- The debugger's load leaves everything as it is only if it has been there already. -/
theorem debug_unchanged (hp : path ≠ []) :
    Unchanged s (startDebugging host path s).2 ↔ AlreadyLoaded host path s.hw := by
  rw [start_debugging_loads hp]
  unfold loadProgram AlreadyLoaded
  cases host path with
  | none =>
    refine Iff.trans (unchanged_by_load rfl rfl) ?_
    simp [cpuReset]
  | some file =>
    dsimp only
    generalize programInfo file = r
    obtain ⟨header, rest⟩ := r
    dsimp only
    by_cases hlarge : ramSize < osReservedSize + minStackSize + header.wordCount
    · rw [if_pos hlarge, if_pos hlarge]
      refine Iff.trans (unchanged_by_load rfl rfl) ?_
      simp [cpuReset, loaderCpu]
    rw [if_neg hlarge, if_neg hlarge]
    simp only [ramSize, osReservedSize, minStackSize] at hlarge
    have loaded := load_words_eq header.wordCount.toNat 0 rest
      { cpuReset s.hw with cpu.psw.mode := .kernel } rfl le_rfl (by omega)
    have stored := store_words_eq (accepted (delivered header.wordCount.toNat rest))
      (osReservedSize + 0) s.hw.ram
    rw [loaded]
    by_cases hall : accepted (delivered header.wordCount.toNat rest) =
        delivered header.wordCount.toNat rest
    · rw [if_pos hall, if_pos hall]
      exact Iff.trans (unchanged_by_load rfl rfl)
        (and_congr_right fun _ => and_congr stored Iff.rfl)
    · rw [if_neg hall, if_neg hall]
      exact Iff.trans (unchanged_by_load rfl rfl)
        (and_congr_right fun _ => and_congr stored Iff.rfl)

theorem take_short {s t : List Char} {n : Nat} (h : t.length < n) : s.take n = t ↔ s = t := by
  constructor
  · intro heq
    have hlength := congrArg List.length heq
    rw [List.length_take] at hlength
    rwa [List.take_of_length_le (by omega)] at heq
  · rintro rfl
    exact List.take_of_length_le h.le

def ReadsNoSlot : Handler → Prop
  | .handleRunCommand _ | .handleDebugCommand => False
  | _ => True

theorem without_arguments_call {message : String} {d : Dispatch} {handler : Handler}
    (h : (withoutArguments message d count).2 = .call handler) : d = .call handler := by
  unfold withoutArguments at h
  split at h
  · cases h
  · exact h

theorem dispatch_other (hrun : name ≠ "run".toList) (hdebug : name ≠ "debug".toList)
    {handler : Handler} (hcall : (dispatch name count).2 = .call handler) :
    ReadsNoSlot handler := by
  have plain : ∀ {message : String} {d : Dispatch},
      (d = .call handler → ReadsNoSlot handler) →
        (withoutArguments message d count).2 = .call handler → ReadsNoSlot handler :=
    fun h hcall => h (without_arguments_call hcall)
  revert hcall
  unfold dispatch
  rw [if_neg hrun, if_neg hdebug]
  -- one case for each other command, and one for a name that is none
  let Q (r : List Char × Dispatch) : Prop := r.2 = .call handler → ReadsNoSlot handler
  refine iteInduction (motive := Q) (fun _ => plain (by rintro ⟨⟩)) fun _ => ?_
  iterate 7 refine iteInduction (motive := Q) (fun _ => plain (by rintro ⟨⟩; trivial)) fun _ => ?_
  rintro ⟨⟩

/-- Only `debug` gets through with a count that it does not accept. -/
theorem dispatch_refused (h : ¬ Accepts name count) (hdebug : name ≠ "debug".toList) :
    (dispatch name count).2 = .skip := by
  unfold Accepts at h
  unfold dispatch
  by_cases hrun : name = "run".toList
  · rw [if_pos hrun] at h ⊢
    split_ifs with hmany hnone
    · rfl
    · rfl
    · omega
  · rw [if_neg hrun, if_neg hdebug] at h ⊢
    have hcount : 0 < count := by omega
    simp only [withoutArguments, if_pos hcount]
    split_ifs <;> rfl

/-- A handler of an accepted line reads the slots the line has filled. -/
theorem dispatch_accepted (h : Accepts name count) {handler : Handler}
    (hcall : (dispatch name count).2 = .call handler) : ∀ i ∈ handler.slots, i < count := by
  unfold Accepts at h
  by_cases hrun : name = "run".toList
  · rw [if_pos hrun] at h
    rw [dispatch, if_pos hrun, if_neg (by omega), if_neg (by omega)] at hcall
    cases hcall
    simp [Handler.slots]
  by_cases hdebug : name = "debug".toList
  · rw [dispatch, if_neg hrun, if_pos hdebug] at hcall
    rw [if_neg hrun, if_pos hdebug] at h
    cases hcall
    simp [Handler.slots, h]
  · have plain := dispatch_other hrun hdebug hcall
    cases handler <;> first | exact plain.elim | simp [Handler.slots]

theorem dispatch_debug (count : Nat) :
    (dispatch "debug".toList count).2 = .call .handleDebugCommand := rfl

/-- The cut name and the bounded count decide as the whole ones do. -/
theorem accepts_parsed : Accepts (name.take 19) (min count (2 * maxProcesses)) ↔
    Accepts name count := by
  unfold Accepts
  simp only [take_short (show "run".toList.length < 19 by decide),
    take_short (show "debug".toList.length < 19 by decide), maxProcesses]
  split_ifs <;> omega

theorem c_string_front (line tail : List Char) :
    '\x00' ∉ cString line ∧ ∃ rest, line ++ '\x00' :: tail = cString line ++ '\x00' :: rest := by
  induction line with
  | nil => exact ⟨by simp [cString], tail, rfl⟩
  | cons c line ih =>
    obtain ⟨hfree, rest, hrest⟩ := ih
    by_cases hc : c = '\x00'
    · subst hc
      exact ⟨by simp [cString], line ++ '\x00' :: tail, by simp [cString]⟩
    · have hcons : cString (c :: line) = c :: cString line := by simp [cString, hc]
      rw [hcons]
      exact ⟨by simp [hfree, Ne.symm hc], rest, by simp [hrest]⟩

/-- What a round makes of the words of its line. -/
theorem round_tokens (line : List Char) (sh : Shell) :
    Tokenized (lineWords (cString line)) (parseInput (storeLine line sh.buffer) sh.argument) := by
  obtain ⟨hfree, rest, hrest⟩ := c_string_front line (sh.buffer.drop (line.length + 1))
  rw [storeLine, hrest]
  exact (parse_input_tokens hfree rest sh.argument).1

/-- The line is no debug line, or one with a file that has been loaded already. -/
def Spared (host : Host) (line : List Char) (m : Machine) : Prop :=
  ∀ operands, lineWords (cString line) = "debug".toList :: operands →
    ∃ path ∈ operands.head?, AlreadyLoaded host path m

/-- A refused line has no effect unless it is a debug line, which runs all the same. -/
theorem refused_line_effect (h : Refused line) :
    NoEffect host u wild line sh ↔ Spared host line sh.system.hw := by
  obtain ⟨name, operands, hwords, hrefused⟩ := h
  have tokens := round_tokens line sh
  unfold NoEffect ReadsFilled consoleRound slotsRead Spared
  generalize parseInput (storeLine line sh.buffer) sh.argument = r at tokens ⊢
  obtain ⟨status, l⟩ := r
  obtain ⟨hstatus, hcommand, hcount⟩ := tokens.command name operands hwords
  dsimp only at hstatus hcommand hcount ⊢
  rw [← accepts_parsed, ← hcommand, ← hcount] at hrefused
  subst hstatus
  by_cases hdebug : l.command = "debug".toList
  · have hname : name = "debug".toList := (take_short (by decide)).mp (hcommand ▸ hdebug)
    subst hname
    rw [hdebug, dispatch_debug]
    simp only [reduceCtorEq, if_false, Handler.perform, Handler.slots, List.mem_singleton,
      forall_eq, hwords, List.cons.injEq, true_and, forall_eq']
    cases operands with
    | nil =>
      refine iff_of_false ?_ (by simp)
      rintro ⟨-, hfilled⟩
      simp [hcount] at hfilled
    | cons path operands =>
      have hslot : 0 < l.argCount := by
        simp only [maxProcesses, List.length_cons] at hcount
        omega
      obtain ⟨p, hp, hword⟩ := tokens.arguments 0 hslot
      dsimp only at hp hword
      rw [hwords] at hword
      obtain rfl : path = stringAt l.input p := by simpa using hword
      have hne : stringAt l.input p ≠ [] :=
        (line_words_uncut (c_string_front line []).1 _ (by simp [hwords])).1
      simp only [slotText, hp, hslot, and_true]
      rw [debug_unchanged hne]
      simp
  · have hskip := dispatch_refused hrefused hdebug
    rw [hskip]
    refine iff_of_true ⟨⟨rfl, rfl, rfl, rfl, rfl, rfl⟩, by simp⟩ ?_
    intro operands' heq
    cases hwords.symm.trans heq
    exact absurd (hcommand.trans rfl) hdebug

/-- An accepted line reads no slot that it has not filled. -/
theorem accepted_line_reads (h : ¬ Refused line) : ReadsFilled line sh := by
  have tokens := round_tokens line sh
  unfold ReadsFilled slotsRead
  cases hwords : lineWords (cString line) with
  | nil =>
    obtain ⟨hempty, -⟩ := tokens.blank hwords
    simp [hempty]
  | cons name operands =>
    obtain ⟨hstatus, hcommand, hcount⟩ := tokens.command name operands hwords
    have haccepts : Accepts name operands.length := by
      by_contra hrefused
      exact h ⟨name, operands, hwords, hrefused⟩
    rw [← accepts_parsed, ← hcommand, ← hcount] at haccepts
    simp only [hstatus, reduceCtorEq, if_false]
    split
    · rename_i handler hcall
      exact dispatch_accepted haccepts hcall
    · simp

theorem Unchanged.trans {s s' s'' : System} (h : Unchanged s s') (h' : Unchanged s' s'') :
    Unchanged s s'' :=
  ⟨h'.cpu.trans h.cpu, h'.ram.trans h.ram, h'.disk.trans h.disk, h'.pending.trans h.pending,
    h'.kernel.trans h.kernel, h'.vfs.trans h.vfs⟩

inductive RefusedRun (sh : Shell) : Shell → Prop where
  | start : RefusedRun sh sh
  | line {sh' : Shell} (run : RefusedRun sh sh') (host : Host) (u : Nat → Unspecified)
      (wild : Nat → List Char) (line : List Char) (refused : Refused line)
      (spared : Spared host line sh'.system.hw) :
      RefusedRun sh (consoleRound host u wild line sh').2

/-- From every state of the console: a refused line has no effect exactly when it is spared, the
other lines read the slots they fill, and whole runs of spared lines change nothing. -/
theorem refused_lines (sh : Shell) :
    (∀ host u wild line, Refused line →
      (NoEffect host u wild line sh ↔ Spared host line sh.system.hw)) ∧
    (∀ line, ¬ Refused line → ReadsFilled line sh) ∧
    ∀ sh', RefusedRun sh sh' → Unchanged sh.system sh'.system := by
  refine ⟨fun _ _ _ _ => refused_line_effect, fun _ => accepted_line_reads, ?_⟩
  intro sh' run
  induction run with
  | start => exact ⟨rfl, rfl, rfl, rfl, rfl, rfl⟩
  | line _ _ _ _ _ refused spared ih =>
    exact ih.trans ((refused_line_effect refused).mpr spared).1

def freshShell : Shell := ⟨boot zeroKeys, [], fun _ => none⟩

theorem refused_lines_ps :
    NoEffect (fun _ => none) (fun _ => zeros) (fun _ => []) "ps now\n".toList freshShell ∧
      ReadsFilled "run a\n".toList freshShell := by
  obtain ⟨refused, accepted, -⟩ := refused_lines freshShell
  have ps : Refused "ps now\n".toList := ⟨"ps".toList, ["now".toList], rfl, by decide⟩
  constructor
  · refine (refused _ _ _ _ ps).mpr ?_
    intro operands heq
    cases heq
  · refine accepted _ ?_
    rintro ⟨name, operands, hwords, hrefused⟩
    cases hwords
    exact hrefused (by decide)

/-- A debug line without arguments follows the pointer in a slot it has not filled. -/
theorem not_refused_lines :
    ¬ ∀ (host : Host) (u : Nat → Unspecified) (wild : Nat → List Char) (line : List Char)
      (sh : Shell), Refused line → NoEffect host u wild line sh := by
  intro harmless
  have debug : Refused "debug\n".toList := ⟨"debug".toList, [], rfl, by decide⟩
  have filled := (harmless (fun _ => none) (fun _ => zeros) (fun _ => []) _ freshShell debug).2
  exact absurd (filled 0 (by decide)) (by decide)

end Lucario.Proofs
