import Lucario.Lib.BoundedLines
import Lucario.Lib.Simulation
import Lucario.Proofs.RefusedLines
import Lucario.Terminal

namespace Lucario.Proofs

open BoundedLines

/-- What the console is doing, without its buffers: a `run` has names left to load. -/
inductive Task where
  | prompt
  | loading (names : List (List Char))
  | debugger
  | monitor
  | closed
  deriving DecidableEq

structure Session where
  system : System
  task : Task
  stdin : Input
  output : List Char

def Session.print (text : List Char) (c : Session) : Session :=
  { c with output := c.output ++ text }

def Session.toPrompt (c : Session) : Session := { c with task := .prompt }.print promptText

def Session.toDebugger (c : Session) : Session :=
  { c with task := .debugger }.print debugPromptText

def obey (host : Host) (directory : Option (List Dirent)) (operands : List (List Char))
    (c : Session) : Handler → Session
  | .handleRunCommand _ => { c with task := .loading operands }.print loadingText
  | .handleDebugCommand =>
    let path := operands.headD []
    let (debugging, s) := startDebugging host path c.system
    let c := { c with system := s }.print (loadReport debugging path)
    if debugging then (c.print (debuggerText s.hw.cpu)).toDebugger else c.toPrompt
  | .handleRestartCommand =>
    ({ c with system := handleRestartCommand c.system }.print printReplInit).toPrompt
  | .startMonitorSession =>
    { c with
      system := { c.system with monitor := { c.system.monitor with active := true } }
      task := .monitor }.print (monitorText c.system.monitor)
  | .printProcessStatus => (c.print (printProcessStatus c.system.kernel)).toPrompt
  | .printMemoryStatus => (c.print (printMemoryStatus c.system.kernel.freePartitions)).toPrompt
  | .printDiskStatus => (c.print (printDiskStatus c.system.vfs)).toPrompt
  | .printFilesList => (c.print (printFilesList directory)).toPrompt
  | .printHelpList => (c.print printHelpList).toPrompt

/-- A line is a command name and its operands; an unknown name is shown cut. -/
def heed (host : Host) (directory : Option (List Dirent)) (words : List (List Char))
    (c : Session) : Session :=
  match words with
  | [] => c.toPrompt
  | name :: operands =>
    let c := c.print (dispatch (name.take 19) operands.length).1
    match (dispatch name operands.length).2 with
    | .skip => c.toPrompt
    | .leave => { c with task := .closed }
    | .call h => obey host directory operands c h

def steer (u : Unspecified) (words : List (List Char)) (c : Session) : Session :=
  if words = [] ∨ words = ["step".toList] then
    let (active, s) := cpuStep u c.system
    let c' := { c with system := s }.print (stepReport c.system.hw.cpu.psw.pc s.hw.cpu)
    if active then c'.toDebugger else (c'.print haltedText).toPrompt
  else if words = ["regs".toList] then (c.print (printFullRegisters c.system.hw.cpu)).toDebugger
  else if words = ["quit".toList] then (c.print "Exiting debugger...\n".toList).toPrompt
  else (c.print "Unknown debug command. Use: step, regs, quit.\n".toList).toDebugger

def loadName (host : Host) (u : Unspecified) (name : List Char) (names : List (List Char))
    (c : Session) : Session :=
  let (status, s) := createProcess host u name c.system
  let c := { c with system := s }.print (runReport status name)
  if names = [] then (c.print completedText).toPrompt
  else { c with task := .loading names }

def watch (key : Option Char) (c : Session) : Session :=
  if key = some '\x1b' then
    ({ c with
      system := { c.system with monitor := { c.system.monitor with active := false } } }.print
        monitorEndText).toPrompt
  else c

/-- The next line of what is typed, of which a line of more than 511 characters makes several. -/
def Session.nextLine (c : Session) : Option (List Char × Input) :=
  BoundedLines.nextLine '\n' 511 c.stdin

def sessionStep (host : Host) (u : Unspecified) (directory : Option (List Dirent)) (c : Session) :
    Session :=
  match c.task with
  | .prompt =>
    match c.nextLine with
    | none => c
    | some ([], stdin) => { c with stdin := stdin, task := .closed }
    | some (line, stdin) =>
      heed host directory (lineWords (cString line)) { c with stdin := stdin }
  | .loading (name :: names) => loadName host u name names c
  | .debugger =>
    match c.nextLine with
    | none => c
    | some ([], stdin) => { c with stdin := stdin }.toPrompt
    | some (line, stdin) => steer u (lineWords (cString line)) { c with stdin := stdin }
  | .monitor =>
    match c.stdin with
    | [] => c
    | key :: stdin => watch key { c with stdin := stdin }
  | _ => c

def sessionNext (c : Session) : TerminalEvent → Session
  | .worker u => { c with system := workerIteration u c.system }
  | .typed input => { c with stdin := c.stdin ++ input }
  | .console host u _ directory => sessionStep host u directory c

def sessionBoot (keyboard : Nat → Int) : Session :=
  ⟨boot keyboard, .prompt, [], printReplInit ++ promptText⟩

def BareDebug (c : Session) : TerminalEvent → Prop
  | .console _ _ _ _ => c.task = .prompt ∧
    c.nextLine.map (fun r => lineWords (cString r.1)) = some ["debug".toList]
  | _ => False

instance (c : Session) : (e : TerminalEvent) → Decidable (BareDebug c e)
  | .worker _ => isFalse id
  | .typed _ => isFalse id
  | .console _ _ _ _ => inferInstanceAs (Decidable (_ ∧ _))

/-- The slots of `handleRunCommand` that are still to be read spell the names. -/
inductive Matches (buffer : List Char) (argument : Nat → Option Nat) : Desk → Task → Prop where
  | prompt : Matches buffer argument .prompt .prompt
  | loading (next argCount : Nat) (names : List (List Char)) (hne : names ≠ [])
      (hcount : next + names.length = argCount)
      (hslots : ∀ j (h : j < names.length), ∃ p, argument (next + j) = some p ∧
        stringAt buffer p = names[j]) :
      Matches buffer argument (.loading next argCount) (.loading names)
  | debugger : Matches buffer argument .debugger .debugger
  | monitor : Matches buffer argument .monitor .monitor
  | closed : Matches buffer argument .closed .closed

structure InStep (t : Terminal) (c : Session) : Prop where
  system : t.shell.system = c.system
  stdin : t.stdin = c.stdin
  output : t.output = c.output

structure Shows (t : Terminal) (c : Session) : Prop extends InStep t c where
  task : Matches t.shell.buffer t.shell.argument t.desk c.task

section

variable {name : List Char} {count : Nat} {t : Terminal} {c : Session}

/-- More than forty arguments are refused as forty are. -/
theorem dispatch_count (name : List Char) (count : Nat) :
    dispatch name (min count (2 * maxProcesses)) = dispatch name count := by
  by_cases h : count ≤ 2 * maxProcesses
  · rw [Nat.min_eq_left h]
  · have hmin : min count (2 * maxProcesses) = 40 := by
      simp only [maxProcesses] at h ⊢
      omega
    simp only [maxProcesses] at h
    have hone : 1 < count := by omega
    have hzero : 0 < count := by omega
    have hnot : count ≠ 0 := by omega
    have hmany : maxProcesses < count := by
      simp only [maxProcesses]
      omega
    rw [hmin]
    unfold dispatch withoutArguments
    simp only [hone, hzero, hnot, hmany, if_true, if_false]
    rfl

/-- A name of nineteen characters or more is no command. -/
theorem dispatch_long (h : 19 ≤ name.length) (count : Nat) : (dispatch name count).2 = .skip := by
  have other : ∀ {command : List Char}, command.length < 19 → name ≠ command := by
    rintro command hlen rfl
    omega
  unfold dispatch
  rw [if_neg (other (by decide)), if_neg (other (by decide)), if_neg (other (by decide)),
    if_neg (other (by decide)), if_neg (other (by decide)), if_neg (other (by decide)),
    if_neg (other (by decide)), if_neg (other (by decide)), if_neg (other (by decide)),
    if_neg (other (by decide))]

/-- What is cut off a name decides nothing. -/
theorem dispatch_name (name : List Char) (count : Nat) :
    (dispatch (name.take 19) count).2 = (dispatch name count).2 := by
  by_cases h : name.length ≤ 19
  · rw [List.take_of_length_le h]
  · have hcut : 19 ≤ (name.take 19).length := by
      rw [List.length_take]
      omega
    rw [dispatch_long hcut, dispatch_long (by omega)]

/-- A `run` gets through with one to twenty names. -/
theorem dispatch_run {argCount : Nat}
    (h : (dispatch name count).2 = .call (.handleRunCommand argCount)) :
    argCount = count ∧ 0 < count ∧ count ≤ 20 := by
  by_cases hrun : name = "run".toList
  · rw [dispatch, if_pos hrun] at h
    split_ifs at h with hmany hnone
    simp only [maxProcesses, Dispatch.call.injEq, Handler.handleRunCommand.injEq] at hmany h
    omega
  · by_cases hdebug : name = "debug".toList
    · rw [dispatch, if_neg hrun, if_pos hdebug] at h
      cases h
    · exact (dispatch_other hrun hdebug h).elim

theorem dispatch_debugger (h : (dispatch name count).2 = .call .handleDebugCommand) :
    name = "debug".toList := by
  by_cases hrun : name = "run".toList
  · rw [dispatch, if_pos hrun] at h
    split_ifs at h
    cases h
  · by_contra hdebug
    exact dispatch_other hrun hdebug h

/-- The loop of the debugger reads the words of its line. -/
theorem debug_command_words (line : List Char) :
    debugCommand line = [' '].intercalate (lineWords (cString line)) := by
  obtain ⟨hfree, rest, hrest⟩ := c_string_front line []
  obtain ⟨tail, htrim⟩ := trimmed_line hfree rest
  unfold debugCommand
  have hbuffer : storeLine line [] = cString line ++ '\x00' :: rest := by
    rw [storeLine, ← hrest]
    simp
  dsimp only
  rw [hbuffer, htrim]
  have hstring : HasString ([' '].intercalate (lineWords (cString line)) ++ '\x00' :: tail) 0
      ([' '].intercalate (lineWords (cString line))) := ⟨tail, rfl⟩
  exact hstring.string_at (words_free (line_words_uncut hfree))

theorem InStep.print (h : InStep t c) (text : List Char) : InStep (t.print text) (c.print text) :=
  ⟨h.system, h.stdin, congrArg (· ++ text) h.output⟩

theorem InStep.put (h : InStep t c) (s : System) :
    InStep (t.setSystem s) { c with system := s } := ⟨rfl, h.stdin, h.output⟩

theorem InStep.moved (h : InStep t c) (desk : Desk) (task : Task) :
    InStep { t with desk := desk } { c with task := task } := ⟨h.system, h.stdin, h.output⟩

theorem InStep.toPrompt (h : InStep t c) : Shows t.toPrompt c.toPrompt :=
  ⟨(h.moved .prompt .prompt).print promptText, .prompt⟩

theorem InStep.toDebugger (h : InStep t c) : Shows t.toDebugger c.toDebugger :=
  ⟨(h.moved .debugger .debugger).print debugPromptText, .debugger⟩

theorem start_shows {host : Host} {text : Nat → List Char} {directory : Option (List Dirent)}
    {operands : List (List Char)} {handler : Handler} (h : InStep t c)
    (hcall : (dispatch name operands.length).2 = .call handler)
    (hbare : name = "debug".toList → operands ≠ [])
    (hslots : ∀ j (h : j < operands.length), j < 20 → text j = operands[j] ∧
      ∃ p, t.shell.argument j = some p ∧ stringAt t.shell.buffer p = operands[j]) :
    Shows (handler.start host text directory t) (obey host directory operands c handler) := by
  unfold Handler.start obey
  cases handler with
  | handleRunCommand argCount =>
    obtain ⟨rfl, hpos, hmax⟩ := dispatch_run hcall
    refine ⟨(h.moved _ _).print loadingText, ?_⟩
    refine .loading 0 _ operands (List.ne_nil_of_length_pos hpos) (Nat.zero_add _) ?_
    intro j hj
    rw [Nat.zero_add]
    exact (hslots j hj (by omega)).2
  | handleDebugCommand =>
    obtain ⟨path, rest, rfl⟩ := List.exists_cons_of_ne_nil (hbare (dispatch_debugger hcall))
    have hpath : text 0 = path := (hslots 0 (by simp) (by decide)).1
    dsimp only [List.headD_cons]
    rw [h.system, hpath]
    generalize startDebugging host path c.system = r
    obtain ⟨debugging, s⟩ := r
    have loaded := (h.put s).print (loadReport debugging path)
    cases debugging
    · exact loaded.toPrompt
    · exact (loaded.print _).toDebugger
  | handleRestartCommand =>
    dsimp only
    rw [h.system]
    exact ((h.put _).print _).toPrompt
  | startMonitorSession =>
    dsimp only
    rw [h.system]
    exact ⟨((h.put _).moved .monitor .monitor).print _, .monitor⟩
  | printProcessStatus | printMemoryStatus | printDiskStatus =>
    dsimp only
    rw [h.system]
    exact (h.print _).toPrompt
  | printFilesList | printHelpList => exact (h.print _).toPrompt

/-- A line at the prompt. -/
theorem prompt_line_shows (host : Host) (wild : Nat → List Char)
    (directory : Option (List Dirent)) {line : List Char} (h : InStep t c)
    (hbare : lineWords (cString line) ≠ ["debug".toList]) :
    Shows (promptLine host wild directory line t)
      (heed host directory (lineWords (cString line)) c) := by
  have tokens := round_tokens line t.shell
  unfold promptLine
  generalize parseInput (storeLine line t.shell.buffer) t.shell.argument = r at tokens ⊢
  obtain ⟨status, l⟩ := r
  have parsed : InStep
      { t with shell := { t.shell with buffer := l.input, argument := l.args } } c :=
    ⟨h.system, h.stdin, h.output⟩
  cases hwords : lineWords (cString line) with
  | nil =>
    obtain ⟨hempty, -⟩ := tokens.blank hwords
    dsimp only at hempty ⊢
    rw [if_pos hempty]
    exact parsed.toPrompt
  | cons name operands =>
    obtain ⟨hstatus, hcommand, hcount⟩ := tokens.command name operands hwords
    dsimp only at hstatus hcommand hcount ⊢
    rw [hcommand, hcount, dispatch_count, if_neg (by rw [hstatus]; decide), dispatch_name]
    unfold heed
    dsimp only
    have told := parsed.print (dispatch (name.take 19) operands.length).1
    cases hcall : (dispatch name operands.length).2 with
    | skip => exact told.toPrompt
    | leave => exact ⟨told.moved _ _, .closed⟩
    | call handler =>
      refine start_shows told hcall ?_ ?_
      · rintro rfl rfl
        exact hbare hwords
      · intro j hj hmax
        obtain ⟨p, hp, hword⟩ := tokens.arguments j (by
          rw [hcount]
          simp only [maxProcesses]
          omega)
        dsimp only at hp hword
        rw [hwords, List.getElem?_cons_succ, List.getElem?_eq_getElem hj] at hword
        have hspells := (Option.some.inj hword).symm
        refine ⟨?_, p, hp, hspells⟩
        rw [slotText, hp]
        exact hspells

theorem line_words_read (line : List Char) :
    Words.words isspace (debugCommand line) = lineWords (cString line) := by
  rw [debug_command_words]
  refine Words.words_spaced (by decide) ?_
  intro w hw
  obtain ⟨hne, hfree⟩ := word_characters
    (fun hmem => (c_string_front line []).1 (List.takeWhile_subset _ hmem)) hw
  exact ⟨hne, fun c hc => (hfree c hc).2⟩

/-- A single word is read as itself. -/
theorem debug_command_word (line : List Char) {word : List Char}
    (hword : Words.words isspace word = [word]) :
    debugCommand line = word ↔ lineWords (cString line) = [word] := by
  constructor
  · rintro rfl
    rw [← line_words_read, hword]
  · intro h
    rw [debug_command_words, h, List.intercalate_singleton]

theorem debug_command_empty (line : List Char) :
    debugCommand line = [] ↔ lineWords (cString line) = [] := by
  constructor
  · intro h
    rw [← line_words_read, h, Words.words_nil]
  · intro h
    rw [debug_command_words, h, List.intercalate_nil]

/-- A line in the debugger. -/
theorem debug_line_shows (u : Unspecified) (line : List Char) (h : InStep t c) :
    Shows (debugLine u (debugCommand line) t) (steer u (lineWords (cString line)) c) := by
  have hstep := @debug_command_word line "step".toList rfl
  have hregs := @debug_command_word line "regs".toList rfl
  have hquit := @debug_command_word line "quit".toList rfl
  unfold debugLine steer
  simp only [debug_command_empty, hstep, hregs, hquit, h.system]
  have stepped := fun s => (h.put s).print (stepReport c.system.hw.cpu.psw.pc s.hw.cpu)
  split_ifs
  · exact (stepped _).toDebugger
  · exact ((stepped _).print _).toPrompt
  · exact (h.print _).toDebugger
  · exact (h.print _).toPrompt
  · exact (h.print _).toDebugger

/-- The next argument of a `run`. -/
theorem load_next_shows (host : Host) (u : Unspecified) (wild : Nat → List Char)
    {next argCount : Nat} {name : List Char} {names : List (List Char)} (h : Shows t c)
    (hdesk : t.desk = .loading next argCount) (htask : c.task = .loading (name :: names)) :
    Shows (loadNext host u wild next argCount t) (loadName host u name names c) := by
  have task := h.task
  rw [hdesk, htask] at task
  cases task with
  | loading _ _ _ hne hcount hslots =>
    obtain ⟨p, hp, hspells⟩ := hslots 0 (by simp)
    have hname : slotText wild t.shell.buffer t.shell.argument next = name := by
      rw [Nat.add_zero] at hp
      rw [slotText, hp]
      exact hspells
    unfold loadNext loadName
    rw [hname, h.system]
    dsimp only
    generalize createProcess host u name c.system = r
    obtain ⟨status, s⟩ := r
    have loaded := (h.put s).print (runReport status name)
    rw [List.length_cons] at hcount
    by_cases hlast : names = []
    · have hover : ¬ next + 1 < argCount := by
        rw [hlast, List.length_nil] at hcount
        omega
      rw [if_neg hover, if_pos hlast]
      exact (loaded.print _).toPrompt
    · have hleft := List.length_pos_of_ne_nil hlast
      rw [if_pos (by omega), if_neg hlast]
      refine ⟨loaded.moved _ _, .loading _ _ _ hlast (by omega) ?_⟩
      intro j hj
      obtain ⟨p, hp, hspells⟩ := hslots (j + 1) (by simpa using hj)
      exact ⟨p, by rwa [Nat.add_comm j 1, ← Nat.add_assoc] at hp, hspells⟩

/-- A key in the monitor. -/
theorem monitor_key_shows (key : Option Char) (h : Shows t c) :
    Shows (monitorKey key t) (watch key c) := by
  unfold monitorKey watch
  rw [h.system]
  split_ifs
  · exact ((h.toInStep.put _).print _).toPrompt
  · exact h

theorem fgets_next_line (room : Nat) (stdin : Input) :
    fgetsStdin room stdin = nextLine '\n' room stdin := by
  induction room generalizing stdin with
  | zero => rw [fgetsStdin, next_line_full]
  | succ room ih =>
    match stdin with
    | [] => rfl
    | none :: stdin => simp [fgetsStdin, nextLine]
    | some c :: stdin =>
      by_cases hc : c = '\n'
      · simp [fgetsStdin, nextLine, hc]
      · rw [fgetsStdin, if_neg hc, ih, next_line_cons '\n' hc]
        cases nextLine '\n' room stdin <;> rfl

/-- The next step of the console thread. -/
theorem terminal_step_shows (host : Host) (u : Unspecified) (wild : Nat → List Char)
    (directory : Option (List Dirent)) (h : Shows t c)
    (hbare : ¬ BareDebug c (.console host u wild directory)) :
    Shows (terminalStep host u wild directory t) (sessionStep host u directory c) := by
  have task := h.task
  have reads : fgetsStdin (consoleBufferSize - 1) t.stdin = c.nextLine := by
    rw [fgets_next_line, h.stdin]
    rfl
  unfold terminalStep sessionStep
  rw [reads, h.stdin]
  generalize hdesk : t.desk = desk at task
  generalize htask : c.task = tk at task
  cases task with
  | prompt =>
    rcases hline : c.nextLine with _ | ⟨_ | ⟨k, line⟩, stdin⟩
    · exact h
    · exact ⟨⟨h.system, rfl, h.output⟩, .closed⟩
    · refine prompt_line_shows host wild directory ⟨h.system, rfl, h.output⟩ ?_
      intro hwords
      refine hbare ⟨htask, ?_⟩
      rw [hline, Option.map_some, hwords]
  | loading next argCount names hne =>
    obtain ⟨name, names, rfl⟩ := List.exists_cons_of_ne_nil hne
    exact load_next_shows host u wild h hdesk htask
  | debugger =>
    rcases c.nextLine with _ | ⟨_ | ⟨k, line⟩, stdin⟩
    · exact h
    · exact InStep.toPrompt ⟨h.system, rfl, h.output⟩
    · exact debug_line_shows u _ ⟨h.system, rfl, h.output⟩
  | monitor =>
    cases hstdin : c.stdin with
    | nil => exact h
    | cons key stdin =>
      exact monitor_key_shows key ⟨⟨h.system, rfl, h.output⟩, .monitor⟩
  | closed => exact h

/-- Every step of either thread, and all that is typed. -/
theorem terminal_next_shows (h : Shows t c) {e : TerminalEvent} (he : ¬ BareDebug c e) :
    Shows (terminalNext t e) (sessionNext c e) := by
  cases e with
  | worker u => exact ⟨⟨congrArg (workerIteration u) h.system, h.stdin, h.output⟩, h.task⟩
  | typed input => exact ⟨⟨h.system, congrArg (· ++ input) h.stdin, h.output⟩, h.task⟩
  | console host u wild directory => exact terminal_step_shows host u wild directory h he

end

def deskOf : Prompt → Desk
  | .console => .prompt
  | .debugger => .debugger
  | .monitor => .monitor
  | .closed => .closed

def loads (host : Host) (u : Nat → Unspecified) (wild : Nat → List Char)
    (directory : Option (List Dirent)) (count : Nat) : List TerminalEvent :=
  (List.range count).map (fun i => .console host (u i) wild directory)

section

variable (host : Host) (u : Nat → Unspecified) (wild : Nat → List Char)
  (directory : Option (List Dirent)) (sh : Shell) (output : List Char)

theorem loading_steps {argCount k : Nat} (stdin : Input) (hpos : 0 < argCount)
    (hk : k ≤ argCount) :
    ∃ output', Trace.run terminalNext ⟨sh, .loading 0 argCount, stdin, output⟩
        (loads host u wild directory k) =
      ⟨⟨(List.range k).foldl (fun s i =>
          (createProcess host (u i) (slotText wild sh.buffer sh.argument i) s).2) sh.system,
        sh.buffer, sh.argument⟩,
        if k < argCount then .loading k argCount else .prompt, stdin, output'⟩ := by
  induction k with
  | zero =>
    refine ⟨output, ?_⟩
    rw [if_pos hpos]
    rfl
  | succ k ih =>
    obtain ⟨output', hrun⟩ := ih (by omega)
    rw [if_pos (by omega)] at hrun
    have last : Trace.run terminalNext ⟨sh, .loading 0 argCount, stdin, output⟩
        (loads host u wild directory (k + 1)) =
          terminalNext (Trace.run terminalNext ⟨sh, .loading 0 argCount, stdin, output⟩
            (loads host u wild directory k)) (.console host (u k) wild directory) := by
      simp [Trace.run, loads, List.range_succ]
    rw [last, hrun, List.range_succ, List.foldl_append]
    simp only [terminalNext, terminalStep, loadNext, List.foldl_cons, List.foldl_nil]
    by_cases hmore : k + 1 < argCount
    · rw [if_pos hmore, if_pos hmore]
      exact ⟨_, rfl⟩
    · rw [if_neg hmore, if_neg hmore]
      exact ⟨_, rfl⟩

/-- A round of `consoleStart` is one whose loads the worker thread does not interrupt. -/
theorem console_round_steps (v : Unspecified) {line : List Char} {stdin rest : Input}
    (hread : fgetsStdin (consoleBufferSize - 1) stdin = some (line, rest)) (hline : line ≠ []) :
    ∃ count output', Trace.run terminalNext ⟨sh, .prompt, stdin, output⟩
        (.console host v wild directory :: loads host u wild directory count) =
      ⟨(consoleRound host u wild line sh).2, deskOf (consoleRound host u wild line sh).1, rest,
        output'⟩ := by
  obtain ⟨k, line, rfl⟩ := List.exists_cons_of_ne_nil hline
  have first : terminalNext ⟨sh, .prompt, stdin, output⟩ (.console host v wild directory) =
      promptLine host wild directory (k :: line) ⟨sh, .prompt, rest, output⟩ := by
    simp only [terminalNext, terminalStep, hread]
  simp only [Trace.run, List.foldl_cons, first]
  change ∃ count output', Trace.run terminalNext (promptLine host wild directory (k :: line)
    ⟨sh, .prompt, rest, output⟩) (loads host u wild directory count) = _
  unfold promptLine consoleRound
  generalize parseInput (storeLine (k :: line) sh.buffer) sh.argument = r
  obtain ⟨status, l⟩ := r
  dsimp only
  by_cases hempty : status = .empty
  · rw [if_pos hempty, if_pos hempty]
    exact ⟨0, _, rfl⟩
  · rw [if_neg hempty, if_neg hempty]
    cases hcall : (dispatch l.command l.argCount).2 with
    | skip => exact ⟨0, _, rfl⟩
    | leave => exact ⟨0, _, rfl⟩
    | call handler =>
      cases handler with
      | handleRunCommand argCount =>
        obtain ⟨rfl, hpos, -⟩ := dispatch_run hcall
        obtain ⟨output', hrun⟩ := loading_steps host u wild directory ⟨sh.system, l.input, l.args⟩
          (output ++ (dispatch l.command l.argCount).1 ++ loadingText) rest hpos (Nat.le_refl _)
        rw [if_neg (Nat.lt_irrefl _)] at hrun
        exact ⟨_, output', hrun⟩
      | handleDebugCommand =>
        dsimp only [Handler.start, Handler.perform, Terminal.print]
        generalize startDebugging host _ sh.system = r
        obtain ⟨debugging, s⟩ := r
        cases debugging
        · exact ⟨0, _, rfl⟩
        · exact ⟨0, _, rfl⟩
      | _ => exact ⟨0, _, rfl⟩

end

def Task.debugging : Task → Bool
  | .debugger => true
  | _ => false

def Session.console (c : Session) : Console := ⟨c.system, c.task.debugging⟩

def meantCommand (host : Host) : List (List Char) → List ConsoleEvent
  | [] => []
  | name :: operands =>
    match (dispatch name operands.length).2 with
    | .call .handleDebugCommand => [.debug host (operands.headD [])]
    | .call .handleRestartCommand => [.kernel .restart]
    | .call .startMonitorSession => [.kernel (.monitor true)]
    | _ => []

def meantStep (u : Unspecified) (words : List (List Char)) : List ConsoleEvent :=
  if words = [] ∨ words = ["step".toList] then [.step u]
  else if words = ["quit".toList] then [.quit]
  else []

/-- The events that what is typed comes to. -/
def meant (c : Session) : TerminalEvent → List ConsoleEvent
  | .worker u => [.kernel (.worker u)]
  | .typed _ => []
  | .console host u _ _ =>
    match c.task with
    | .prompt =>
      match c.nextLine with
      | some (line, _) => meantCommand host (lineWords (cString line))
      | none => []
    | .loading (name :: _) => [.kernel (.create host u name)]
    | .debugger =>
      match c.nextLine with
      | none => []
      | some ([], _) => [.quit]
      | some (line, _) => meantStep u (lineWords (cString line))
    | .monitor =>
      match c.stdin with
      | key :: _ => if key = some '\x1b' then [.kernel (.monitor false)] else []
      | [] => []
    | _ => []

def meantBy : Session → List TerminalEvent → List ConsoleEvent
  | _, [] => []
  | c, e :: es => meant c e ++ meantBy (sessionNext c e) es

theorem heed_console (host : Host) (directory : Option (List Dirent)) (words : List (List Char))
    (c : Session) (h : c.task = .prompt) :
    Trace.run consoleNext c.console (meantCommand host words) =
      (heed host directory words c).console := by
  obtain ⟨s, task, stdin, output⟩ := c
  subst h
  unfold meantCommand heed
  cases words with
  | nil => rfl
  | cons name operands =>
    dsimp only
    cases (dispatch name operands.length).2 with
    | skip | leave => rfl
    | call handler =>
      cases handler with
      | handleDebugCommand =>
        -- the debugger is entered exactly when the program has been loaded
        dsimp only [obey, Session.print]
        generalize hr : startDebugging host (operands.headD []) s = r
        obtain ⟨debugging, s'⟩ := r
        have opened : consoleNext ⟨s, false⟩ (.debug host (operands.headD [])) =
            ⟨s', debugging⟩ := by
          simp only [consoleNext, Bool.false_eq_true, if_false, hr]
        refine opened.trans ?_
        cases debugging <;> rfl
      | _ => rfl

theorem steer_console (u : Unspecified) (words : List (List Char)) (c : Session)
    (h : c.task = .debugger) :
    Trace.run consoleNext c.console (meantStep u words) = (steer u words c).console := by
  obtain ⟨s, task, stdin, output⟩ := c
  subst h
  unfold meantStep steer
  by_cases hstep : words = [] ∨ words = ["step".toList]
  · rw [if_pos hstep, if_pos hstep]
    dsimp only
    generalize hr : cpuStep u s = r
    obtain ⟨active, s'⟩ := r
    have stepped : consoleNext ⟨s, true⟩ (.step u) = ⟨s', active⟩ := by
      simp only [consoleNext, if_true, hr]
    refine stepped.trans ?_
    cases active <;> rfl
  · rw [if_neg hstep, if_neg hstep]
    split_ifs with hregs hquit hquit
    · rw [hregs] at hquit
      exact absurd hquit (by decide)
    · rfl
    · rfl
    · rfl

/-- What is typed does to the machine what it comes to. -/
theorem session_next_console (c : Session) (e : TerminalEvent) :
    Trace.run consoleNext c.console (meant c e) = (sessionNext c e).console := by
  cases e with
  | worker u =>
    obtain ⟨s, task, stdin, output⟩ := c
    cases task <;> rfl
  | typed input => rfl
  | console host u wild directory =>
    unfold sessionNext sessionStep meant
    cases htask : c.task with
    | prompt =>
      dsimp only
      rcases c.nextLine with _ | ⟨_ | ⟨k, line⟩, stdin⟩
      · rfl
      · unfold Session.console
        rw [htask]
        rfl
      · exact heed_console host directory _ { c with stdin := stdin } htask
    | loading names =>
      cases names with
      | nil => rfl
      | cons name names =>
        unfold loadName Session.console
        rw [htask]
        dsimp only
        split_ifs <;> rfl
    | debugger =>
      dsimp only
      rcases c.nextLine with _ | ⟨_ | ⟨k, line⟩, stdin⟩
      · rfl
      · rfl
      · exact steer_console u _ { c with stdin := stdin } htask
    | monitor =>
      dsimp only
      unfold watch Session.console
      rw [htask]
      cases c.stdin with
      | nil => rw [htask]; rfl
      | cons key stdin =>
        dsimp only
        split_ifs
        · rfl
        · rfl
    | closed => rfl

theorem run_meant (c : Session) (es : List TerminalEvent) :
    Trace.run consoleNext c.console (meantBy c es) = (Trace.run sessionNext c es).console := by
  induction es generalizing c with
  | nil => rfl
  | cons e es ih =>
    calc Trace.run consoleNext c.console (meantBy c (e :: es))
        = Trace.run consoleNext (Trace.run consoleNext c.console (meant c e))
            (meantBy (sessionNext c e) es) := List.foldl_append
      _ = Trace.run consoleNext (sessionNext c e).console (meantBy (sessionNext c e) es) := by
          rw [session_next_console]
      _ = (Trace.run sessionNext c (e :: es)).console := ih (sessionNext c e)

def twoPrograms : Host :=
  hostOf "_start 1\n.N 1\n.P A\n06000000\n" "_start 1\n.N 1\n.P B\n06000000\n"

def typedRun : List TerminalEvent :=
  [.typed ("  run  a".toList.map some), .console twoPrograms zeros (fun _ => []) none,
    .typed ("\tb \nps\n".toList.map some), .console twoPrograms zeros (fun _ => []) none,
    .console twoPrograms zeros (fun _ => []) none, .worker zeros,
    .console twoPrograms zeros (fun _ => []) none, .console twoPrograms zeros (fun _ => []) none]

end Lucario.Proofs
