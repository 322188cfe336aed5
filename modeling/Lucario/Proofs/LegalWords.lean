import Lucario.Proofs.DebugRuns
import Lucario.Proofs.ProgramImage
import Lucario.Proofs.Provenance
import Lucario.Proofs.Sessions

namespace Lucario.Proofs

open Footprint

/-- The words of the architecture: non-negative, with an opcode field of at most 33. -/
def Legal (w : Int) : Prop := 0 ≤ w ∧ w ≤ 33999999

/-- A word that `writeMemory` refuses unless it is legal: none of the negative ones whose opcode
field truncates to zero. -/
def Honest (w : Int) : Prop := -1000000 < w → 0 ≤ w

instance (w : Int) : Decidable (Legal w) := inferInstanceAs (Decidable (_ ∧ _))

instance (w : Int) : Decidable (Honest w) := inferInstanceAs (Decidable (_ → _))

theorem honest_iff (w : Int) : Honest w ↔ (isValidInstruction w → Legal w) := by
  rw [valid_instruction_iff, Honest, Legal]
  constructor
  · intro h hv
    exact ⟨h hv.1, by omega⟩
  · intro h hl
    by_contra hneg
    exact hneg (h ⟨hl, by omega⟩).1

theorem Legal.honest {w : Int} (h : Legal w) : Honest w := fun _ => h.1

theorem legal_zero : Legal 0 := ⟨le_rfl, by norm_num⟩

theorem legal_int_to_word (v : Int) : Legal (intToWord v).1 := by
  have h := int_to_word_range v
  exact ⟨h.1, by omega⟩

/-- Neither the registers can put an illegal word into memory, nor could a program get to. -/
def Harmless (c : Cpu) : Prop := Holds Honest c ∨ c.psw.mode = .user ∧ c.rl < c.rb

/-- With the limit below the base, user mode reaches no address. -/
theorem Harmless.holds {c : Cpu} (h : Harmless c) {a : Int} (ha : Accessible c a) :
    Holds Honest c := by
  refine h.resolve_right ?_
  rintro ⟨hm, hempty⟩
  have := (accessible_user hm a).mp ha
  omega

structure Lawful (s : System) : Prop where
  ram : ∀ a, Legal (s.hw.ram a)
  disk : ∀ t c k, Legal (s.hw.disk t c k)
  cpu : Harmless s.hw.cpu
  contexts : ∀ i, 0 ≤ i → i < 20 → Harmless (s.kernel.processTable i).context

/-- The step loads no uninitialised operand that could be stored as an illegal word, and it saves
no PC that could. -/
def StepClean (u : Unspecified) (s : System) : Prop :=
  match fetched s.hw with
  | none => True
  | some (inst, m) =>
    let n := afterInstruction u inst m
    (inst.opCode = .load → (fetchOperand inst m).1 = none → Honest u.data) ∧
      (TakesInterrupt n → Accessible n.cpu (n.cpu.sp - 6) → Honest n.cpu.psw.pc)

instance (u : Unspecified) (s : System) : Decidable (StepClean u s) :=
  match h : fetched s.hw with
  | none => .isTrue (by simp [StepClean, h])
  | some (inst, m) =>
    decidable_of_iff
      ((inst.opCode = .load → (fetchOperand inst m).1 = none → Honest u.data) ∧
        (TakesInterrupt (afterInstruction u inst m) →
          Accessible (afterInstruction u inst m).cpu ((afterInstruction u inst m).cpu.sp - 6) →
          Honest (afterInstruction u inst m).cpu.psw.pc))
      (by simp [StepClean, h])

/-- The words a creation copies from its program file to the disk, if it does, are legal. -/
def LoadClean (host : Host) (u : Unspecified) (path : List Char) (s : System) : Prop :=
  match host path with
  | none => True
  | some file =>
    let (header, rest) := readHeader u file
    getFreePCBIndex s.kernel ≠ -1 → vfsFileExists path s.vfs = false →
      header.wordCount ≤ totalDiskSectors - usedSectors s.vfs →
      ∀ w ∈ delivered header.wordCount.toNat rest, Legal w

/-- The words of a debugged program up to the first one that is refused are legal, and its word
count makes no illegal register of a program that can run. -/
def DebugClean (host : Host) (argument : List Char) : Prop :=
  match host argument with
  | none => True
  | some file =>
    let (header, rest) := programInfo file
    argument ≠ [] → osReservedSize + minStackSize + header.wordCount ≤ ramSize →
      (∀ w ∈ (delivered header.wordCount.toNat rest).takeWhile (isValidInstruction ·), Legal w) ∧
        ¬ (-100 ≤ header.wordCount ∧ header.wordCount < 0)

def CleanEvent (c : Console) : ConsoleEvent → Prop
  | .kernel (.create host u progName) => c.debugging = false → LoadClean host u progName c.system
  | .kernel (.worker u) => c.system.kernel.currentActiveProcess ≠ -1 → StepClean u c.system
  | .debug host argument => c.debugging = false → DebugClean host argument
  | .step u => c.debugging = true → StepClean u c.system
  | _ => True

section

variable {s : System}

theorem legal_of_stored {c : Cpu} {a v x w : Int} (h : StoredAt c a v x w) (hv : Honest v) :
    Legal w := by
  obtain ⟨-, hvalid, -, rfl⟩ := h
  exact (honest_iff _).mp hv hvalid

/-- A frame consists of register words, the saved PC being the one that may not be honest. -/
theorem frame_stores_legal {c : Cpu} (h : Holds Honest c)
    (hpc : Accessible c (c.sp - 6) → Honest c.psw.pc) {x w : Int} (hs : FrameStores c x w) :
    Legal w := by
  have small : ∀ v : Int, 0 ≤ v → Honest v := fun v hv _ => hv
  rcases hs with ⟨i, hi, hs⟩ | ⟨k, v, -, hs⟩
  · refine legal_of_stored hs ?_
    interval_cases i
    · exact h.rx
    · exact h.rl
    · exact h.rb
    · exact small c.psw.mode.toWord (by cases c.psw.mode <;> decide)
    · exact small c.psw.conditionCode.toWord (by cases c.psw.conditionCode <;> decide)
    · refine hpc ?_
      have ha := hs.1
      rw [show c.sp - 1 - ((5 : Nat) : Int) = c.sp - 6 by omega] at ha
      exact ha
    · exact h.ac
  · exact legal_of_stored hs (legal_int_to_word v).honest

theorem after_instruction_ram (u : Unspecified) (inst : Instruction) (m : Machine) :
    (afterInstruction u inst m).ram = (handler u inst m).2.ram ∧
      (afterInstruction u inst m).disk = (handler u inst m).2.disk := by
  unfold afterInstruction countCycle
  dsimp only
  split_ifs <;> exact ⟨rfl, rfl⟩

theorem handler_disk_legal (u : Unspecified) (inst : Instruction) {m : Machine}
    (hram : ∀ a, Legal (m.ram a)) (hdisk : ∀ t c k, Legal (m.disk t c k)) (t c k : Nat) :
    Legal ((handler u inst m).2.disk t c k) := by
  by_cases hon : inst.opCode = .sdmaon
  · have moves := sdmaon_moves u m hon
    unfold Moves at moves
    split_ifs at moves
    · rw [moves.2]
      simp only [storeSector]
      split_ifs
      · exact hram _
      · exact hdisk t c k
    · rw [moves.2]
      exact hdisk t c k
    · rw [moves.2]
      exact hdisk t c k
  · rw [handler_disk u m hon]
    exact hdisk t c k

/-- A clean processor step keeps memory, the disk and the registers lawful. -/
theorem cpu_step_legal (u : Unspecified) (h : Lawful s) (hclean : StepClean u s) :
    (∀ a, Legal ((cpuStep u s).2.hw.ram a)) ∧
      (∀ t c k, Legal ((cpuStep u s).2.hw.disk t c k)) ∧ Harmless (cpuStep u s).2.hw.cpu := by
  unfold StepClean at hclean
  cases hf : fetched s.hw with
  | none =>
    rw [cpu_step_unfetched u hf]
    refine ⟨h.ram, h.disk, h.cpu.imp ?_ id⟩
    exact fun hc => ⟨hc.ac, hc.rx, hc.rb, hc.rl⟩
  | some x =>
    obtain ⟨inst, m⟩ := x
    rw [hf] at hclean
    obtain ⟨hload, hpc⟩ := hclean
    obtain ⟨w, -, ha, hm, -⟩ := fetched_machine hf
    have registers : Holds Honest m.cpu := by
      have hc := h.cpu.holds ha
      rw [hm]
      exact ⟨hc.ac, hc.rx, hc.rb, hc.rl⟩
    have hram : ∀ a, Legal (m.ram a) := by
      rw [hm]
      exact h.ram
    have hdisk : ∀ t c k, Legal (m.disk t c k) := by
      rw [hm]
      exact h.disk
    have executed : Holds Honest (afterInstruction u inst m).cpu := by
      have hc := handler_holds (fun a => (hram a).honest)
        (fun v => (legal_int_to_word v).honest) registers u inst hload
      obtain ⟨y, hy⟩ := count_cycle_cpu (handler u inst m).2
      rw [afterInstruction, hy]
      exact ⟨hc.ac, hc.rx, hc.rb, hc.rl⟩
    have stored : Changes (fun _ w => Legal w) s.hw.ram (cpuStep u s).2.hw.ram := by
      refine cpu_step_stores u s ?_
      intro inst' m' hf'
      obtain ⟨rfl, rfl⟩ := Prod.mk.inj (Option.some.inj (hf.symm.trans hf'))
      refine ⟨?_, fun htaken x w => frame_stores_legal executed (hpc htaken)⟩
      rintro x w (⟨a, hs⟩ | ⟨-, -, -, rfl⟩)
      · exact legal_of_stored hs registers.ac
      · exact hdisk _ _ _
    have legal : ∀ a, Legal ((cpuStep u s).2.hw.ram a) :=
      stored.keeps (P := fun _ w => Legal w) h.ram (fun _ _ hw => hw)
    refine ⟨legal, ?_⟩
    rw [cpu_step_fetched u hf] at legal ⊢
    refine ⟨?_, Or.inl ?_⟩
    · rw [(check_interrupts_device u _).2]
      dsimp only
      rw [(after_instruction_ram u inst m).2]
      exact handler_disk_legal u inst hram hdisk
    · exact check_interrupts_holds u (fun v => (legal_int_to_word v).honest)
        (fun a => (legal a).honest) executed

/-- A tick passes register files on. -/
theorem tick_lawful (hc : ValidCurrent s.kernel.currentActiveProcess) (h : Lawful s) :
    Lawful (schedulerTick s) := by
  have collected : ∀ i, 0 ≤ i → i < 20 → Harmless ((beforeScan s).processTable i).context := by
    intro i hl hu
    rw [before_scan_registers ⟨hl, hu⟩]
    by_cases hcur : s.kernel.currentActiveProcess = i
    · rw [registers_current hcur]
      exact h.cpu
    · rw [registers_waiting hcur]
      exact h.contexts i hl hu
  rcases tick_cases hc with ⟨n, hl, hu, -, -, ht⟩ | ⟨-, ht⟩
  · rw [ht]
    refine ⟨h.ram, h.disk, collected n hl hu, ?_⟩
    intro i hil hiu
    by_cases hin : i = n
    · subst hin
      simpa [Kernel.modifyProcess] using collected i hil hiu
    · simpa [Kernel.modifyProcess, hin] using collected i hil hiu
  · rw [ht]
    exact ⟨h.ram, h.disk, h.cpu, collected⟩

theorem cpu_step_contexts (u : Unspecified) (s : System) (i : Int) :
    ((cpuStep u s).2.kernel.processTable i).context = (s.kernel.processTable i).context := by
  have stepped := cpu_step_stepped u s
  generalize cpuStep u s = r at stepped ⊢
  cases stepped with
  | plain => rfl
  | yielded => rfl
  | blocked hw f hf =>
    obtain ⟨-, -, -, -, -, hcontext, -⟩ :=
      blocks_kept hf (s.kernel.processTable s.kernel.currentActiveProcess)
    by_cases hi : i = s.kernel.currentActiveProcess
    · subst hi
      simpa [Kernel.modifyProcess] using hcontext
    · simp [Kernel.modifyProcess, hi]

theorem cpu_step_lawful (u : Unspecified) (h : Lawful s) (hclean : StepClean u s) :
    Lawful (cpuStep u s).2 := by
  obtain ⟨hram, hdisk, hcpu⟩ := cpu_step_legal u h hclean
  refine ⟨hram, hdisk, hcpu, ?_⟩
  intro i hl hu
  rw [cpu_step_contexts]
  exact h.contexts i hl hu

/-- The bookkeeping of a termination looks at no word. -/
theorem terminated_lawful (h : Lawful s) : Lawful (markFinished (releaseMemory s)) := by
  refine ⟨h.ram, h.disk, h.cpu, ?_⟩
  intro i hl hu
  have hi := h.contexts i hl hu
  by_cases hcur : i = s.kernel.currentActiveProcess
  · subst hcur
    simpa [markFinished, releaseMemory, System.setState, System.modifyProcess,
      Kernel.modifyProcess] using hi
  · simpa [markFinished, releaseMemory, System.setState, System.modifyProcess,
      Kernel.modifyProcess, hcur] using hi

theorem worker_lawful (u : Unspecified) (hc : ValidCurrent s.kernel.currentActiveProcess)
    (h : Lawful s) (hclean : s.kernel.currentActiveProcess ≠ -1 → StepClean u s) :
    Lawful (workerIteration u s) := by
  rw [workerIteration, workerStep]
  split_ifs with hidle
  · have stepped := cpu_step_lawful u h (hclean hidle)
    have current := cpu_step_current u s
    generalize cpuStep u s = r at stepped current ⊢
    obtain ⟨status, t⟩ := r
    dsimp only at stepped current
    cases status with
    | false =>
      refine tick_lawful ?_ (terminated_lawful stepped)
      exact current.symm ▸ hc
    | true =>
      dsimp only
      split_ifs
      · refine tick_lawful ?_ ⟨stepped.ram, stepped.disk, stepped.cpu, stepped.contexts⟩
        exact current.symm ▸ hc
      · exact stepped
  · exact tick_lawful hc h

/-- Copying legal words to the disk. -/
theorem write_program_legal (count : Nat) (file : List Char) (s : System)
    (hdisk : ∀ t c k, Legal (s.hw.disk t c k)) (hwords : ∀ w ∈ delivered count file, Legal w)
    (t c k : Nat) : Legal ((writeProgram count file s).hw.disk t c k) := by
  induction count generalizing file s with
  | zero => exact hdisk t c k
  | succ count ih =>
    rw [writeProgram]
    refine ih _ _ ?_ (fun w hw => hwords w (List.mem_cons_of_mem _ hw))
    intro t c k
    have hword : Legal (readProgramWord file).1 := hwords _ (List.mem_cons_self ..)
    dsimp only
    rw [writeFree, writeSector]
    split_ifs
    · simp only [Option.getD_some, storeSector]
      split_ifs
      · exact hword
      · exact hdisk t c k
    · exact hdisk t c k

/-- Copying a program from a legal disk to memory. -/
theorem load_image_legal (rb : Int) (count : Nat) (i : Int) (c : SectorCursor) (m : Machine)
    (hram : ∀ a, Legal (m.ram a)) (hdisk : ∀ t c k, Legal (m.disk t c k)) (a : Int) :
    Legal ((loadImage rb count i c m).ram a) := by
  induction count generalizing i c m with
  | zero => exact hram a
  | succ count ih =>
    have hword : Legal ((readSector c.track c.cylinder c.sector m).getD 0) := by
      rw [readSector]
      split_ifs
      · exact hdisk _ _ _
      · exact legal_zero
    rw [loadImage, dmaWriteMemory]
    split_ifs
    · refine ih _ _ _ ?_ hdisk
      exact (Changes.update (A := fun _ w => Legal w) hword).keeps (P := fun _ w => Legal w) hram
        (fun _ _ hw => hw)
    · exact ih _ _ _ hram hdisk

theorem load_to_disk_legal {host : Host} {u : Unspecified} {path : List Char}
    (h : Lawful s) (hfree : getFreePCBIndex s.kernel ≠ -1) (hclean : LoadClean host u path s)
    (t c k : Nat) : Legal ((vfsLoadToDisk host u path s).2.hw.disk t c k) := by
  unfold LoadClean at hclean
  have cases := load_cases host u path s
  generalize vfsLoadToDisk host u path s = r at cases ⊢
  have written : ∀ {file}, ¬ vfsFileExists path s.vfs → host path = some file →
      (readHeader u file).1.wordCount ≤ totalDiskSectors - usedSectors s.vfs →
      Legal ((withWords u file s).hw.disk t c k) := by
    intro file hnew hfile hroom
    rw [hfile] at hclean
    dsimp only at hclean
    rw [withWords]
    have hwords := hclean hfree (by simpa using hnew) hroom
    exact write_program_legal _ _ s h.disk hwords t c k
  cases cases with
  | known => exact h.disk t c k
  | missing => exact h.disk t c k
  | large => exact h.disk t c k
  | unregistered hnew hfile hroom =>
    dsimp only
    exact written hnew hfile hroom
  | registered hnew hfile hroom =>
    dsimp only
    exact written hnew hfile hroom

/-- The context of a created process holds the bounds of its partition and its size. -/
theorem initial_context_harmless {entry : FileMeta} {start : Int} (hstart : 0 ≤ start)
    (hcount : 1 ≤ calculateRequiredBlocks entry.wordCount) :
    Harmless (initialContext entry (getBaseRegister start)
      (calculateRequiredBlocks entry.wordCount)) := by
  have hsize : 0 ≤ entry.wordCount := by
    by_contra hneg
    have hsmall : entry.wordCount + minStackSize ≤ minStackSize := by
      rw [minStackSize]
      omega
    simp only [calculateRequiredBlocks, if_pos (Or.inl hsmall)] at hcount
    omega
  have hblock : partitionSize = 85 := by decide
  left
  refine ⟨fun _ => le_rfl, fun _ => hsize, fun _ => ?_, fun _ => ?_⟩
  · simp only [initialContext, getBaseRegister, osReservedSize, hblock]
    omega
  · simp only [initialContext, getLimitRegister, getBaseRegister, osReservedSize, hblock]
    omega

theorem create_lawful {host : Host} {u : Unspecified} {progName : List Char} (h : Lawful s)
    (hclean : LoadClean host u progName s) : Lawful (createProcess host u progName s).2 := by
  by_cases hfull : getFreePCBIndex s.kernel = -1
  · simp only [createProcess, hfull, if_true]
    exact h
  have hdisk := load_to_disk_legal h hfull hclean
  obtain ⟨status, disk, vfs, hload⟩ := load_to_disk host u progName s
  have created := create_process_created host u progName s
  generalize createProcess host u progName s = r at created ⊢
  cases created with
  | full => exact h
  | refused =>
    rw [hload] at hdisk ⊢
    exact ⟨h.ram, hdisk, h.cpu, h.contexts⟩
  | made i entry start hi hslot hstatus hentry hstart hcount =>
    have image := load_image_legal (getBaseRegister start) entry.wordCount.toNat 0
      ⟨entry.startTrack, entry.startCylinder, entry.startSector⟩
      (vfsLoadToDisk host u progName s).2.hw (by rw [hload]; exact h.ram) hdisk
    obtain ⟨ram, hram⟩ := load_image_ram (getBaseRegister start) entry.wordCount.toNat 0
      ⟨entry.startTrack, entry.startCylinder, entry.startSector⟩
      (vfsLoadToDisk host u progName s).2.hw
    refine ⟨image, ?_, ?_, ?_⟩
    · rw [hram]
      exact hdisk
    · rw [hram, hload]
      exact h.cpu
    · intro j hl hu
      by_cases hji : j = i
      · subst hji
        simpa [createdPcb] using initial_context_harmless hstart hcount
      · simpa [hji] using h.contexts j hl hu

theorem zero_registers_harmless (mode : OpMode) :
    Harmless { Cpu.zero with psw.mode := mode } :=
  Or.inl ⟨fun _ => le_rfl, fun _ => le_rfl, fun _ => le_rfl, fun _ => le_rfl⟩

theorem init_os_lawful (h : Lawful s) : Lawful (initOS s) := by
  refine ⟨h.ram, h.disk, h.cpu, ?_⟩
  intro i hl hu
  simpa [initOS, forEachProcess, hl, hu] using h.contexts i hl hu

theorem restart_lawful (h : Lawful s) : Lawful (handleRestartCommand s) := by
  refine init_os_lawful ⟨?_, h.disk, zero_registers_harmless .user, h.contexts⟩
  exact fun _ => legal_zero

/-- The loader of the debugger stores the words of the file up to the first refused one. -/
theorem load_words_legal (count : Nat) (i : Int) (file : List Char) (m : Machine)
    (hram : ∀ a, Legal (m.ram a))
    (hwords : ∀ w ∈ (delivered count file).takeWhile (isValidInstruction ·), Legal w) (a : Int) :
    Legal ((loadWords count i file m).2.ram a) := by
  induction count generalizing i file m with
  | zero => exact hram a
  | succ count ih =>
    rw [loadWords]
    rw [delivered, List.takeWhile_cons] at hwords
    dsimp only
    generalize (readProgramWord file).1 = w at hwords ⊢
    generalize (readProgramWord file).2 = rest at hwords ⊢
    by_cases h : Accessible m.cpu (osReservedSize + i) ∧ isValidInstruction w
    · rw [if_pos (by simpa using h.2)] at hwords
      rw [write_accessible h.1 h.2]
      refine ih _ _ _ ?_ (fun v hv => hwords v (List.mem_cons_of_mem _ hv))
      have hword : Legal w := hwords w (List.mem_cons_self ..)
      exact (Changes.update (A := fun _ w => Legal w) hword).keeps (P := fun _ w => Legal w) hram
        (fun _ _ hw => hw)
    · obtain ⟨status, hs⟩ := write_refused h
      rw [hs]
      exact hram a

/-- With a word count that is no illegal word, or one so small that the partition is empty, the
registers of a debugged program are harmless. -/
theorem start_registers_harmless {header : Header} {c : Cpu} (hac : Honest c.ac)
    (hfits : osReservedSize + minStackSize + header.wordCount ≤ ramSize)
    (hcount : ¬ (-100 ≤ header.wordCount ∧ header.wordCount < 0)) :
    Harmless (startRegisters header c) := by
  simp only [osReservedSize, minStackSize, ramSize] at hfits
  by_cases hneg : header.wordCount < 0
  · right
    refine ⟨rfl, ?_⟩
    have hrb : (startRegisters header c).rb = 300 := rfl
    rw [start_limit, hrb]
    omega
  · left
    refine ⟨hac, fun _ => not_lt.mp hneg, fun _ => by norm_num [startRegisters], fun _ => ?_⟩
    rw [start_limit]
    omega

theorem load_program_legal {host : Host} {argument : List Char} {m : Machine}
    (hram : ∀ a, Legal (m.ram a)) (hcpu : m.cpu = Cpu.zero) (harg : argument ≠ [])
    (hclean : DebugClean host argument) :
    (∀ a, Legal ((loadProgram host argument m).2.ram a)) ∧
      Harmless (loadProgram host argument m).2.cpu := by
  unfold DebugClean at hclean
  unfold loadProgram
  cases hfile : host argument with
  | none => exact ⟨hram, hcpu ▸ zero_registers_harmless .user⟩
  | some file =>
    rw [hfile] at hclean
    dsimp only at hclean ⊢
    generalize programInfo file = r at hclean ⊢
    obtain ⟨header, rest⟩ := r
    dsimp only at hclean ⊢
    have kernel : Harmless { m.cpu with psw.mode := .kernel } :=
      hcpu ▸ zero_registers_harmless .kernel
    split_ifs with hbig
    · exact ⟨hram, kernel⟩
    · obtain ⟨hwords, hcount⟩ := hclean harg (by omega)
      have legal := load_words_legal header.wordCount.toNat 0 rest
        { m with cpu.psw.mode := .kernel } hram hwords
      obtain ⟨ram, hr⟩ := load_words_ram header.wordCount.toNat 0 rest
        { m with cpu.psw.mode := .kernel }
      generalize loadWords header.wordCount.toNat 0 rest { m with cpu.psw.mode := .kernel } = r
        at legal hr ⊢
      obtain ⟨status, n⟩ := r
      dsimp only at legal hr
      have hn : n.cpu = { m.cpu with psw.mode := .kernel } := by rw [hr]
      cases status with
      | success =>
        refine ⟨legal, start_registers_harmless ?_ (by omega) hcount⟩
        rw [hn, hcpu]
        exact legal_zero.honest
      | fileError => exact ⟨legal, hn ▸ kernel⟩
      | memoryError => exact ⟨legal, hn ▸ kernel⟩

theorem start_debugging_lawful {host : Host} {argument : List Char} (h : Lawful s)
    (hclean : DebugClean host argument) : Lawful (startDebugging host argument s).2 := by
  unfold startDebugging
  dsimp only
  split_ifs with harg
  · exact ⟨h.ram, h.disk, zero_registers_harmless .user, h.contexts⟩
  · obtain ⟨cpu, ram, hm⟩ := load_program_machine host argument (cpuReset s.hw)
    obtain ⟨hram, hcpu⟩ := load_program_legal (m := cpuReset s.hw) h.ram rfl harg hclean
    generalize loadProgram host argument (cpuReset s.hw) = r at hm hram hcpu ⊢
    obtain ⟨status, n⟩ := r
    dsimp only at hm hram hcpu
    have hdisk : n.disk = s.hw.disk := by
      rw [hm]
      rfl
    cases status <;> exact ⟨hram, hdisk ▸ h.disk, hcpu, h.contexts⟩

theorem console_next_lawful {c : Console} {e : ConsoleEvent}
    (hc : ValidCurrent c.system.kernel.currentActiveProcess) (h : Lawful c.system)
    (hclean : CleanEvent c e) : Lawful (consoleNext c e).system := by
  have step := console_next_step c e
  generalize consoleNext c e = d at step ⊢
  cases step with
  | ignored => exact h
  | closed => exact h
  | kernel e hd =>
    cases e with
    | worker u => exact worker_lawful u hc h hclean
    | create host u progName => exact create_lawful h (hclean (by simpa using hd))
    | monitor active => exact ⟨h.ram, h.disk, h.cpu, h.contexts⟩
    | restart => exact restart_lawful h
  | opened host argument hd => exact start_debugging_lawful h (hclean hd)
  | stepped u hd => exact cpu_step_lawful u h (hclean hd)

end

theorem power_on_lawful (keyboard : Nat → Int) : Lawful (powerOn keyboard) := by
  refine ⟨fun _ => legal_zero, fun _ _ _ => legal_zero, zero_registers_harmless .user, ?_⟩
  exact fun _ _ _ => zero_registers_harmless .user

/-- In a run none of whose events brings an illegal word in, every word ever stored is legal. -/
theorem stored_words_legal (keyboard : Nat → Int) (es : List ConsoleEvent) (i : Nat)
    (hi : i ≤ es.length)
    (hclean : ∀ k e, k < i → es[k]? = some e →
      CleanEvent (Trace.stateAt consoleNext (consoleBoot keyboard) es k) e) (a : Int) :
    Legal ((Trace.stateAt consoleNext (consoleBoot keyboard) es i).system.hw.ram a) := by
  have lawful : Lawful (Trace.stateAt consoleNext (consoleBoot keyboard) es i).system := by
    refine Trace.stateAt_window (fun c : Console => Lawful c.system) (Nat.zero_le i) hi ?_ ?_
    · exact init_os_lawful (power_on_lawful keyboard)
    · intro k e _ hk he h
      exact console_next_lawful (console_current keyboard es k) h (hclean k e hk he)
  exact lawful.ram a

def cleanRun : List ConsoleEvent :=
  [.kernel (.create (hostOf "_start 1\n.N 2\n.P A\n04100003\n06000000\n" "") zeros ['a']),
    .kernel (.worker zeros), .kernel (.worker zeros)]

theorem stored_words_legal_clean :
    Legal ((Trace.stateAt consoleNext (consoleBoot zeroKeys) cleanRun 3).system.hw.ram 300) := by
  apply stored_words_legal zeroKeys cleanRun 3 (by decide)
  intro k e hk he
  obtain rfl | rfl | rfl : k = 0 ∨ k = 1 ∨ k = 2 := by omega
  · obtain rfl := Option.some.inj he
    intro _
    have words : ∀ w ∈ delivered 2 "\n04100003\n06000000\n".toList, Legal w := by decide +kernel
    intro _ _ _
    exact words
  · obtain rfl := Option.some.inj he
    have idle : (Trace.stateAt consoleNext (consoleBoot zeroKeys)
        cleanRun 1).system.kernel.currentActiveProcess = -1 := by decide +kernel
    exact fun h => absurd idle h
  · obtain rfl := Option.some.inj he
    have clean : StepClean zeros (Trace.stateAt consoleNext (consoleBoot zeroKeys)
        cleanRun 2).system := by decide +kernel
    exact fun _ => clean

def illegalFile : List ConsoleEvent :=
  [.kernel (.create (hostOf "_start 1\n.N 1\n.P A\n99000000\n" "") zeros ['a'])]

theorem not_stored_words_legal :
    ¬ ∀ (keyboard : Nat → Int) (es : List ConsoleEvent) (i : Nat) (a : Int),
      Legal ((Trace.stateAt consoleNext (consoleBoot keyboard) es i).system.hw.ram a) := by
  intro h
  have illegal : ¬ Legal ((Trace.stateAt consoleNext (consoleBoot zeroKeys)
      illegalFile 1).system.hw.ram 300) := by decide +kernel
  exact illegal (h zeroKeys illegalFile 1 300)

end Lucario.Proofs
