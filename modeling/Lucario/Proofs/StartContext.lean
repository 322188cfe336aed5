import Lucario.Proofs.DebugFrame
import Lucario.Proofs.ProgramImage

namespace Lucario.Proofs

open Footprint

/-- The registers a program of `wordCount` words starts with fit the memory it was loaded into:
the stack lies between the program and the limit, is large enough and was not written to. -/
structure WellFormedStart (wordCount : Int) (old : Int → Int) (cpu : Cpu) (ram : Int → Int) :
    Prop where
  reserved : osReservedSize ≤ cpu.rb
  ordered : cpu.rb ≤ cpu.rl
  limit : cpu.rl < ramSize
  boundary : cpu.rx = wordCount ∧ 1 ≤ wordCount
  above : cpu.rx ≤ cpu.sp
  last : cpu.rb + cpu.sp = cpu.rl
  readable : cpu.psw.mode = .user ∧ Accessible cpu cpu.sp
  room : minStackSize ≤ cpu.sp - cpu.rx + 1
  stack : ∀ a, cpu.rx ≤ a → a ≤ cpu.sp → ram (cpu.rb + a) = old (cpu.rb + a)
  apart : ∀ a i, cpu.rx ≤ a → i < wordCount → cpu.rb + a ≠ cpu.rb + i

variable {host : Host} {path : List Char}

/-- The registers and the memory of a program that was loaded for the debugger. -/
theorem load_program_success {file : List Char} {m : Machine} (hfile : host path = some file)
    (hs : (loadProgram host path m).1 = .success) :
    (programInfo file).1.wordCount ≤ 1650 ∧
      (∃ cpu, (loadProgram host path m).2.cpu = startRegisters (programInfo file).1 cpu) ∧
      ∀ x : Int, 300 + (programInfo file).1.wordCount.toNat ≤ x →
        (loadProgram host path m).2.ram x = m.ram x := by
  unfold loadProgram at hs ⊢
  simp only [hfile] at hs ⊢
  generalize programInfo file = r at hs ⊢
  obtain ⟨header, rest⟩ := r
  dsimp only at hs ⊢
  split_ifs at hs ⊢ with hlarge
  simp only [ramSize, osReservedSize, minStackSize] at hlarge
  have stores := load_words_stores header.wordCount.toNat 0 rest
    { m with cpu.psw.mode := .kernel } rfl
  generalize loadWords header.wordCount.toNat 0 rest { m with cpu.psw.mode := .kernel } = l
    at hs stores ⊢
  obtain ⟨status, n⟩ := l
  cases status with
  | success =>
    refine ⟨by omega, ⟨_, rfl⟩, ?_⟩
    intro x hx
    refine stores.frame ?_
    simp only [osReservedSize]
    omega
  | fileError => cases hs
  | memoryError => cases hs

/-- The debugger's layout is well formed for 1 to 1599 words: the stack size is clamped, and the
limit lies one past the last word of the stack. -/
theorem debug_start_formed {file : List Char} {m : Machine} (hfile : host path = some file)
    (hs : (loadProgram host path m).1 = .success) :
    WellFormedStart (programInfo file).1.wordCount m.ram (loadProgram host path m).2.cpu
        (loadProgram host path m).2.ram ↔
      1 ≤ (programInfo file).1.wordCount ∧ (programInfo file).1.wordCount ≤ 1599 := by
  obtain ⟨hlarge, ⟨cpu, hcpu⟩, hram⟩ := load_program_success hfile hs
  generalize (loadProgram host path m).2 = n at hcpu hram ⊢
  generalize (programInfo file).1 = header at hlarge hcpu hram ⊢
  have hrb : n.cpu.rb = 300 := by rw [hcpu]; rfl
  have hrl : n.cpu.rl = 300 + stackMemory header.wordCount + header.wordCount := by
    rw [hcpu]
    rfl
  have hrx : n.cpu.rx = header.wordCount := by rw [hcpu]; rfl
  have hsp : n.cpu.sp = header.wordCount + stackMemory header.wordCount := by rw [hcpu]; rfl
  have huser : n.cpu.psw.mode = .user := by rw [hcpu]; rfl
  rw [stack_memory_eq] at hrl hsp
  constructor
  · intro formed
    have hlimit := formed.limit
    simp only [ramSize] at hlimit
    exact ⟨formed.boundary.2, by omega⟩
  · rintro ⟨hpos, hfits⟩
    constructor
    case reserved => simp only [osReservedSize]; omega
    case ordered => omega
    case limit => simp only [ramSize]; omega
    case boundary => exact ⟨hrx, hpos⟩
    case above => omega
    case last => omega
    case readable =>
      refine ⟨huser, ?_⟩
      rw [accessible_user huser]
      omega
    case room => simp only [minStackSize]; omega
    case stack =>
      intro a ha _
      exact hram (n.cpu.rb + a) (by omega)
    case apart =>
      intro a i ha hi
      omega

/-- Whatever process is created starts with well-formed registers. -/
theorem process_start_formed {u : Unspecified} {s r : System}
    (h : createProcess host u path s = (.success, r)) :
    ∃ i e, (s.kernel.processTable i).state = .finished ∧
      (r.kernel.processTable i).state = .ready ∧ vfsGetMetadata path r.vfs = some e ∧
      WellFormedStart e.wordCount s.hw.ram (r.kernel.processTable i).context r.hw.ram := by
  have created := create_process_created host u path s
  rw [h] at created
  cases created with
  | refused _ hne => exact absurd rfl hne
  | made i e start hi hslot hload hentry hstart hcount hend hfree =>
    obtain ⟨hpos, hroom⟩ := required_blocks_room hcount
    have hbase : getBaseRegister start = 300 + start * 85 := by
      simp [getBaseRegister]
    have hlast : getLimitRegister (getBaseRegister start)
        (calculateRequiredBlocks e.wordCount) =
          getBaseRegister start + calculateRequiredBlocks e.wordCount * 85 - 1 := by
      simp [getLimitRegister]
    have htop : calculateRequiredBlocks e.wordCount * partitionSize - 1 =
        calculateRequiredBlocks e.wordCount * 85 - 1 := by
      rw [partition_size]
    refine ⟨i, e, hslot, by simp [createdPcb], hentry, ?_⟩
    simp only [Function.update_self, createdPcb, initialContext]
    rw [hlast, htop]
    constructor
    case reserved => simp only [osReservedSize]; omega
    case ordered => dsimp only; omega
    case limit => simp only [ramSize]; omega
    case boundary => exact ⟨rfl, hpos⟩
    case above => dsimp only; omega
    case last => dsimp only; omega
    case readable =>
      refine ⟨rfl, ?_⟩
      rw [accessible_user rfl]
      dsimp only
      omega
    case room => simp only [minStackSize]; omega
    case stack =>
      intro a ha _
      dsimp only at ha ⊢
      rw [load_image_outside _ _ _ _ _ (Or.inr (by omega)), load_ram]
    case apart =>
      intro a j ha hj
      dsimp only at ha ⊢
      omega

/-- The initial registers of every created process are well formed; those of a debugged program
are exactly when it has from 1 to 1599 words. -/
theorem initial_context_formed (host : Host) (path : List Char) :
    (∀ m file, host path = some file → (loadProgram host path m).1 = .success →
      (WellFormedStart (programInfo file).1.wordCount m.ram (loadProgram host path m).2.cpu
          (loadProgram host path m).2.ram ↔
        1 ≤ (programInfo file).1.wordCount ∧ (programInfo file).1.wordCount ≤ 1599)) ∧
    ∀ u s r, createProcess host u path s = (.success, r) →
      ∃ i e, (s.kernel.processTable i).state = .finished ∧
        (r.kernel.processTable i).state = .ready ∧ vfsGetMetadata path r.vfs = some e ∧
        WellFormedStart e.wordCount s.hw.ram (r.kernel.processTable i).context r.hw.ram :=
  ⟨fun _ _ => debug_start_formed, fun _ _ _ => process_start_formed⟩

theorem initial_context_formed_reader :
    WellFormedStart 2 (boot zeroKeys).hw.ram
      (loadProgram readerHost ['a'] (boot zeroKeys).hw).2.cpu
      (loadProgram readerHost ['a'] (boot zeroKeys).hw).2.ram ∧
    ∃ i e, ((boot zeroKeys).kernel.processTable i).state = .finished ∧
      ((createProcess readerHost zeros ['a'] (boot zeroKeys)).2.kernel.processTable i).state =
        .ready ∧
      vfsGetMetadata ['a'] (createProcess readerHost zeros ['a'] (boot zeroKeys)).2.vfs = some e ∧
      WellFormedStart e.wordCount (boot zeroKeys).hw.ram
        ((createProcess readerHost zeros ['a'] (boot zeroKeys)).2.kernel.processTable i).context
        (createProcess readerHost zeros ['a'] (boot zeroKeys)).2.hw.ram := by
  obtain ⟨debugged, created⟩ := initial_context_formed readerHost ['a']
  constructor
  · exact (debugged (boot zeroKeys).hw _ rfl (by decide +kernel)).mpr (by decide +kernel)
  · have hs : (createProcess readerHost zeros ['a'] (boot zeroKeys)).1 = .success := by
      decide +kernel
    exact created zeros (boot zeroKeys) _ (Prod.ext hs rfl)

def largeHost : Host := hostOf "_start 1\n.N 1600\n.P A\n" ""

/-- With 1600 words the limit is the address behind the end of memory. -/
theorem not_initial_context_formed :
    ¬ ∀ (host : Host) (path : List Char) (m : Machine) (file : List Char),
      host path = some file → (loadProgram host path m).1 = .success →
      WellFormedStart (programInfo file).1.wordCount m.ram (loadProgram host path m).2.cpu
        (loadProgram host path m).2.ram := by
  intro formed
  have large := formed largeHost ['a'] (boot zeroKeys).hw _ rfl (by decide +kernel)
  exact absurd large.limit (by decide +kernel)

end Lucario.Proofs
