import Lucario.Proofs.DebugFrame
import Lucario.Proofs.ProgramImage

namespace Lucario.Proofs

structure Undone (s t : System) : Prop where
  kernel : t.kernel = s.kernel
  cpu : t.hw.cpu = s.hw.cpu
  ram : t.hw.ram = s.hw.ram

/-- The lowest finished slot `i` has become a ready process, and nothing else has changed than
its partitions, memory inside them and the next PID. -/
structure Added (i : Int) (s t : System) : Prop where
  slot : 0 ≤ i ∧ i < maxProcesses
  finished : (s.kernel.processTable i).state = .finished
  lowest : ∀ j, 0 ≤ j → j < i → (s.kernel.processTable j).state ≠ .finished
  ready : (t.kernel.processTable i).state = .ready
  others : ∀ j, j ≠ i → t.kernel.processTable j = s.kernel.processTable j
  blocks : ∀ b, Owns (t.kernel.processTable i) b → 0 ≤ b ∧ b < maxProcesses ∧
    s.kernel.freePartitions b = true ∧ t.kernel.freePartitions b = false
  partitions : ∀ b, ¬ Owns (t.kernel.processTable i) b →
    t.kernel.freePartitions b = s.kernel.freePartitions b
  ram : ∀ x, (∀ b, Owns (t.kernel.processTable i) b → ¬ InBlock b x) → t.hw.ram x = s.hw.ram x
  nextPid : t.kernel.nextPid = s.kernel.nextPid + 1
  current : t.kernel.currentActiveProcess = s.kernel.currentActiveProcess
  cpu : t.hw.cpu = s.hw.cpu

/-- A creation either succeeds and adds one process, or undoes every stage it has reached. -/
def CreatesOrUndoes (host : Host) (u : Unspecified) (progName : List Char) (s : System) : Prop :=
  ((createProcess host u progName s).1 ≠ .success → Undone s (createProcess host u progName s).2) ∧
    ((createProcess host u progName s).1 = .success →
      ∃ i, Added i s (createProcess host u progName s).2)

/-- The free slot is the lowest finished one. -/
theorem free_slot_lowest {k : Kernel} {j : Int} (hj : 0 ≤ j)
    (hlt : j < getFreePCBIndex k) : (k.processTable j).state ≠ .finished := by
  unfold getFreePCBIndex at hlt
  split at hlt
  · rename_i n hn
    obtain ⟨-, -, before⟩ := List.find?_range_eq_some.mp hn
    obtain ⟨j, rfl⟩ := Int.eq_ofNat_of_zero_le hj
    simpa using before j (by simpa using hlt)
  · omega

/-- An address outside the partitions of a process is not one of its program. -/
theorem outside_image {start w x : Int} (hcount : 1 ≤ calculateRequiredBlocks w)
    (hx : ∀ b, start ≤ b → b < start + calculateRequiredBlocks w → ¬ InBlock b x) :
    x < getBaseRegister start + 0 ∨ getBaseRegister start + 0 + w.toNat ≤ x := by
  obtain ⟨hpos, hroom⟩ := required_blocks_room hcount
  have base : getBaseRegister start = 300 + start * 85 := by simp [getBaseRegister]
  by_contra hin
  refine hx ((x - 300) / 85) (by omega) (by omega) ?_
  simp only [InBlock, getBaseRegister, partitionSize, ramSize, osReservedSize, maxProcesses]
  norm_num
  omega

/-- In every state a creation that fails leaves the kernel, the processor and memory as they were,
and one that succeeds turns the lowest finished slot into a ready process and changes nothing
else than what that process gets. -/
theorem creation_all_or_nothing (host : Host) (u : Unspecified) (progName : List Char)
    (s : System) : CreatesOrUndoes host u progName s := by
  have created := create_process_created host u progName s
  have slot := fun j => @create_process_slot host u progName s j
  obtain ⟨status, disk, vfs, hload⟩ := load_to_disk host u progName s
  unfold CreatesOrUndoes
  generalize createProcess host u progName s = r at created slot
  cases created with
  | full => exact ⟨fun _ => ⟨rfl, rfl, rfl⟩, nofun⟩
  | refused status h =>
    exact ⟨fun _ => ⟨rfl, by simp [hload], by simp [hload]⟩, fun h' => absurd h' h⟩
  | made i e start hi hslot hok hentry hstart hcount hend hfree =>
    refine ⟨fun h => absurd rfl h, fun _ => ?_⟩
    have hfirst : i = getFreePCBIndex s.kernel := by
      by_contra hne
      have same := congrArg Pcb.state (slot i hne)
      simp [createdPcb, hslot] at same
    have owns : ∀ b, Owns (Function.update s.kernel.processTable i
        (createdPcb s.kernel e start) i) b ↔
        start ≤ b ∧ b < start + calculateRequiredBlocks e.wordCount := by
      intro b
      rw [Function.update_self]
      rfl
    refine ⟨i, {
      slot := hi
      finished := hslot
      lowest := ?lowest
      ready := by simp [createdPcb]
      others := fun j hj => Function.update_of_ne hj _ _
      blocks := ?blocks
      partitions := ?partitions
      ram := ?ram
      nextPid := rfl
      current := rfl
      cpu := ?cpu }⟩
    case lowest =>
      intro j hj hlt
      exact free_slot_lowest hj (hfirst ▸ hlt)
    case blocks =>
      intro b hb
      obtain ⟨hlow, hhigh⟩ := (owns b).mp hb
      refine ⟨by omega, by simp only [maxProcesses]; omega, hfree b hlow hhigh, ?_⟩
      exact if_pos ⟨hlow, hhigh⟩
    case partitions =>
      intro b hb
      exact if_neg (fun h => hb ((owns b).mpr h))
    case ram =>
      intro x hx
      dsimp only
      rw [load_image_outside _ _ _ _ _ (outside_image hcount
        (fun b hlow hhigh => hx b ((owns b).mpr ⟨hlow, hhigh⟩))), load_ram]
    case cpu =>
      obtain ⟨ram, hram⟩ := load_image_ram (getBaseRegister start) e.wordCount.toNat 0
        ⟨e.startTrack, e.startCylinder, e.startSector⟩ (vfsLoadToDisk host u progName s).2.hw
      dsimp only
      rw [hram, hload]

end Lucario.Proofs
