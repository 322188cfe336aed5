import Lucario.Lib.Runs
import Lucario.Partitions

namespace Lucario.Proofs

open Runs

def freeRuns (n : Int) (free : Int → Bool) : Set Int :=
  {s | 0 ≤ s ∧ s + n ≤ maxProcesses ∧ ∀ b, s ≤ b → b < s + n → free b = true}

/-- An allocation takes the leftmost run that is long enough and nothing else, fails only when
there is none, and is undone by freeing what it returned. -/
structure FirstFit (n : Int) (free : Int → Bool) : Prop where
  failed : (allocateMemory n free).1 = -1 ↔ n ≤ 0 ∨ freeRuns n free = ∅
  unchanged : (allocateMemory n free).1 = -1 → (allocateMemory n free).2 = free
  least : (allocateMemory n free).1 ≠ -1 → IsLeast (freeRuns n free) (allocateMemory n free).1
  marked : ∀ b, (allocateMemory n free).1 ≠ -1 → (allocateMemory n free).2 b =
    if (allocateMemory n free).1 ≤ b ∧ b < (allocateMemory n free).1 + n then false else free b
  restored : (allocateMemory n free).1 ≠ -1 →
    freeMemory (allocateMemory n free).1 n (allocateMemory n free).2 = some free

def enoughBlocks (w : Int) : Set Int := {k | w + minStackSize ≤ k * partitionSize}

abbrev Allocatable (w : Int) : Prop := 1 ≤ w ∧ w ≤ partitionSize * maxProcesses - minStackSize

variable {n : Int} {free : Int → Bool}

/-- The scan returns the first run of all, or the end is too near for one. -/
theorem scan_partitions_first (fuel : Nat) {i c : Int}
    (h : Scanned (fun b => free b = true) n i c) :
    (∀ r, scanPartitions free n fuel i c = some r →
      IsLeast {s | 0 ≤ s ∧ IsRun (fun b => free b = true) s n} r ∧ r + n ≤ i + fuel) ∧
    (scanPartitions free n fuel i c = none →
      ∀ s, 0 ≤ s → s + n ≤ i + fuel → ¬ IsRun (fun b => free b = true) s n) := by
  induction fuel generalizing i c with
  | zero =>
    refine ⟨nofun, fun _ s hs hle => h.none s hs (by simpa using hle)⟩
  | succ fuel ih =>
    rw [scanPartitions]
    split_ifs with hf hc
    · refine ⟨?_, nofun⟩
      intro r hr
      obtain rfl : i - n + 1 = r := by simpa using hr
      exact ⟨h.found hf hc, by push_cast; omega⟩
    · obtain ⟨found, exhausted⟩ := ih (h.extend hf hc)
      refine ⟨fun r hr => ?_, fun hr s hs hle => ?_⟩
      · obtain ⟨hleast, hend⟩ := found r hr
        exact ⟨hleast, by push_cast; omega⟩
      · exact exhausted hr s hs (by push_cast at hle; omega)
    · obtain ⟨found, exhausted⟩ := ih (h.skip hf)
      refine ⟨fun r hr => ?_, fun hr s hs hle => ?_⟩
      · obtain ⟨hleast, hend⟩ := found r hr
        exact ⟨hleast, by push_cast; omega⟩
      · exact exhausted hr s hs (by push_cast at hle; omega)

/-- An allocation fails on an empty request or for want of a run, and otherwise returns the
leftmost one. -/
theorem allocate_memory_first (n : Int) (free : Int → Bool) :
    allocateMemory n free = (-1, free) ∧ (n ≤ 0 ∨ freeRuns n free = ∅) ∨
      ∃ start, allocateMemory n free = (start, setPartitions false start n free) ∧ 0 < n ∧
        IsLeast (freeRuns n free) start := by
  unfold allocateMemory
  split_ifs with hn
  · refine Or.inl ⟨rfl, hn.imp id ?_⟩
    intro hlarge
    refine Set.eq_empty_of_forall_notMem ?_
    rintro s ⟨hs, hle, -⟩
    omega
  · rw [not_or, not_le] at hn
    obtain ⟨found, exhausted⟩ := scan_partitions_first maxProcesses
      (scanned_start (p := fun b => free b = true) hn.1)
    cases hscan : scanPartitions free n maxProcesses 0 0 with
    | none =>
      refine Or.inl ⟨rfl, Or.inr (Set.eq_empty_of_forall_notMem ?_)⟩
      rintro s ⟨hs, hle, hrun⟩
      exact exhausted hscan s hs (by omega) hrun
    | some start =>
      obtain ⟨⟨⟨hstart, hrun⟩, hleast⟩, hend⟩ := found start hscan
      refine Or.inr ⟨start, rfl, hn.1, ⟨hstart, by omega, hrun⟩, ?_⟩
      rintro s ⟨hs, -, hrun⟩
      exact hleast ⟨hs, hrun⟩

/-- Marking free partitions as used and freeing them again changes nothing. -/
theorem free_marked {start : Int} (h : ∀ b, start ≤ b → b < start + n → free b = true) :
    setPartitions true start n (setPartitions false start n free) = free := by
  funext b
  unfold setPartitions
  split_ifs with hb
  · exact (h b hb.1 hb.2).symm
  · rfl

theorem first_fit (n : Int) (free : Int → Bool) : FirstFit n free := by
  rcases allocate_memory_first n free with ⟨hfail, hnone⟩ | ⟨start, hok, hpos, hleast⟩
  · constructor
    case failed => simp [hfail, hnone]
    all_goals simp [hfail]
  · obtain ⟨hstart, hend, hrun⟩ := hleast.1
    have hne : start ≠ -1 := by omega
    constructor
    case failed =>
      rw [hok]
      refine iff_of_false hne ?_
      rintro (hle | hempty)
      · omega
      · exact Set.notMem_empty start (hempty ▸ hleast.1)
    case unchanged =>
      rw [hok]
      exact fun he => absurd he hne
    case least =>
      rw [hok]
      exact fun _ => hleast
    case marked =>
      rw [hok]
      exact fun _ _ => rfl
    case restored =>
      intro _
      rw [hok]
      dsimp only
      rw [freeMemory, if_neg (by omega), free_marked hrun]

theorem partition_size : partitionSize = 85 := by decide

theorem enough_blocks_iff {w k : Int} : k ∈ enoughBlocks w ↔ w + 50 ≤ k * 85 := by
  rw [← partition_size]
  exact Iff.rfl

theorem allocatable_iff {w : Int} : Allocatable w ↔ 1 ≤ w ∧ w ≤ 1650 := by
  rw [Allocatable, partition_size]
  exact Iff.rfl

theorem required_blocks_least {w : Int} (h : Allocatable w) :
    IsLeast (enoughBlocks w) (calculateRequiredBlocks w) := by
  obtain ⟨hpos, hsmall⟩ := allocatable_iff.mp h
  have hdiv := tdiv_sign (w + 50 + 85 - 1) 85
  have hcount : calculateRequiredBlocks w = (w + 50 + 85 - 1).tdiv 85 := by
    unfold calculateRequiredBlocks
    rw [partition_size]
    refine if_neg ?_
    simp only [minStackSize, maxProcesses]
    omega
  rw [hcount]
  refine ⟨enough_blocks_iff.mpr (by omega), ?_⟩
  intro k hk
  have := enough_blocks_iff.mp hk
  omega

theorem required_blocks_refused {w : Int} (h : ¬ Allocatable w) :
    calculateRequiredBlocks w = 0 := by
  unfold Allocatable at h
  unfold calculateRequiredBlocks
  exact if_pos (by omega)

/-- Partitions are allocated first fit: the leftmost run of the least sufficient number of blocks,
and a request for a program fails only if no run of free partitions would hold it. -/
theorem first_fit_allocation (free : Int → Bool) :
    (∀ n, FirstFit n free) ∧
    (∀ w, Allocatable w → IsLeast (enoughBlocks w) (calculateRequiredBlocks w)) ∧
    (∀ w, ¬ Allocatable w → calculateRequiredBlocks w = 0) ∧
    ∀ w, 1 ≤ w → (allocateMemory (calculateRequiredBlocks w) free).1 = -1 →
      ∀ k ∈ enoughBlocks w, freeRuns k free = ∅ := by
  refine ⟨fun n => first_fit n free, fun w => required_blocks_least,
    fun w => required_blocks_refused, ?_⟩
  intro w hw hfail k hk
  have henough := enough_blocks_iff.mp hk
  refine Set.eq_empty_of_forall_notMem ?_
  rintro s ⟨hs, hle, hrun⟩
  have hfits : Allocatable w := by
    simp only [maxProcesses] at hle
    exact allocatable_iff.mpr ⟨hw, by omega⟩
  have hleast := required_blocks_least hfits
  have hblocks := hleast.2 hk
  rcases (first_fit _ free).failed.mp hfail with hzero | hempty
  · have := enough_blocks_iff.mp hleast.1
    omega
  · refine Set.notMem_empty s (hempty ▸ ⟨hs, by omega, ?_⟩)
    exact fun b hl hu => hrun b hl (by omega)

def fragmented : Int → Bool := fun b => b = 2 || b = 3 || 5 ≤ b

theorem first_fit_allocation_fragmented :
    IsLeast (freeRuns 3 fragmented) 5 ∧ IsLeast (enoughBlocks 36) 2 ∧
      calculateRequiredBlocks 0 = 0 ∧ freeRuns 20 fragmented = ∅ := by
  obtain ⟨fits, least, refused, fails⟩ := first_fit_allocation fragmented
  exact ⟨(fits 3).least (by decide), least 36 (by decide), refused 0 (by decide),
    fails 1650 (by decide) (by decide) 20 (enough_blocks_iff.mpr (by decide))⟩

end Lucario.Proofs
