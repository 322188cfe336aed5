import Lucario.Lib.Tally
import Lucario.Listings
import Lucario.Proofs.Ownership
import Lucario.Proofs.Termination

namespace Lucario.Proofs

instance (p : Pcb) (b : Int) : Decidable (Owns p b) := inferInstanceAs (Decidable (_ ∧ _))

def unownedBy (processes : List Pcb) (b : Int) : Bool := processes.all (fun p => ¬ Owns p b)

def processHeading : List Char :=
  "\n\x1b[34m------------------- PROCESS STATUS (ps) ------------------\x1b[0m\n\n".toList ++
    " PID  | STATE      | MEMORY (%) | PROGRAM NAME\n".toList ++
    "----------------------------------------------------------\n".toList

def processFooter (usage : Int) : List Char :=
  (if usage = 0 then "           No active processes at the moment\n".toList else []) ++
    "----------------------------------------------------------\n\n".toList

def memoryHeading : List Char :=
  "\n\x1b[34m----- MEMORY STATUS (memstat) -----\x1b[0m\n\n".toList ++
    " BLOCK  | RANGE (RB-RL) |  STATUS\n".toList ++
    "-----------------------------------\n".toList

def memoryRows (free : Int → Bool) : List Char :=
  (List.range maxProcesses).flatMap (fun (b : Nat) => blockRow free b)

def memoryFooter (usage : Int) : List Char :=
  "-----------------------------------\n".toList ++ "       Total RAM Usage: ".toList ++
    showInt usage ++ "%\n\n".toList

/-- What the two listings say about memory is the same, and each could be printed from what the
other is about. -/
structure ListingsAgree (k : Kernel) : Prop where
  occupied : ∀ b, 0 ≤ b → b < 20 →
    (k.freePartitions b = false ↔ ∃ p ∈ listedProcesses k, Owns p b)
  total : occupiedBlocks k.freePartitions = ((listedProcesses k).map Pcb.blockCount).sum
  percentages : ((listedProcesses k).map memPercentage).sum ≤ usagePercentage k.freePartitions
  bounded : usagePercentage k.freePartitions ≤ 100
  pids : ((listedProcesses k).map Pcb.pid).Nodup
  idle : listedProcesses k = [] ↔ usagePercentage k.freePartitions = 0
  processes : printProcessStatus k = processHeading ++ (listedProcesses k).flatMap processRow ++
    processFooter (usagePercentage k.freePartitions)
  memory : printMemoryStatus k.freePartitions = memoryHeading ++
    memoryRows (unownedBy (listedProcesses k)) ++
      memoryFooter (5 * ((listedProcesses k).map Pcb.blockCount).sum)

section

variable {k : Kernel}

theorem mem_listed {p : Pcb} : p ∈ listedProcesses k ↔ ∃ i, Live k i ∧ k.processTable i = p := by
  unfold listedProcesses
  rw [List.mem_filter, List.mem_map]
  constructor
  · rintro ⟨⟨i, hi, rfl⟩, hlive⟩
    have hi := List.mem_range.mp hi
    simp only [maxProcesses] at hi
    exact ⟨i, ⟨by omega, by omega, by simpa using hlive⟩, rfl⟩
  · rintro ⟨i, ⟨hl, hu, hlive⟩, rfl⟩
    refine ⟨⟨i.toNat, ?_, ?_⟩, by simpa using hlive⟩
    · simp only [List.mem_range, maxProcesses]
      omega
    · rw [Int.toNat_of_nonneg hl]

theorem listed_sum (k : Kernel) (g : Pcb → Int) : ((listedProcesses k).map g).sum =
    ∑ i ∈ Finset.range 20, if Live k i then g (k.processTable i) else 0 := by
  unfold listedProcesses
  rw [Tally.sum_filtered]
  refine Finset.sum_congr rfl (fun i hi => ?_)
  have hi := Finset.mem_range.mp hi
  have hlive : Live k i ↔ (k.processTable i).state ≠ .finished :=
    ⟨fun h => h.2.2, fun h => ⟨by omega, by omega, h⟩⟩
  simp only [hlive, decide_eq_true_eq]

/-- The partitions marked as used are those of the listed processes, counted once. -/
theorem Owned.total (h : Owned k) :
    occupiedBlocks k.freePartitions = ((listedProcesses k).map Pcb.blockCount).sum := by
  have counted := @Tally.covered_count (fun b => k.freePartitions b = false) _ (fun i => Live k i) _
    (fun i => (k.processTable i).startBlock) (fun i => (k.processTable i).blockCount) 20 20
    (fun i _ hlive => by
      obtain ⟨hs, hc, hn⟩ := h.bounds i hlive
      exact ⟨hs, by omega, hn⟩)
    (fun i _ j _ b hi hj hbi hbj => by exact_mod_cast h.disjoint i j b hi hj hbi hbj)
    (fun b hb => by
      rw [h.used b (by omega) (by omega)]
      constructor
      · rintro ⟨i, hlive, howns⟩
        obtain ⟨n, rfl⟩ := Int.eq_ofNat_of_zero_le hlive.1
        exact ⟨n, by have := hlive.2.1; omega, hlive, howns⟩
      · rintro ⟨i, -, hlive, howns⟩
        exact ⟨i, hlive, howns⟩)
  rw [occupiedBlocks, Tally.count_indicator, listed_sum, ← counted]
  refine Finset.sum_congr rfl (fun b _ => ?_)
  cases k.freePartitions b <;> rfl

theorem usage_eq (free : Int → Bool) : usagePercentage free = 5 * occupiedBlocks free := by
  unfold usagePercentage
  have hpos : 0 ≤ occupiedBlocks free := Int.natCast_nonneg _
  rw [Int.tdiv_eq_ediv_of_nonneg (by omega)]
  simp only [maxProcesses, Nat.cast_ofNat]
  omega

/-- A process is listed with a little less than its share, for part of memory is the system's. -/
theorem percentage_le {p : Pcb} (h : 0 ≤ p.blockCount) : memPercentage p ≤ 5 * p.blockCount := by
  have hsize : partitionSize = 85 := by decide
  unfold memPercentage
  rw [hsize, Int.tdiv_eq_ediv_of_nonneg (by omega)]
  simp only [ramSize]
  omega

theorem Owned.listed_blocks (h : Owned k) {p : Pcb} (hp : p ∈ listedProcesses k) :
    1 ≤ p.blockCount := by
  obtain ⟨i, hi, rfl⟩ := mem_listed.mp hp
  exact (h.bounds i hi).2.1

theorem Owned.occupied_iff (h : Owned k) {b : Int} (hl : 0 ≤ b) (hu : b < 20) :
    k.freePartitions b = false ↔ ∃ p ∈ listedProcesses k, Owns p b := by
  rw [h.used b hl hu]
  constructor
  · rintro ⟨i, hi, howns⟩
    exact ⟨_, mem_listed.mpr ⟨i, hi, rfl⟩, howns⟩
  · rintro ⟨p, hp, howns⟩
    obtain ⟨i, hi, rfl⟩ := mem_listed.mp hp
    exact ⟨i, hi, howns⟩

/-- A partition is marked as free when no listed process owns it. -/
theorem Owned.unowned (h : Owned k) {b : Int} (hl : 0 ≤ b) (hu : b < 20) :
    k.freePartitions b = unownedBy (listedProcesses k) b := by
  have owned : unownedBy (listedProcesses k) b = false ↔ ∃ p ∈ listedProcesses k, Owns p b := by
    simp [unownedBy, List.all_eq_false]
  exact Bool.eq_iff_iff.mpr (not_iff_not.mp (by
    simpa using (h.occupied_iff hl hu).trans owned.symm))

theorem Owned.shares_le (h : Owned k) :
    ((listedProcesses k).map memPercentage).sum ≤ usagePercentage k.freePartitions := by
  rw [usage_eq, h.total, ← List.sum_map_mul_left]
  refine List.sum_le_sum (fun p hp => ?_)
  have := h.listed_blocks hp
  exact percentage_le (by omega)

theorem usage_le (free : Int → Bool) : usagePercentage free ≤ 100 := by
  have counted := List.countP_le_length (p := fun (i : Nat) => ! free i)
    (l := List.range maxProcesses)
  rw [usage_eq, occupiedBlocks]
  simp only [List.length_range, maxProcesses] at counted ⊢
  omega

theorem Owned.listed_pids (h : Owned k) : ((listedProcesses k).map Pcb.pid).Nodup := by
  unfold listedProcesses
  rw [List.filter_map, List.map_map]
  refine (List.nodup_range.filter _).map_on ?_
  intro i hi j hj hpid
  simp only [List.mem_filter, List.mem_range, maxProcesses, Function.comp_apply, ne_eq,
    decide_eq_true_eq] at hi hj hpid
  have same := h.pids i j ⟨by omega, by omega, hi.2⟩ ⟨by omega, by omega, hj.2⟩ hpid
  omega

/-- Whoever is listed owns a partition, so that nobody is when none is in use. -/
theorem Owned.idle_iff (h : Owned k) :
    listedProcesses k = [] ↔ usagePercentage k.freePartitions = 0 := by
  rw [usage_eq, h.total]
  constructor
  · intro hnone
    rw [hnone]
    rfl
  · intro hzero
    by_contra hne
    obtain ⟨p, hp⟩ := List.exists_mem_of_ne_nil _ hne
    have counts : ∀ n ∈ (listedProcesses k).map Pcb.blockCount, (0 : Int) ≤ n := by
      intro n hn
      obtain ⟨q, hq, rfl⟩ := List.mem_map.mp hn
      have := h.listed_blocks hq
      omega
    have hsum := List.single_le_sum counts _ (List.mem_map_of_mem hp)
    have hone := h.listed_blocks hp
    omega

theorem Owned.processes_printed (h : Owned k) : printProcessStatus k = processHeading ++
    (listedProcesses k).flatMap processRow ++
      processFooter (usagePercentage k.freePartitions) := by
  unfold printProcessStatus processHeading processFooter
  simp only [h.idle_iff, List.append_assoc]

theorem Owned.memory_printed (h : Owned k) : printMemoryStatus k.freePartitions = memoryHeading ++
    memoryRows (unownedBy (listedProcesses k)) ++
      memoryFooter (5 * ((listedProcesses k).map Pcb.blockCount).sum) := by
  have rows : memoryRows k.freePartitions = memoryRows (unownedBy (listedProcesses k)) := by
    refine List.flatMap_congr fun b hb => ?_
    have hb := List.mem_range.mp hb
    simp only [maxProcesses] at hb
    unfold blockRow
    rw [h.unowned (by omega) (by omega)]
  unfold printMemoryStatus memoryHeading memoryFooter
  rw [← rows, usage_eq, h.total]
  simp only [memoryRows, List.append_assoc]

theorem Owned.listings (h : Owned k) : ListingsAgree k where
  occupied _ hl hu := h.occupied_iff hl hu
  total := h.total
  percentages := h.shares_le
  bounded := usage_le _
  pids := h.listed_pids
  idle := h.idle_iff
  processes := h.processes_printed
  memory := h.memory_printed

end

/-- The kernel in which a process whose partitions have been given back counts as ended. -/
def accounted (t : Threads) : Kernel :=
  if t.phase = .released then (markFinished t.system).kernel else t.system.kernel

section

variable {t : Threads}

theorem Scheduled.running_live {k : Kernel} (h : Scheduled k) (hc : k.currentActiveProcess ≠ -1) :
    Live k k.currentActiveProcess := by
  obtain ⟨hl, hu⟩ := h.current.resolve_left hc
  refine ⟨hl, hu, ?_⟩
  rw [h.running hl]
  decide

/-- A creation while a process is being ended takes another slot. -/
theorem created_beside_ending {host : Host} {u : Unspecified} {progName : List Char} {s : System}
    {r : OsStatus × System} (hs : Scheduled s.kernel) (hc : s.kernel.currentActiveProcess ≠ -1)
    (h : Owned (markFinished s).kernel) (created : Created host u progName s r) :
    Owned (markFinished r.2).kernel := by
  have running := (hs.running_live hc).2.2
  cases created with
  | full => exact h
  | refused => exact h
  | made i entry start hi hslot _ _ hstart hcount hend hfree =>
    have apart : i ≠ s.kernel.currentActiveProcess := by
      rintro rfl
      exact running hslot
    have slot : (markFinished s).kernel.processTable i = s.kernel.processTable i :=
      Function.update_of_ne apart _ _
    refine h.add (p := createdPcb s.kernel entry start) hi (slot ▸ hslot) ?_ rfl ⟨rfl, rfl⟩ hstart
      hcount hend hfree ?_ rfl rfl
    · simp [createdPcb]
    · simp only [markFinished, System.setState, System.modifyProcess, Kernel.modifyProcess]
      rw [Function.update_of_ne apart.symm, Function.update_comm apart]

theorem thread_next_owned (hi : ThreadInvariant t) (h : Owned (accounted t)) (e : ThreadEvent) :
    Owned (accounted (threadNext t e)) := by
  cases e with
  | worker u =>
    have current := hi.current
    cases hphase : t.phase with
    | running =>
      rw [ThreadInvariant, hphase] at hi
      rw [accounted, hphase, if_neg (by decide)] at h
      rcases running_cases u hphase with ⟨s, -, hnext, hw⟩ | ⟨-, s, hnext, hw⟩ |
        ⟨-, hc, hw, mon, hnext⟩ <;>
        rw [hnext, accounted, if_neg WorkerPhase.noConfusion]
      · exact (tick_owners (worked_at_tick hi hw).1.current).owned (worked_owned hi h hw)
      · exact worked_owned hi h hw
      · exact h
    | stopped =>
      rw [ThreadInvariant, hphase] at hi
      rw [accounted, hphase, if_neg (by decide)] at h
      simp only [threadNext, workerAdvance, hphase, accounted, if_true]
      exact terminated_owned h (hi.1.running_live hi.2)
    | released =>
      rw [accounted, hphase, if_pos rfl] at h
      simp only [threadNext, workerAdvance, hphase, accounted]
      exact h
    | finished =>
      rw [accounted, hphase, if_neg (by decide)] at h
      simp only [threadNext, workerAdvance, hphase, accounted]
      exact (tick_owners current).owned h
  | create host u progName =>
    have created := create_process_created host u progName t.system
    obtain ⟨s, phase⟩ := t
    cases phase with
    | released => exact created_beside_ending hi.1 hi.2 h created
    | running | stopped | finished => exact created_owned h created
  | monitor active =>
    obtain ⟨s, phase⟩ := t
    cases phase <;> exact h

end

/-- At every moment of a run, with creations between the steps of a termination as well, `ps` and
`memstat` account for memory alike: the blocks shown as occupied are those of the listed processes,
each of one of them only, and the usage is never less than their percentages together. Only a
process between `freeMemory` and its end is still listed while its blocks are shown as free. -/
theorem listings_agree (s : System) (es : List ThreadEvent) :
    ListingsAgree (accounted (Trace.run threadNext ⟨initOS s, .running⟩ es)) := by
  have kept : ThreadInvariant (Trace.run threadNext ⟨initOS s, .running⟩ es) ∧
      Owned (accounted (Trace.run threadNext ⟨initOS s, .running⟩ es)) :=
    Trace.run_invariant (fun t : Threads => ThreadInvariant t ∧ Owned (accounted t))
      ⟨init_scheduled s, init_owned s⟩
      (fun t e _ h => ⟨thread_next_invariant h.1 e, thread_next_owned h.1 h.2 e⟩)
  exact kept.2.listings

end Lucario.Proofs
