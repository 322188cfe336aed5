import Lucario.Proofs.Scheduling

namespace Lucario.Proofs

def Live (k : Kernel) (i : Int) : Prop :=
  0 ≤ i ∧ i < 20 ∧ (k.processTable i).state ≠ .finished

instance (k : Kernel) (i : Int) : Decidable (Live k i) := inferInstanceAs (Decidable (_ ∧ _))

/-- The partitions a process was given. -/
def Owns (p : Pcb) (b : Int) : Prop := p.startBlock ≤ b ∧ b < p.startBlock + p.blockCount

structure Owned (k : Kernel) : Prop where
  bounds : ∀ i, Live k i → 0 ≤ (k.processTable i).startBlock ∧ 1 ≤ (k.processTable i).blockCount ∧
    (k.processTable i).startBlock + (k.processTable i).blockCount ≤ 20
  disjoint : ∀ i j b, Live k i → Live k j → Owns (k.processTable i) b →
    Owns (k.processTable j) b → i = j
  used : ∀ b, 0 ≤ b → b < 20 →
    (k.freePartitions b = false ↔ ∃ i, Live k i ∧ Owns (k.processTable i) b)
  pids : ∀ i j, Live k i → Live k j → (k.processTable i).pid = (k.processTable j).pid → i = j
  fresh : ∀ i, Live k i → (k.processTable i).pid < k.nextPid

structure SameOwners (k k' : Kernel) : Prop where
  live : ∀ i, Live k' i ↔ Live k i
  pid : ∀ i, Live k i → (k'.processTable i).pid = (k.processTable i).pid
  range : ∀ i, Live k i → (k'.processTable i).startBlock = (k.processTable i).startBlock ∧
    (k'.processTable i).blockCount = (k.processTable i).blockCount
  free : k'.freePartitions = k.freePartitions
  next : k'.nextPid = k.nextPid

theorem SameOwners.owns {k k' : Kernel} (h : SameOwners k k') {i : Int} (hi : Live k i) (b : Int) :
    Owns (k'.processTable i) b ↔ Owns (k.processTable i) b := by
  obtain ⟨hs, hc⟩ := h.range i hi
  rw [Owns, Owns, hs, hc]

theorem SameOwners.trans {k k' k'' : Kernel} (h : SameOwners k k') (h' : SameOwners k' k'') :
    SameOwners k k'' := by
  refine ⟨?_, ?_, ?_, h'.free.trans h.free, h'.next.trans h.next⟩
  · intro i
    exact (h'.live i).trans (h.live i)
  · intro i hi
    exact (h'.pid i ((h.live i).mpr hi)).trans (h.pid i hi)
  · intro i hi
    have hr := h.range i hi
    have hr' := h'.range i ((h.live i).mpr hi)
    exact ⟨hr'.1.trans hr.1, hr'.2.trans hr.2⟩

theorem SameOwners.owned {k k' : Kernel} (h : SameOwners k k') (ho : Owned k) : Owned k' := by
  refine ⟨?_, ?_, ?_, ?_, ?_⟩
  · intro i hi
    have hk := (h.live i).mp hi
    rw [(h.range i hk).1, (h.range i hk).2]
    exact ho.bounds i hk
  · intro i j b hi hj hbi hbj
    have hki := (h.live i).mp hi
    have hkj := (h.live j).mp hj
    exact ho.disjoint i j b hki hkj ((h.owns hki b).mp hbi) ((h.owns hkj b).mp hbj)
  · intro b hl hu
    rw [h.free, ho.used b hl hu]
    constructor
    · rintro ⟨i, hi, hb⟩
      exact ⟨i, (h.live i).mpr hi, (h.owns hi b).mpr hb⟩
    · rintro ⟨i, hi, hb⟩
      have hk := (h.live i).mp hi
      exact ⟨i, hk, (h.owns hk b).mp hb⟩
  · intro i j hi hj he
    have hki := (h.live i).mp hi
    have hkj := (h.live j).mp hj
    rw [h.pid i hki, h.pid j hkj] at he
    exact ho.pids i j hki hkj he
  · intro i hi
    have hk := (h.live i).mp hi
    rw [h.pid i hk, h.next]
    exact ho.fresh i hk

/-- Updating one live slot without ending it or touching its pid and partitions. -/
theorem same_owners_update {k k' : Kernel} {c : Int} {p : Pcb}
    (ht : k'.processTable = Function.update k.processTable c p)
    (hfin : p.state = .finished ↔ (k.processTable c).state = .finished)
    (hpid : p.pid = (k.processTable c).pid)
    (hrange : p.startBlock = (k.processTable c).startBlock ∧
      p.blockCount = (k.processTable c).blockCount)
    (hfree : k'.freePartitions = k.freePartitions) (hnext : k'.nextPid = k.nextPid) :
    SameOwners k k' := by
  have at_slot : ∀ i, ((k'.processTable i).state = .finished ↔
        (k.processTable i).state = .finished) ∧
      (k'.processTable i).pid = (k.processTable i).pid ∧
      (k'.processTable i).startBlock = (k.processTable i).startBlock ∧
      (k'.processTable i).blockCount = (k.processTable i).blockCount := by
    intro i
    rw [ht]
    by_cases hi : i = c
    · subst hi
      rw [Function.update_self]
      exact ⟨hfin, hpid, hrange⟩
    · rw [Function.update_of_ne hi]
      exact ⟨Iff.rfl, rfl, rfl, rfl⟩
  refine ⟨?_, fun i _ => (at_slot i).2.1, fun i _ => (at_slot i).2.2, hfree, hnext⟩
  intro i
  simp only [Live, ne_eq, (at_slot i).1]

theorem before_scan_owners (s : System) : SameOwners s.kernel (beforeScan s) := by
  have at_slot : ∀ i, 0 ≤ i → i < 20 →
      (((beforeScan s).processTable i).state = .finished ↔
        (s.kernel.processTable i).state = .finished) ∧
      ((beforeScan s).processTable i).pid = (s.kernel.processTable i).pid ∧
      ((beforeScan s).processTable i).startBlock = (s.kernel.processTable i).startBlock ∧
      ((beforeScan s).processTable i).blockCount = (s.kernel.processTable i).blockCount := by
    intro i hl hu
    obtain ⟨hpid, -, hstart, hcount, hfin⟩ := stirred_kept s (s.kernel.processTable i)
    rw [before_scan_at s hl hu]
    split_ifs
    · refine ⟨?_, hpid, hstart, hcount⟩
      rw [← hfin]
      simp only [saved]
      split_ifs with he <;> simp [he]
    · exact ⟨hfin, hpid, hstart, hcount⟩
  obtain ⟨hfree, hnext, -⟩ := before_scan_rest s
  refine ⟨?_, ?_, ?_, hfree, hnext⟩
  · intro i
    constructor
    · rintro ⟨hl, hu, hs⟩
      exact ⟨hl, hu, fun h => hs ((at_slot i hl hu).1.mpr h)⟩
    · rintro ⟨hl, hu, hs⟩
      exact ⟨hl, hu, fun h => hs ((at_slot i hl hu).1.mp h)⟩
  · rintro i ⟨hl, hu, -⟩
    exact (at_slot i hl hu).2.1
  · rintro i ⟨hl, hu, -⟩
    exact (at_slot i hl hu).2.2

theorem tick_owners {s : System} (hc : ValidCurrent s.kernel.currentActiveProcess) :
    SameOwners s.kernel (schedulerTick s).kernel := by
  refine (before_scan_owners s).trans ?_
  rcases tick_cases hc with ⟨n, -, -, hready, -, ht⟩ | ⟨-, ht⟩
  · rw [ht]
    refine same_owners_update (c := n) rfl ?_ rfl ⟨rfl, rfl⟩ rfl rfl
    rw [hready]
    simp
  · rw [ht]
    exact ⟨fun _ => Iff.rfl, fun _ _ => rfl, fun _ _ => ⟨rfl, rfl⟩, rfl, rfl⟩

theorem set_partitions_at (value : Bool) (start count : Int) (free : Int → Bool) (b : Int) :
    setPartitions value start count free b =
      if start ≤ b ∧ b < start + count then value else free b := rfl

/-- Ending a process and freeing its partitions frees no others. -/
theorem Owned.remove {k k' : Kernel} {c : Int} (ho : Owned k) (hl : Live k c)
    (ht : k'.processTable =
      Function.update k.processTable c { k.processTable c with state := .finished })
    (hf : k'.freePartitions = setPartitions true (k.processTable c).startBlock
      (k.processTable c).blockCount k.freePartitions)
    (hnext : k'.nextPid = k.nextPid) : Owned k' := by
  have hlive : ∀ i, Live k' i ↔ Live k i ∧ i ≠ c := by
    intro i
    by_cases hi : i = c
    · subst hi
      simp [Live, ht]
    · simp [Live, ht, hi]
  have hsame : ∀ i, i ≠ c → k'.processTable i = k.processTable i := by
    intro i hi
    rw [ht, Function.update_of_ne hi]
  refine ⟨?_, ?_, ?_, ?_, ?_⟩
  · intro i hi
    obtain ⟨hk, hne⟩ := (hlive i).mp hi
    rw [hsame i hne]
    exact ho.bounds i hk
  · intro i j b hi hj hbi hbj
    obtain ⟨hki, hni⟩ := (hlive i).mp hi
    obtain ⟨hkj, hnj⟩ := (hlive j).mp hj
    rw [hsame i hni] at hbi
    rw [hsame j hnj] at hbj
    exact ho.disjoint i j b hki hkj hbi hbj
  · intro b hbl hbu
    rw [hf, set_partitions_at]
    constructor
    · intro hb
      split_ifs at hb with hr
      obtain ⟨i, hi, hib⟩ := (ho.used b hbl hbu).mp hb
      have hne : i ≠ c := by
        rintro rfl
        exact hr hib
      exact ⟨i, (hlive i).mpr ⟨hi, hne⟩, by rw [hsame i hne]; exact hib⟩
    · rintro ⟨i, hi, hib⟩
      obtain ⟨hk, hne⟩ := (hlive i).mp hi
      rw [hsame i hne] at hib
      have apart : ¬ ((k.processTable c).startBlock ≤ b ∧
          b < (k.processTable c).startBlock + (k.processTable c).blockCount) :=
        fun hr => hne (ho.disjoint i c b hk hl hib hr)
      rw [if_neg apart]
      exact (ho.used b hbl hbu).mpr ⟨i, hk, hib⟩
  · intro i j hi hj he
    obtain ⟨hki, hni⟩ := (hlive i).mp hi
    obtain ⟨hkj, hnj⟩ := (hlive j).mp hj
    rw [hsame i hni, hsame j hnj] at he
    exact ho.pids i j hki hkj he
  · intro i hi
    obtain ⟨hk, hne⟩ := (hlive i).mp hi
    rw [hsame i hne, hnext]
    exact ho.fresh i hk

/-- A new process in a finished slot, under the next pid and on free partitions, takes nothing
from the others. -/
theorem Owned.add {k k' : Kernel} {c start n : Int} {p : Pcb} (ho : Owned k)
    (hc : 0 ≤ c ∧ c < 20) (hslot : (k.processTable c).state = .finished)
    (hp : p.state ≠ .finished) (hpid : p.pid = k.nextPid)
    (hrange : p.startBlock = start ∧ p.blockCount = n)
    (hstart : 0 ≤ start) (hcount : 1 ≤ n) (hend : start + n ≤ 20)
    (hfree : ∀ b, start ≤ b → b < start + n → k.freePartitions b = true)
    (ht : k'.processTable = Function.update k.processTable c p)
    (hf : k'.freePartitions = setPartitions false start n k.freePartitions)
    (hnext : k'.nextPid = k.nextPid + 1) : Owned k' := by
  have hself : k'.processTable c = p := by
    rw [ht, Function.update_self]
  have hsame : ∀ i, i ≠ c → k'.processTable i = k.processTable i := by
    intro i hi
    rw [ht, Function.update_of_ne hi]
  have hlive : ∀ i, Live k' i ↔ i = c ∨ Live k i ∧ i ≠ c := by
    intro i
    by_cases hi : i = c
    · subst hi
      simp [Live, hself, hp, hc.1, hc.2]
    · simp [Live, hsame i hi, hi]
  have howns : ∀ b, Owns (k'.processTable c) b ↔ start ≤ b ∧ b < start + n := by
    intro b
    rw [hself, Owns, hrange.1, hrange.2]
  have apart : ∀ i b, Live k i → Owns (k.processTable i) b → ¬ (start ≤ b ∧ b < start + n) := by
    rintro i b hi hb ⟨hbl, hbu⟩
    have hused := (ho.used b (by omega) (by omega)).mpr ⟨i, hi, hb⟩
    rw [hfree b hbl hbu] at hused
    cases hused
  refine ⟨?_, ?_, ?_, ?_, ?_⟩
  · intro i hi
    rcases (hlive i).mp hi with rfl | ⟨hk, hne⟩
    · rw [hself, hrange.1, hrange.2]
      exact ⟨hstart, hcount, hend⟩
    · rw [hsame i hne]
      exact ho.bounds i hk
  · intro i j b hi hj hbi hbj
    rcases (hlive i).mp hi with rfl | ⟨hki, hni⟩ <;> rcases (hlive j).mp hj with rfl | ⟨hkj, hnj⟩
    · rfl
    · rw [hsame j hnj] at hbj
      exact absurd ((howns b).mp hbi) (apart j b hkj hbj)
    · rw [hsame i hni] at hbi
      exact absurd ((howns b).mp hbj) (apart i b hki hbi)
    · rw [hsame i hni] at hbi
      rw [hsame j hnj] at hbj
      exact ho.disjoint i j b hki hkj hbi hbj
  · intro b hbl hbu
    rw [hf, set_partitions_at]
    constructor
    · intro hb
      by_cases hr : start ≤ b ∧ b < start + n
      · exact ⟨c, (hlive c).mpr (Or.inl rfl), (howns b).mpr hr⟩
      · rw [if_neg hr] at hb
        obtain ⟨i, hi, hib⟩ := (ho.used b hbl hbu).mp hb
        have hne : i ≠ c := by
          rintro rfl
          exact hi.2.2 hslot
        exact ⟨i, (hlive i).mpr (Or.inr ⟨hi, hne⟩), by rw [hsame i hne]; exact hib⟩
    · rintro ⟨i, hi, hib⟩
      rcases (hlive i).mp hi with rfl | ⟨hk, hne⟩
      · rw [if_pos ((howns b).mp hib)]
      · rw [hsame i hne] at hib
        rw [if_neg (apart i b hk hib)]
        exact (ho.used b hbl hbu).mpr ⟨i, hk, hib⟩
  · intro i j hi hj he
    rcases (hlive i).mp hi with rfl | ⟨hki, hni⟩ <;> rcases (hlive j).mp hj with rfl | ⟨hkj, hnj⟩
    · rfl
    · rw [hself, hsame j hnj, hpid] at he
      have := ho.fresh j hkj
      omega
    · rw [hself, hsame i hni, hpid] at he
      have := ho.fresh i hki
      omega
    · rw [hsame i hni, hsame j hnj] at he
      exact ho.pids i j hki hkj he
  · intro i hi
    rw [hnext]
    rcases (hlive i).mp hi with rfl | ⟨hk, hne⟩
    · rw [hself, hpid]
      omega
    · rw [hsame i hne]
      have := ho.fresh i hk
      omega

theorem created_owned {host : Host} {u : Unspecified} {progName : List Char} {s : System}
    {r : OsStatus × System} (ho : Owned s.kernel) (hc : Created host u progName s r) :
    Owned r.2.kernel := by
  cases hc with
  | full => exact ho
  | refused => exact ho
  | made c entry start hi hslot _ _ hstart hcount hend hfree =>
    refine ho.add (p := createdPcb s.kernel entry start) hi hslot ?_ rfl ⟨rfl, rfl⟩ hstart hcount
      hend hfree rfl rfl rfl
    simp [createdPcb]

/-- The running process gives its partitions back: `freeMemory` cannot refuse them. -/
theorem terminated_owned {s : System} (ho : Owned s.kernel)
    (hl : Live s.kernel s.kernel.currentActiveProcess) :
    Owned (markFinished (releaseMemory s)).kernel := by
  generalize hc : s.kernel.currentActiveProcess = c at hl
  obtain ⟨hstart, hcount, hend⟩ := ho.bounds c hl
  have hok : ¬ ((s.kernel.processTable c).startBlock < 0 ∨
      (maxProcesses : Int) ≤ (s.kernel.processTable c).startBlock ∨
      (s.kernel.processTable c).blockCount ≤ 0 ∨
      (maxProcesses : Int) <
        (s.kernel.processTable c).startBlock + (s.kernel.processTable c).blockCount) := by
    simp only [maxProcesses, Nat.cast_ofNat]
    omega
  refine ho.remove hl ?_ ?_ rfl
  · rw [← hc]
    rfl
  · simp only [markFinished, releaseMemory, System.setState, System.modifyProcess,
      Kernel.modifyProcess, hc, freeMemory, if_neg hok, Option.getD_some]

theorem init_owned (s : System) : Owned (initOS s).kernel := by
  have none : ∀ i, ¬ Live (initOS s).kernel i := by
    rintro i ⟨hl, hu, hs⟩
    apply hs
    simp [initOS, forEachProcess, hl, hu]
  refine ⟨?_, ?_, ?_, ?_, ?_⟩
  · exact fun i hi => absurd hi (none i)
  · exact fun i j b hi => absurd hi (none i)
  · intro b hl hu
    constructor
    · intro hb
      simp [initOS, setPartitions, hl, hu] at hb
    · rintro ⟨i, hi, -⟩
      exact absurd hi (none i)
  · exact fun i j hi => absurd hi (none i)
  · exact fun i hi => absurd hi (none i)

theorem worked_owned {s : System} (hs : Scheduled s.kernel) (ho : Owned s.kernel)
    {r : Bool × System} (hw : Worked s r) : Owned r.2.kernel := by
  have running : s.kernel.currentActiveProcess ≠ -1 →
      Live s.kernel s.kernel.currentActiveProcess := by
    intro hc
    rcases hs.current with h | ⟨hl, hu⟩
    · exact absurd h hc
    · refine ⟨hl, hu, ?_⟩
      rw [hs.running hl]
      decide
  have same : ∀ y, SameOwners s.kernel { s.kernel with osYield := y } :=
    fun y => ⟨fun _ => Iff.rfl, fun _ _ => rfl, fun _ _ => ⟨rfl, rfl⟩, rfl, rfl⟩
  cases hw with
  | idle _ => exact ho
  | ran _ hw mon => exact ho
  | yielded _ hw mon => exact (same false).owned ho
  | blocked hc hw f hf =>
    obtain ⟨-, -, -, hfin, hpid, -, hstart, hcount⟩ :=
      blocks_kept hf (s.kernel.processTable s.kernel.currentActiveProcess)
    have hlive := (running hc).2.2
    have changed : SameOwners s.kernel
        { s.kernel.modifyProcess s.kernel.currentActiveProcess f with osYield := false } :=
      same_owners_update rfl ⟨fun h => absurd h hfin, fun h => absurd h hlive⟩ hpid
        ⟨hstart, hcount⟩ rfl rfl
    exact changed.owned ho
  | terminated hc hw mon => exact terminated_owned ho (running hc)

theorem next_owned {s : System} (hs : Scheduled s.kernel) (ho : Owned s.kernel) (e : Event) :
    Owned (next s e).kernel := by
  cases e with
  | create host u progName => exact created_owned ho (create_process_created host u progName s)
  | worker u =>
    have worked := worker_step_worked u s
    have owned := worked_owned hs ho worked
    have at_tick := (worked_at_tick hs worked).1
    rw [next, workerIteration]
    generalize workerStep u s = r at owned at_tick
    obtain ⟨ticks, t⟩ := r
    cases ticks with
    | true => exact (tick_owners at_tick.current).owned owned
    | false => exact owned
  | monitor active => exact ho
  | restart => exact init_owned _

/-- In every reachable state the live processes own disjoint partitions, exactly the used ones,
and have distinct pids already given out. -/
theorem partition_ownership (s : System) (es : List Event) :
    Owned (Trace.run next (initOS s) es).kernel := by
  have h : Scheduled (Trace.run next (initOS s) es).kernel ∧
      Owned (Trace.run next (initOS s) es).kernel :=
    Trace.run_invariant (fun t : System => Scheduled t.kernel ∧ Owned t.kernel)
      ⟨init_scheduled s, init_owned s⟩
      (fun t e _ ht => ⟨next_scheduled ht.1 e, next_owned ht.1 ht.2 e⟩)
  exact h.2

end Lucario.Proofs
