import Lucario.Proofs.FaultStops
import Lucario.Proofs.Lifetime

namespace Lucario.Proofs

structure SameProcess (p q : Pcb) : Prop where
  pid : p.pid = q.pid
  name : p.programName = q.programName
  start : p.startBlock = q.startBlock
  count : p.blockCount = q.blockCount

theorem SameProcess.refl (p : Pcb) : SameProcess p p := ⟨rfl, rfl, rfl, rfl⟩

theorem SameProcess.trans {p q r : Pcb} (h : SameProcess p q) (h' : SameProcess q r) :
    SameProcess p r :=
  ⟨h.pid.trans h'.pid, h.name.trans h'.name, h.start.trans h'.start, h.count.trans h'.count⟩

theorem stirred_same (s : System) (p : Pcb) : SameProcess (stirred s p) p := by
  have woken : SameProcess (wakeSleeper p) p := by
    rcases wake_cases p with he | ⟨-, n, he, -⟩ <;> rw [he] <;> exact ⟨rfl, rfl, rfl, rfl⟩
  have unblocked : ∀ q, SameProcess (unblockIo q) q := by
    intro q
    unfold unblockIo
    split_ifs <;> exact ⟨rfl, rfl, rfl, rfl⟩
  unfold stirred
  split_ifs
  · exact (unblocked _).trans woken
  · exact woken

theorem blocks_same {f : Pcb → Pcb} (hf : Blocks f) (p : Pcb) : SameProcess (f p) p := by
  cases hf <;> exact ⟨rfl, rfl, rfl, rfl⟩

section

variable {s : System} {p : Int}

theorem before_scan_same (hp : 0 ≤ p ∧ p < 20) :
    SameProcess ((beforeScan s).processTable p) (s.kernel.processTable p) := by
  have loops := stirred_same s (s.kernel.processTable p)
  rw [before_scan_at s hp.1 hp.2]
  split_ifs
  · exact ⟨loops.pid, loops.name, loops.start, loops.count⟩
  · exact loops

/-- A tick schedules processes, it does not make one out of another. -/
theorem tick_same (hc : ValidCurrent s.kernel.currentActiveProcess) (hp : 0 ≤ p ∧ p < 20) :
    SameProcess ((schedulerTick s).kernel.processTable p) (s.kernel.processTable p) := by
  have before := before_scan_same (s := s) hp
  rcases tick_cases hc with ⟨n, -, -, -, -, ht⟩ | ⟨-, ht⟩
  · rw [ht]
    by_cases hn : p = n
    · subst hn
      simp only [Kernel.modifyProcess, Function.update_self]
      exact ⟨before.pid, before.name, before.start, before.count⟩
    · have hslot : (Kernel.modifyProcess n (fun p => { p with state := .executing })
          { beforeScan s with currentActiveProcess := n }).processTable p =
          (beforeScan s).processTable p := Function.update_of_ne hn _ _
      dsimp only
      rw [hslot]
      exact before
  · rw [ht]
    exact before

theorem worked_same {r : Bool × System} (hw : Worked s r) :
    SameProcess (r.2.kernel.processTable p) (s.kernel.processTable p) := by
  by_cases hp : s.kernel.currentActiveProcess = p
  · subst hp
    cases hw with
    | idle _ => exact .refl _
    | ran _ hw mon => exact .refl _
    | yielded _ hw mon => exact .refl _
    | blocked _ hw f hf =>
      simp only [Kernel.modifyProcess, Function.update_self]
      exact blocks_same hf _
    | terminated _ hw mon =>
      simp only [markFinished, releaseMemory, System.setState, System.modifyProcess,
        Kernel.modifyProcess, Function.update_self]
      exact ⟨rfl, rfl, rfl, rfl⟩
  · rw [(worked_slots hw).2 p hp]
    exact .refl _

/-- As long as a process lives, its slot holds its control block. -/
theorem next_same_process {e : Event} (hc : ValidCurrent s.kernel.currentActiveProcess)
    (hlive : Live s.kernel p) (he : e ≠ .restart) :
    SameProcess ((next s e).kernel.processTable p) (s.kernel.processTable p) := by
  have hp : 0 ≤ p ∧ p < 20 := ⟨hlive.1, hlive.2.1⟩
  cases e with
  | create host u progName =>
    rw [next, (created_slots (create_process_created host u progName s)).2 p hlive.2.2]
    exact .refl _
  | worker u =>
    have worked := worker_step_worked u s
    have current := (worked_slots worked).1
    have same := worked_same (p := p) worked
    rw [next, workerIteration]
    generalize workerStep u s = r at current same
    obtain ⟨ticks, t⟩ := r
    cases ticks with
    | true =>
      have ht : ValidCurrent t.kernel.currentActiveProcess := current ▸ hc
      exact (tick_same ht hp).trans same
    | false => exact same
  | monitor active => exact .refl _
  | restart => exact absurd rfl he

/-- A restart ends every process. -/
theorem restart_ends : ¬ Live (next s .restart).kernel p := by
  rintro ⟨hl, hu, hfin⟩
  refine hfin ?_
  simp [next, handleRestartCommand, initOS, forEachProcess, hl, hu]

/-- A slot that comes to life is filled with the next pid. -/
theorem born_pid {e : Event} (hs : Scheduled s.kernel) (hdead : ¬ Live s.kernel p)
    (hlive : Live (next s e).kernel p) :
    (∃ host u progName, e = .create host u progName) ∧
      ((next s e).kernel.processTable p).pid = s.kernel.nextPid ∧
      (next s e).kernel.nextPid = s.kernel.nextPid + 1 := by
  cases e with
  | create host u progName =>
    refine ⟨⟨host, u, progName, rfl⟩, ?_⟩
    have created := create_process_created host u progName s
    rw [next] at hlive ⊢
    generalize createProcess host u progName s = r at created hlive
    cases created with
    | full => exact absurd hlive hdead
    | refused => exact absurd hlive hdead
    | made i entry start hi hslot hload hentry hstart hcount hend hblocks =>
      have hip : p = i := by
        by_contra hpi
        refine hdead ⟨hlive.1, hlive.2.1, ?_⟩
        simpa only [Function.update_of_ne hpi] using hlive.2.2
      subst hip
      simp only [Function.update_self]
      exact ⟨rfl, trivial⟩
  | worker u =>
    refine absurd ?_ hdead
    have worked := worker_step_worked u s
    have at_tick := (worked_at_tick hs worked).1
    have live : ∀ r : Bool × System, Worked s r → Live r.2.kernel p → Live s.kernel p := by
      rintro r hw ⟨hl, hu, hfin⟩
      refine ⟨hl, hu, fun hf => hfin ?_⟩
      have hne : s.kernel.currentActiveProcess ≠ p := by
        rintro rfl
        rw [hs.running hl] at hf
        cases hf
      rw [(worked_slots hw).2 p hne]
      exact hf
    rw [next, workerIteration] at hlive
    generalize workerStep u s = r at worked at_tick hlive
    obtain ⟨ticks, t⟩ := r
    cases ticks with
    | true => exact live _ worked ((tick_live at_tick.current p).mp hlive)
    | false => exact live _ worked hlive
  | monitor active => exact absurd hlive hdead
  | restart => exact absurd hlive restart_ends

def creates (s : System) : Event → Bool
  | .create host u progName => (createProcess host u progName s).1 = .success
  | _ => false

theorem tick_next_pid (s : System) : (schedulerTick s).kernel.nextPid = s.kernel.nextPid := by
  have hrest := (before_scan_rest s).2.1
  unfold schedulerTick
  dsimp only
  split <;> exact hrest

/-- Every creation that succeeds takes one pid, and nothing else does. -/
theorem next_pid_counts (s : System) {e : Event} (he : e ≠ .restart) :
    (next s e).kernel.nextPid = s.kernel.nextPid + if creates s e then 1 else 0 := by
  cases e with
  | create host u progName =>
    have created := create_process_created host u progName s
    rw [next, creates]
    generalize createProcess host u progName s = r at created
    cases created with
    | full => simp
    | refused status h => simp [h]
    | made i entry start => simp
  | worker u =>
    have worked := worker_step_worked u s
    have hsame : ∀ r : Bool × System, Worked s r → r.2.kernel.nextPid = s.kernel.nextPid := by
      intro r hw
      cases hw <;> rfl
    have hpid := hsame _ worked
    rw [next, workerIteration]
    simp only [creates, Bool.false_eq_true, if_false, Int.add_zero]
    generalize workerStep u s = r at hpid
    obtain ⟨ticks, t⟩ := r
    cases ticks with
    | true => exact (tick_next_pid t).trans hpid
    | false => exact hpid
  | monitor active => simp [next, creates]
  | restart => exact absurd rfl he

theorem next_pid_le (s : System) {e : Event} (he : e ≠ .restart) :
    s.kernel.nextPid ≤ (next s e).kernel.nextPid := by
  rw [next_pid_counts s he]
  split_ifs <;> omega

/-- A process that ends leaves nobody with its pid. -/
theorem death_gone {e : Event} (hs : Scheduled s.kernel) (ho : Owned s.kernel)
    (hlive : Live s.kernel p) (hdead : ¬ Live (next s e).kernel p) (he : e ≠ .restart) :
    Gone (next s e).kernel (s.kernel.processTable p).pid := by
  have fresh := ho.fresh p hlive
  refine ⟨fresh.trans_le (next_pid_le s he), ?_⟩
  intro i hi hpid
  by_cases hold : Live s.kernel i
  · rw [(next_same_process hs.current hold he).pid] at hpid
    obtain rfl := ho.pids i p hold hlive hpid
    exact hdead hi
  · have born := (born_pid hs hold hi).2.1
    omega

end

theorem state_at_owned (s : System) (es : List Event) (i : Nat) :
    Owned (Trace.stateAt next (initOS s) es i).kernel :=
  (Trace.stateAt_invariant (fun t : System => Scheduled t.kernel ∧ Owned t.kernel)
    ⟨init_scheduled s, init_owned s⟩
    (fun _ e _ h => ⟨next_scheduled h.1 e, next_owned h.1 h.2 e⟩) i).2

section

variable {s : System} {es : List Event} {i k : Nat} {p : Int}

/-- A process that lived at index `i` lives on in its slot, or its pid is out of use. -/
theorem lives_or_gone (hr : ∀ e ∈ es, e ≠ .restart) (hik : i ≤ k) (hk : k ≤ es.length)
    (hp : Live (Trace.stateAt next (initOS s) es i).kernel p) :
    ((∀ l, i ≤ l → l ≤ k → Live (Trace.stateAt next (initOS s) es l).kernel p) ∧
      SameProcess ((Trace.stateAt next (initOS s) es k).kernel.processTable p)
        ((Trace.stateAt next (initOS s) es i).kernel.processTable p)) ∨
    Gone (Trace.stateAt next (initOS s) es k).kernel
      ((Trace.stateAt next (initOS s) es i).kernel.processTable p).pid := by
  induction k, hik using Nat.le_induction with
  | base =>
    refine Or.inl ⟨?_, .refl _⟩
    intro l hl hl'
    obtain rfl : l = i := by omega
    exact hp
  | succ k hik ih =>
    have he : es[k]? = some es[k] := List.getElem?_eq_getElem (by omega)
    have hne := hr _ (List.getElem_mem (by omega : k < es.length))
    have hs := state_at_scheduled s es k
    have ho : Owned (Trace.stateAt next (initOS s) es k).kernel := state_at_owned s es k
    rw [Trace.stateAt_succ he]
    rcases ih (by omega) with ⟨hlive, same⟩ | gone
    · have hold := hlive k hik le_rfl
      by_cases hnew : Live (next (Trace.stateAt next (initOS s) es k) es[k]).kernel p
      · refine Or.inl ⟨?_, (next_same_process hs.current hold hne).trans same⟩
        intro l hl hl'
        rcases Nat.lt_or_eq_of_le hl' with hlt | rfl
        · exact hlive l hl (by omega)
        · rw [Trace.stateAt_succ he]
          exact hnew
      · refine Or.inr ?_
        rw [← same.pid]
        exact death_gone hs ho hold hnew hne
    · exact Or.inr (next_gone hs gone hne)

/-- Without a restart a pid names one process for good: whoever has it later is the same process,
in the same slot with its name and its partitions, and has been alive all the time. The pids are
given out in the order of the creations that succeed. -/
theorem pid_names_one_process (s : System) (es : List Event) (hr : ∀ e ∈ es, e ≠ .restart) :
    (∀ k, k ≤ es.length → (Trace.stateAt next (initOS s) es k).kernel.nextPid =
      1 + (Trace.count next (initOS s) es creates 0 k : Nat)) ∧
    ∀ (i k : Nat) (p q : Int), i ≤ k → k ≤ es.length →
      Live (Trace.stateAt next (initOS s) es i).kernel p →
      Live (Trace.stateAt next (initOS s) es k).kernel q →
      ((Trace.stateAt next (initOS s) es k).kernel.processTable q).pid =
        ((Trace.stateAt next (initOS s) es i).kernel.processTable p).pid →
      q = p ∧ SameProcess ((Trace.stateAt next (initOS s) es k).kernel.processTable q)
          ((Trace.stateAt next (initOS s) es i).kernel.processTable p) ∧
        ∀ l, i ≤ l → l ≤ k → Live (Trace.stateAt next (initOS s) es l).kernel p := by
  constructor
  · intro k hk
    induction k with
    | zero => simp [Trace.stateAt, Trace.run, Trace.count_self, initOS]
    | succ k ih =>
      have he : es[k]? = some es[k] := List.getElem?_eq_getElem (by omega)
      have hne := hr _ (List.getElem_mem (by omega : k < es.length))
      rw [Trace.stateAt_succ he, next_pid_counts _ hne, ih (by omega),
        Trace.count_succ _ _ _ _ (Nat.zero_le k) he]
      split_ifs <;> push_cast <;> omega
  · intro i k p q hik hk hp hq hpid
    rcases lives_or_gone hr hik hk hp with ⟨hlive, same⟩ | gone
    · have hqp : q = p :=
        (state_at_owned s es k).pids q p hq (hlive k hik le_rfl) (hpid.trans same.pid.symm)
      subst hqp
      exact ⟨rfl, same, hlive⟩
    · exact absurd hpid (gone.2 q hq)

theorem pid_names_one_process_readers :
    (Trace.stateAt next (boot zeroKeys) (readers 3) 4).kernel.nextPid =
      1 + (Trace.count next (boot zeroKeys) (readers 3) creates 0 4 : Nat) := by
  refine (pid_names_one_process (powerOn zeroKeys) (readers 3) ?_).1 4 (by decide)
  intro e he
  simp only [readers, session, List.mem_cons, List.mem_replicate] at he
  rcases he with rfl | rfl | ⟨-, rfl⟩ <;> exact Event.noConfusion

end

end Lucario.Proofs
