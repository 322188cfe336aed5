import Lucario.Lib.Progress
import Lucario.Proofs.Handshake

namespace Lucario.Proofs

def deviceDistance : DevicePhase → Nat
  | .unlock => 13
  | .lock | .waiting | .woken => 12
  | .test => 11
  | .start => 10
  | .choose => 9
  | .release _ => 8
  | .enter _ => 7
  | .access _ => 6
  | .leave _ => 5
  | .relock _ => 4
  | .store _ => 3
  | .report _ => 2
  | .complete => 1

/-- How far SDMAON is from its return. -/
def distance (b : Bus) : Nat :=
  match b.processor with
  | .elsewhere => 0
  | .lock => 18
  | .request => 17
  | .signal => 16
  | .unlock => 15
  | .spin => if b.hw.dma.pending then 1 + deviceDistance b.device else 1

def Helps (e : BusEvent) : Prop := e = .processor ∨ e = .device ∨ e = .console

section

variable {b : Bus} {e : BusEvent}

theorem distance_zero : distance b = 0 ↔ b.processor = .elsewhere := by
  unfold distance
  cases hp : b.processor with
  | spin =>
    dsimp only
    split_ifs <;> simp
  | _ => simp

theorem device_distance_le (phase : DevicePhase) : deviceDistance phase ≤ 13 := by
  cases phase <;> simp [deviceDistance]

theorem distance_le : distance b ≤ 18 := by
  have := device_distance_le b.device
  unfold distance
  cases b.processor with
  | spin =>
    dsimp only
    split_ifs <;> omega
  | _ => simp

/-- Only what the waiting loop depends on matters. -/
theorem distance_kept {b' : Bus} (hp : b'.processor = b.processor)
    (hspin : b.processor = .spin → b'.hw.dma.pending = b.hw.dma.pending ∧
      (b.hw.dma.pending = true → deviceDistance b'.device = deviceDistance b.device)) :
    distance b' = distance b := by
  unfold distance
  rw [hp]
  cases hproc : b.processor with
  | spin =>
    obtain ⟨hpend, hdevice⟩ := hspin hproc
    dsimp only
    rw [hpend]
    split_ifs with h
    · rw [hdevice h]
    · rfl
  | _ => rfl

theorem spin_distance (hp : b.processor = .spin) (h : b.hw.dma.pending = true) :
    distance b = 1 + deviceDistance b.device := by
  rw [distance, hp]
  exact if_pos h

/-- Each step of the CPU thread that is not kept waiting counts. -/
theorem processor_nearer (hc : Coherent b) (hne : b.processor ≠ .elsewhere)
    (hlock : b.processor = .lock → b.holder = none)
    (hspin : b.processor = .spin → b.hw.dma.pending = false) :
    distance (processorStep b) < distance b := by
  unfold processorStep distance Bus.acquire
  cases hp : b.processor with
  | elsewhere => exact absurd hp hne
  | lock =>
    dsimp only
    rw [if_pos (hlock hp)]
    simp
  | request => simp
  | signal => simp
  | unlock =>
    have := device_distance_le b.device
    dsimp only
    rw [if_pos (hc.request (Or.inr hp))]
    omega
  | spin =>
    have quiet := hspin hp
    simp [quiet]

theorem device_counts (hpend : b.hw.dma.pending = true) (hwait : b.device ≠ .waiting)
    (hfree : DeviceInside b.device ∨ b.holder = none) :
    deviceDistance (deviceStep b).device < deviceDistance b.device ∨
      b.device = .complete ∧ (deviceStep b).hw.dma.pending = false := by
  obtain ⟨hw, holder, processor, locals, inst, failed, device, console, seen⟩ := b
  dsimp only at hpend hwait hfree
  unfold deviceStep Bus.acquire
  cases device with
  | lock | woken | enter | relock =>
    obtain rfl : holder = none := hfree.resolve_left id
    exact Or.inl (by simp [deviceDistance])
  | waiting => exact absurd rfl hwait
  | test =>
    dsimp only
    rw [if_pos hpend]
    exact Or.inl (by simp [deviceDistance])
  | choose =>
    dsimp only
    split_ifs <;> exact Or.inl (by simp [deviceDistance])
  | access access =>
    cases access with
    | read => exact Or.inl (by simp [deviceDistance])
    | write data =>
      dsimp only
      split <;> exact Or.inl (by simp [deviceDistance])
  | store result =>
    rcases result with status | _ | data <;> exact Or.inl (by simp [deviceDistance])
  | complete => exact Or.inr ⟨rfl, rfl⟩
  | start | release | leave | report | unlock => exact Or.inl (by simp [deviceDistance])

/-- Once a request is pending each step of the device that does not find the lock taken brings
SDMAON nearer to its return. -/
theorem device_nearer (hp : b.processor = .spin) (hpend : b.hw.dma.pending = true)
    (hwait : b.device ≠ .waiting) (hfree : DeviceInside b.device ∨ b.holder = none) :
    distance (deviceStep b) < distance b := by
  have hproc : (deviceStep b).processor = .spin := (device_locals b).1.trans hp
  rw [spin_distance hp hpend, distance, hproc]
  dsimp only
  rcases device_counts hpend hwait hfree with hless | ⟨hcomplete, hdone⟩
  · split_ifs <;> omega
  · simp [hdone, hcomplete, deviceDistance]

/-- The console gives the lock back in two steps, and that is all they change. -/
theorem console_releases (hc : Coherent b) : ∃ es, (∀ e ∈ es, Helps e) ∧ es.length ≤ 2 ∧
    (Trace.run busNext b es).holder ≠ some .console ∧
    distance (Trace.run busNext b es) = distance b := by
  by_cases hcon : b.holder = some .console
  · have inside := hc.console.mpr hcon
    have helps : ∀ n, ∀ e ∈ List.replicate n BusEvent.console, Helps e :=
      fun n e he => Or.inr (Or.inr (List.eq_of_mem_replicate he))
    cases hphase : b.console with
    | idle | enter =>
      rw [hphase] at inside
      exact inside.elim
    | access physAddr data =>
      refine ⟨List.replicate 2 .console, helps 2, le_rfl, ?_, ?_⟩
      · simp [Trace.run, busNext, consoleStep, hphase]
      · simp [Trace.run, busNext, consoleStep, hphase, distance, perform_dma]
    | leave =>
      refine ⟨List.replicate 1 .console, helps 1, by decide, ?_, ?_⟩
      · simp [Trace.run, busNext, consoleStep, hphase]
      · simp [Trace.run, busNext, consoleStep, hphase, distance]
  · exact ⟨[], fun e he => absurd he List.not_mem_nil, Nat.zero_le _, hcon, rfl⟩

/-- With the console out of the way a step or two of the other threads bring the return nearer. -/
theorem call_nearer (hc : Coherent b) (hne : b.processor ≠ .elsewhere)
    (hcon : b.holder ≠ some .console) : ∃ es, (∀ e ∈ es, Helps e) ∧ es.length ≤ 2 ∧
      distance (Trace.run busNext b es) < distance b := by
  have single : ∀ e, Helps e → distance (busNext b e) < distance b → ∃ es,
      (∀ e ∈ es, Helps e) ∧ es.length ≤ 2 ∧ distance (Trace.run busNext b es) < distance b :=
    fun e he hless => ⟨[e], fun d hd => List.mem_singleton.mp hd ▸ he, by simp, hless⟩
  by_cases hserved : b.processor = .spin ∧ b.hw.dma.pending = true
  · obtain ⟨hp, hpend⟩ := hserved
    have hwait : b.device ≠ .waiting := by
      intro hw
      have := hc.notified hw hpend
      rw [hp] at this
      cases this
    have hfree : DeviceInside b.device ∨ b.holder = none := by
      cases hh : b.holder with
      | none => exact Or.inr rfl
      | some thread =>
        cases thread with
        | device => exact Or.inl (hc.device.mpr hh)
        | console => exact absurd hh hcon
        | processor =>
          have inside := hc.processor.mpr hh
          rw [hp] at inside
          exact inside.elim
    exact single .device (Or.inr (Or.inl rfl)) (device_nearer hp hpend hwait hfree)
  have hspin : b.processor = .spin → b.hw.dma.pending = false :=
    fun hp => by simpa using fun hpend => hserved ⟨hp, hpend⟩
  by_cases hlock : b.processor = .lock → b.holder = none
  · exact single .processor (Or.inl rfl) (processor_nearer hc hne hlock hspin)
  · -- the device holds the lock and is about to give it back
    obtain ⟨hp, htaken⟩ := Classical.not_imp.mp hlock
    have hdevice : b.holder = some .device := by
      cases hh : b.holder with
      | none => exact absurd hh htaken
      | some thread =>
        cases thread with
        | device => rfl
        | console => exact absurd hh hcon
        | processor =>
          have inside := hc.processor.mpr hh
          rw [hp] at inside
          exact inside.elim
    have inside := hc.device.mpr hdevice
    have rest := hc.at_rest (by rw [hp]; decide)
    have quiet : b.hw.dma.pending = false := by
      by_contra hno
      have := hc.requested (by simpa using hno)
      simp [hp] at this
    have released : (deviceStep b).holder = none := by
      unfold deviceStep
      cases hd : b.device <;> rw [hd] at inside rest <;>
        first | exact inside.elim | exact absurd trivial rest | simp [quiet]
    have hproc : (deviceStep b).processor = .lock := (device_locals b).1.trans hp
    refine ⟨[.device, .processor], ?_, le_rfl, ?_⟩
    · intro e he
      simp only [List.mem_cons, List.not_mem_nil, or_false] at he
      rcases he with rfl | rfl
      · exact Or.inr (Or.inl rfl)
      · exact Or.inl rfl
    · have nearer := processor_nearer (bus_next_coherent hc .device) (by
        rw [busNext, hproc]
        decide) (fun _ => released) (fun hs => by rw [busNext, hproc] at hs; cases hs)
      have same : distance (deviceStep b) = distance b := by
        simp only [distance, hproc, hp]
      rw [busNext, same] at nearer
      exact nearer

theorem act_frame (act : ConsoleAct) (b : Bus) : (beginAct act b).processor = b.processor ∧
    (beginAct act b).device = b.device ∧ (beginAct act b).hw.dma = b.hw.dma := by
  unfold beginAct
  cases b.console with
  | idle =>
    cases act with
    | writeWord => exact ⟨rfl, rfl, rfl⟩
    | readSector | writeSector => exact ⟨rfl, rfl, perform_dma _ _ _⟩
  | _ => exact ⟨rfl, rfl, rfl⟩

theorem console_frame (b : Bus) : (consoleStep b).processor = b.processor ∧
    (consoleStep b).device = b.device ∧ (consoleStep b).hw.dma = b.hw.dma := by
  unfold consoleStep Bus.acquire
  cases b.console with
  | enter =>
    dsimp only
    split_ifs <;> exact ⟨rfl, rfl, rfl⟩
  | access => exact ⟨rfl, rfl, perform_dma _ _ _⟩
  | _ => exact ⟨rfl, rfl, rfl⟩

/-- Nor does any step of any thread lead away from the return. -/
theorem never_set_back (hc : Coherent b) (hne : b.processor ≠ .elsewhere) (e : BusEvent) :
    distance (busNext b e) ≤ distance b := by
  cases e with
  | instruction u inst =>
    rw [busNext, beginInstruction, if_pos hne]
  | processor =>
    by_cases hlock : b.processor = .lock → b.holder = none
    · by_cases hspin : b.processor = .spin → b.hw.dma.pending = false
      · exact (processor_nearer hc hne hlock hspin).le
      · obtain ⟨hp, hpend⟩ := Classical.not_imp.mp hspin
        have hpend' : b.hw.dma.pending = true := by simpa using hpend
        rw [busNext, processorStep, hp]
        dsimp only
        rw [if_pos hpend']
    · obtain ⟨hp, htaken⟩ := Classical.not_imp.mp hlock
      rw [busNext, processorStep, hp]
      dsimp only [Bus.acquire]
      rw [if_neg htaken]
  | device =>
    have hproc := (device_locals b).1
    by_cases hserved : b.processor = .spin ∧ b.hw.dma.pending = true
    · by_cases hfree : b.device ≠ .waiting ∧ (DeviceInside b.device ∨ b.holder = none)
      · exact (device_nearer hserved.1 hserved.2 hfree.1 hfree.2).le
      · have stays : deviceStep b = b := by
          unfold deviceStep Bus.acquire
          cases hd : b.device <;> rw [hd] at hfree <;> simp_all [DeviceInside]
        rw [busNext, stays]
    · refine (distance_kept hproc (fun hp => ?_)).le
      have quiet : ¬ Serving b.device := fun hs => hserved (hc.serving hs)
      rw [(device_rests quiet).1]
      exact ⟨rfl, fun hpend => absurd ⟨hp, hpend⟩ hserved⟩
  | spurious =>
    simp only [busNext]
    split
    · rename_i hd
      refine (@distance_kept b { b with device := .woken } rfl (fun _ => ⟨rfl, fun _ => ?_⟩)).le
      rw [hd]
      rfl
    · exact le_rfl
  | act act =>
    obtain ⟨hproc, hdevice, hdma⟩ := act_frame act b
    exact (distance_kept hproc (fun _ => ⟨congrArg Dma.pending hdma,
      fun _ => congrArg deviceDistance hdevice⟩)).le
  | console =>
    obtain ⟨hproc, hdevice, hdma⟩ := console_frame b
    exact (distance_kept hproc (fun _ => ⟨congrArg Dma.pending hdma,
      fun _ => congrArg deviceDistance hdevice⟩)).le

theorem state_at_coherent (hw : Machine) (es : List BusEvent) (i : Nat) :
    Coherent (Trace.stateAt busNext (busStart hw) es i) :=
  Trace.stateAt_invariant Coherent (start_coherent hw) (fun _ e _ h => bus_next_coherent h e) i

/-- The critical section of SDMAON, those of the DMA thread and those of the console exclude each
other, and while the device works on its registers, the disk and the pending interrupts, the CPU
thread does nothing but wait for it. -/
structure Exclusive (b : Bus) : Prop where
  device : ¬ (ProcessorInside b.processor ∧ DeviceInside b.device)
  console : ¬ (ProcessorInside b.processor ∧ ConsoleInside b.console)
  both : ¬ (DeviceInside b.device ∧ ConsoleInside b.console)
  waits : Serving b.device → b.processor = .spin ∧ b.hw.dma.pending = true

theorem bus_exclusive (hw : Machine) (es : List BusEvent) (i : Nat) :
    Exclusive (Trace.stateAt busNext (busStart hw) es i) := by
  obtain ⟨hproc, hdev, hcon, -, -, hserve, -⟩ := state_at_coherent hw es i
  refine ⟨?_, ?_, ?_, hserve⟩ <;> rintro ⟨h1, h2⟩
  · cases (hproc.mp h1).symm.trans (hdev.mp h2)
  · cases (hproc.mp h1).symm.trans (hcon.mp h2)
  · cases (hdev.mp h1).symm.trans (hcon.mp h2)

/-- At most four steps bring a call nearer to its return. -/
theorem return_nearer (hc : Coherent b) (hne : distance b ≠ 0) : ∃ es, (∀ e ∈ es, Helps e) ∧
    es.length ≤ 4 ∧ distance (Trace.run busNext b es) < distance b := by
  obtain ⟨first, hfirst, hlen, hfree, hsame⟩ := console_releases hc
  have hc' : Coherent (Trace.run busNext b first) :=
    Trace.run_invariant Coherent hc (fun t e _ ht => bus_next_coherent ht e)
  have hne' : (Trace.run busNext b first).processor ≠ .elsewhere := by
    intro hp
    exact hne (hsame ▸ distance_zero.mpr hp)
  obtain ⟨rest, hrest, hlen', hless⟩ := call_nearer hc' hne' hfree
  refine ⟨first ++ rest, ?_, ?_, ?_⟩
  · intro e he
    rcases List.mem_append.mp he with he | he
    · exact hfirst e he
    · exact hrest e he
  · rw [List.length_append]
    omega
  · rw [Trace.run, List.foldl_append]
    exact hsame ▸ hless

/-- SDMAON always returns. In every state that any interleaving of the threads reaches no wakeup is
lost and nobody is stuck: seventy-two steps of the CPU thread and of those it depends on are
enough, and whatever the threads do meanwhile, spurious wakeups and new requests for the lock
included, never leads further away. -/
theorem transfer_returns (hw : Machine) (es : List BusEvent) (i : Nat) :
    (∃ es', (∀ e ∈ es', Helps e) ∧ es'.length ≤ 72 ∧
      (Trace.run busNext (Trace.stateAt busNext (busStart hw) es i) es').processor = .elsewhere) ∧
    ∀ j, i ≤ j → j ≤ es.length →
      (∀ k, i ≤ k → k < j → (Trace.stateAt busNext (busStart hw) es k).processor ≠ .elsewhere) →
      distance (Trace.stateAt busNext (busStart hw) es j) ≤
        distance (Trace.stateAt busNext (busStart hw) es i) := by
  have coherent := state_at_coherent hw es i
  have keeps := fun b e (h : Coherent b) => bus_next_coherent h e
  constructor
  · obtain ⟨es', hhelp, hlen, hzero⟩ := Progress.reaches Coherent Helps distance 4 keeps
      (fun b => return_nearer) _ coherent
    have hfar : distance (Trace.stateAt busNext (busStart hw) es i) ≤ 18 := distance_le
    exact ⟨es', hhelp, by omega, distance_zero.mp hzero⟩
  · intro j hij hj hinside
    exact Progress.never_farther Coherent distance keeps
      (fun k e hik hkj _ hc => never_set_back hc (hinside k hik hkj) e) coherent hij hj

end

end Lucario.Proofs
