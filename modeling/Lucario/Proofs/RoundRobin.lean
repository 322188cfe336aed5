import Lucario.Proofs.Scheduling
import Lucario.Proofs.Sessions

namespace Lucario.Proofs

def readyAtScan (s : System) (p : Int) : Prop := ((beforeScan s).processTable p).state = .ready

/-- How many slots the scan passes before `p` when `c` is the running slot. -/
def lag (c p : Int) : Int := CyclicScan.distance 20 (c + 1) p

/-- The states in which successive ticks are made. Whatever creates, terminates, blocks or wakes
processes in between is free to do so as long as it leaves the choice of the last tick alone. -/
structure TickRun (ts : List System) : Prop where
  start : ∀ s, ts[0]? = some s → ValidCurrent s.kernel.currentActiveProcess
  link : ∀ k s t, ts[k]? = some s → ts[k + 1]? = some t →
    t.kernel.currentActiveProcess = dispatched s

theorem dispatched_valid {s : System} (hc : ValidCurrent s.kernel.currentActiveProcess) :
    ValidCurrent (dispatched s) := by
  unfold dispatched
  rcases tick_cases hc with ⟨n, hl, hu, -, -, ht⟩ | ⟨-, ht⟩
  · rw [ht]
    exact Or.inr ⟨hl, hu⟩
  · rw [ht]
    exact Or.inl rfl

theorem TickRun.valid {ts : List System} (h : TickRun ts) {k : Nat} {s : System}
    (hs : ts[k]? = some s) : ValidCurrent s.kernel.currentActiveProcess := by
  induction k generalizing s with
  | zero => exact h.start s hs
  | succ k ih =>
    have hk : k < ts.length := by
      have := (List.getElem?_eq_some_iff.mp hs).1
      omega
    have hprev := List.getElem?_eq_getElem hk
    rw [h.link k _ s hprev hs]
    exact dispatched_valid (ih hprev)

/-- A tick that passes over a ready slot leaves the next scan strictly fewer slots before it. -/
theorem lag_decreases {s : System} (hc : ValidCurrent s.kernel.currentActiveProcess) {p : Int}
    (hl : 0 ≤ p) (hu : p < 20) (hready : readyAtScan s p) (hne : dispatched s ≠ p) :
    lag (dispatched s) p < lag s.kernel.currentActiveProcess p := by
  unfold dispatched at hne ⊢
  rcases tick_cases hc with ⟨n, -, -, -, hfind, ht⟩ | ⟨hnone, -⟩
  · rw [ht] at hne ⊢
    change n ≠ p at hne
    rw [findNext, before_scan_current, scan_order_eq hc] at hfind
    exact CyclicScan.passed_over hfind (decide_eq_true hready) hl (by simpa using hu) hne
  · exact absurd hready (hnone p hl hu)

/-- Along a window of ticks that all pass over the ready slot `p` the lag keeps falling. -/
theorem lag_window {ts : List System} (h : TickRun ts) {p : Int} (hl : 0 ≤ p) (hu : p < 20)
    {a n : Nat} {s t : System} (hs : ts[a]? = some s) (ht : ts[a + n]? = some t)
    (hpass : ∀ k r, a ≤ k → k ≤ a + n → ts[k]? = some r → readyAtScan r p ∧ dispatched r ≠ p) :
    lag (dispatched t) p + n + 1 ≤ lag s.kernel.currentActiveProcess p := by
  induction n generalizing t with
  | zero =>
    obtain rfl : s = t := Option.some.inj (hs.symm.trans ht)
    obtain ⟨hready, hne⟩ := hpass a s le_rfl (by omega) hs
    have := lag_decreases (h.valid hs) hl hu hready hne
    simpa using this
  | succ n ih =>
    have hk : a + n < ts.length := by
      have := (List.getElem?_eq_some_iff.mp ht).1
      omega
    have hprev := List.getElem?_eq_getElem hk
    have hfall := ih hprev (fun k r ha hb hr => hpass k r ha (by omega) hr)
    obtain ⟨hready, hne⟩ := hpass (a + (n + 1)) t (by omega) le_rfl ht
    have hstep := lag_decreases (h.valid ht) hl hu hready hne
    rw [h.link (a + n) _ t hprev ht] at hstep
    push_cast
    omega

/-- Outside their ticks events leave the choice of the running slot alone. -/
theorem next_current {s : System} {e : Event} (hr : e ≠ .restart) (ht : tickAt s e = none) :
    (next s e).kernel.currentActiveProcess = s.kernel.currentActiveProcess := by
  cases e with
  | create host u progName =>
    exact (created_slots (create_process_created host u progName s)).1
  | worker u =>
    have worked := worker_step_worked u s
    rw [next_without_tick ht] at worked
    exact (worked_slots worked).1
  | monitor active => rfl
  | restart => exact absurd rfl hr

theorem tick_current {s t : System} {e : Event} (h : tickAt s e = some t) :
    t.kernel.currentActiveProcess = s.kernel.currentActiveProcess :=
  (worked_slots (tick_worked h)).1

def tickStates (s : System) : List Event → List System
  | [] => []
  | e :: es => (tickAt s e).toList ++ tickStates (next s e) es

theorem tick_states_link {s : System} {es : List Event} (hr : ∀ e ∈ es, e ≠ .restart) :
    (∀ t, (tickStates s es)[0]? = some t →
      t.kernel.currentActiveProcess = s.kernel.currentActiveProcess) ∧
    ∀ k t t', (tickStates s es)[k]? = some t → (tickStates s es)[k + 1]? = some t' →
      t'.kernel.currentActiveProcess = dispatched t := by
  induction es generalizing s with
  | nil =>
    refine ⟨?_, ?_⟩
    · intro t ht
      cases ht
    · intro k t t' ht
      cases ht
  | cons e es ih =>
    obtain ⟨hfirst, hlink⟩ := ih (s := next s e) (fun d hd => hr d (List.mem_cons_of_mem e hd))
    rw [tickStates]
    cases htick : tickAt s e with
    | none =>
      have hcur := next_current (hr e List.mem_cons_self) htick
      exact ⟨fun t ht => (hfirst t ht).trans hcur, hlink⟩
    | some u =>
      have hnext : (next s e).kernel.currentActiveProcess = dispatched u := by
        rw [next_of_tick htick]
        rfl
      refine ⟨?_, ?_⟩
      · intro t ht
        obtain rfl : u = t := Option.some.inj ht
        exact tick_current htick
      · intro k t t' ht ht'
        cases k with
        | zero =>
          obtain rfl : u = t := Option.some.inj ht
          exact (hfirst t' ht').trans hnext
        | succ k => exact hlink k t t' ht ht'

/-- The ticks of every run of the system are such a sequence. -/
theorem run_tick_run (s : System) {es : List Event} (hr : ∀ e ∈ es, e ≠ .restart) :
    TickRun (tickStates (initOS s) es) := by
  obtain ⟨hfirst, hlink⟩ := tick_states_link (s := initOS s) hr
  refine ⟨?_, hlink⟩
  intro t ht
  rw [hfirst t ht]
  exact Or.inl rfl

/-- No slot is dispatched twice while another waits ready, because every tick that passes over a
ready slot comes strictly closer to it, and so a ready slot is dispatched within one round. -/
theorem round_robin {ts : List System} (h : TickRun ts) {p : Int} (hl : 0 ≤ p) (hu : p < 20) :
    (∀ (a b : Nat) s t q, a < b → ts[a]? = some s → ts[b]? = some t → q ≠ p →
      dispatched s = q → dispatched t = q →
      ¬ ∀ (k : Nat) r, a < k → k ≤ b → ts[k]? = some r → readyAtScan r p ∧ dispatched r ≠ p) ∧
    (∀ (k : Nat) s, ts[k]? = some s → readyAtScan s p → dispatched s ≠ p →
      lag (dispatched s) p < lag s.kernel.currentActiveProcess p) ∧
    (∀ (a : Nat), a + 20 ≤ ts.length →
      (∀ (k : Nat) r, a ≤ k → k < a + 20 → ts[k]? = some r →
        (∀ (j : Nat) r', a ≤ j → j < k → ts[j]? = some r' → dispatched r' ≠ p) → readyAtScan r p) →
      ∃ (k : Nat) (r : System), a ≤ k ∧ k < a + 20 ∧ ts[k]? = some r ∧ dispatched r = p) := by
  refine ⟨?_, ?_, ?_⟩
  · intro a b s t q hab hs ht _ hq hq' hpass
    have hb : b < ts.length := (List.getElem?_eq_some_iff.mp ht).1
    have hnext : ts[a + 1]? = some ts[a + 1] := List.getElem?_eq_getElem (by omega)
    obtain ⟨n, rfl⟩ : ∃ n, b = a + 1 + n := ⟨b - (a + 1), by omega⟩
    have hfall := lag_window h hl hu hnext ht (fun k r ha hb hr => hpass k r (by omega) hb hr)
    rw [h.link a s _ hs hnext, hq, hq'] at hfall
    omega
  · intro k s hs hready hne
    exact lag_decreases (h.valid hs) hl hu hready hne
  · intro a hlen hready
    by_contra hnever
    have hpast : ∀ k r, a ≤ k → k < a + 20 → ts[k]? = some r → dispatched r ≠ p := by
      intro k r ha hk hr hd
      exact hnever ⟨k, r, ha, hk, hr, hd⟩
    have hs : ts[a]? = some ts[a] := List.getElem?_eq_getElem (by omega)
    have ht : ts[a + 19]? = some ts[a + 19] := List.getElem?_eq_getElem (by omega)
    have hfall := lag_window h hl hu hs ht (by
      intro k r ha hk hr
      refine ⟨hready k r ha (by omega) hr ?_, hpast k r ha (by omega) hr⟩
      intro j r' hj hjk hr'
      exact hpast j r' hj (by omega) hr')
    have hlow := (CyclicScan.distance_bounds (n := 20) (dispatched ts[a + 19] + 1) p (by omega)).1
    have hhigh := (CyclicScan.distance_bounds (n := 20)
      (ts[a].kernel.currentActiveProcess + 1) p (by omega)).2
    simp only [lag, Nat.cast_ofNat] at hfall hhigh
    omega

theorem round_robin_readers :
    ∃ s, (tickStates (boot zeroKeys) (readers 1))[0]? = some s ∧
      lag (dispatched s) 1 < lag s.kernel.currentActiveProcess 1 := by
  have ticks : TickRun (tickStates (boot zeroKeys) (readers 1)) := by
    refine run_tick_run (powerOn zeroKeys) ?_
    intro e he
    simp only [readers, session, List.mem_cons, List.mem_replicate] at he
    rcases he with rfl | rfl | ⟨-, rfl⟩ <;> exact Event.noConfusion
  have first : (tickStates (boot zeroKeys) (readers 1))[0]?.map (fun s =>
      (((beforeScan s).processTable 1).state, dispatched s)) = some (.ready, 0) := by
    decide +kernel
  obtain ⟨s, hs, heq⟩ := Option.map_eq_some_iff.mp first
  obtain ⟨hready, hother⟩ := Prod.mk.inj heq
  have falls := (round_robin ticks (p := 1) (by decide) (by decide)).2.1
  exact ⟨s, hs, falls 0 s hs hready (by omega)⟩

end Lucario.Proofs
