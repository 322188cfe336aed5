import Lucario.Lib.Trace

namespace Progress

variable {σ ε : Type*} {next : σ → ε → σ}

/-- Where at most `k` helpful events always bring the goal nearer, `k` events for each unit of the
distance reach it. -/
theorem reaches (Inv : σ → Prop) (Helps : ε → Prop) (distance : σ → Nat) (k : Nat)
    (keeps : ∀ s e, Inv s → Inv (next s e))
    (nearer : ∀ s, Inv s → distance s ≠ 0 → ∃ es, (∀ e ∈ es, Helps e) ∧ es.length ≤ k ∧
      distance (Trace.run next s es) < distance s) (s : σ) (h : Inv s) :
    ∃ es, (∀ e ∈ es, Helps e) ∧ es.length ≤ k * distance s ∧
      distance (Trace.run next s es) = 0 := by
  induction hn : distance s using Nat.strong_induction_on generalizing s with
  | _ n ih =>
    by_cases h0 : distance s = 0
    · exact ⟨[], fun e he => absurd he List.not_mem_nil, Nat.zero_le _, h0⟩
    · obtain ⟨es, hhelp, hlen, hless⟩ := nearer s h h0
      have inv : Inv (Trace.run next s es) :=
        Trace.run_invariant Inv h (fun t e _ ht => keeps t e ht)
      obtain ⟨es', hhelp', hlen', hzero⟩ := ih _ (hn ▸ hless) _ inv rfl
      refine ⟨es ++ es', ?_, ?_, ?_⟩
      · intro e he
        rcases List.mem_append.mp he with he | he
        · exact hhelp e he
        · exact hhelp' e he
      · have step : k * distance (Trace.run next s es) + k ≤ k * n := by
          rw [← Nat.mul_succ]
          exact Nat.mul_le_mul_left k (hn ▸ hless)
        rw [List.length_append]
        omega
      · rw [Trace.run, List.foldl_append]
        exact hzero

/-- A distance that no event increases is nowhere in a run larger than before. -/
theorem never_farther (Inv : σ → Prop) (distance : σ → Nat)
    (keeps : ∀ s e, Inv s → Inv (next s e)) {s : σ} {es : List ε} {i j : Nat}
    (kept : ∀ k e, i ≤ k → k < j → es[k]? = some e → Inv (Trace.stateAt next s es k) →
      distance (next (Trace.stateAt next s es k) e) ≤ distance (Trace.stateAt next s es k))
    (h : Inv (Trace.stateAt next s es i)) (hij : i ≤ j) (hj : j ≤ es.length) :
    distance (Trace.stateAt next s es j) ≤ distance (Trace.stateAt next s es i) := by
  have both := @Trace.stateAt_window_index _ _ next s es
    (fun k t => Inv t ∧ distance t ≤ distance (Trace.stateAt next s es i)) i j hij hj ⟨h, le_rfl⟩ (by
      rintro k e hik hkj he ⟨hinv, hle⟩
      exact ⟨keeps _ e hinv, (kept k e hik hkj he hinv).trans hle⟩)
  exact both.2

/-- A potential that every counted event lowers, unless it is excused, and that no event raises but
the paid ones, each by at most `c`, pays for them all. -/
theorem count_le_paid {s : σ} {es : List ε} (potential : σ → Int)
    (counted excused paid : σ → ε → Bool) (c : Nat) {i j : Nat} (hij : i ≤ j) (hj : j ≤ es.length)
    (lowers : ∀ k e, i ≤ k → k < j → es[k]? = some e →
      potential (next (Trace.stateAt next s es k) e) +
          (if counted (Trace.stateAt next s es k) e then 1 else 0) ≤
        potential (Trace.stateAt next s es k) +
          (if excused (Trace.stateAt next s es k) e then 1 else 0) +
          if paid (Trace.stateAt next s es k) e then (c : Int) else 0) :
    (Trace.count next s es counted i j : Int) + potential (Trace.stateAt next s es j) ≤
      potential (Trace.stateAt next s es i) + Trace.count next s es excused i j +
        c * Trace.count next s es paid i j := by
  refine Trace.stateAt_window_index (fun k t =>
    (Trace.count next s es counted i k : Int) + potential t ≤
      potential (Trace.stateAt next s es i) + Trace.count next s es excused i k +
        c * Trace.count next s es paid i k) hij hj ?_ ?_
  · simp [Trace.count_self]
  · intro k e hik hkj he h
    have step := lowers k e hik hkj he
    rw [Trace.count_succ next s es counted hik he, Trace.count_succ next s es excused hik he,
      Trace.count_succ next s es paid hik he]
    push_cast
    rw [mul_add, mul_ite, mul_one, mul_zero]
    omega

/-- The same where no event is paid. -/
theorem count_le {s : σ} {es : List ε} (potential : σ → Int) (counted excused : σ → ε → Bool)
    {i j : Nat} (hij : i ≤ j) (hj : j ≤ es.length)
    (lowers : ∀ k e, i ≤ k → k < j → es[k]? = some e →
      potential (next (Trace.stateAt next s es k) e) +
          (if counted (Trace.stateAt next s es k) e then 1 else 0) ≤
        potential (Trace.stateAt next s es k) +
          if excused (Trace.stateAt next s es k) e then 1 else 0) :
    (Trace.count next s es counted i j : Int) + potential (Trace.stateAt next s es j) ≤
      potential (Trace.stateAt next s es i) + Trace.count next s es excused i j := by
  have paid := count_le_paid potential counted excused (fun _ _ => false) 0 hij hj
    (fun k e hik hkj he => by simpa using lowers k e hik hkj he)
  simpa using paid

end Progress
