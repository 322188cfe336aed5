import Lucario.Lib.Trace

namespace Simulation

variable {σ ε τ ω : Type*} {step : τ → List ω → τ → Prop}

/-- The runs of a system whose steps show something, with all they show, in order. -/
inductive Steps (step : τ → List ω → τ → Prop) : τ → List ω → τ → Prop where
  | refl (t : τ) : Steps step t [] t
  | tail {t t' t'' : τ} {os o : List ω} (run : Steps step t os t') (last : step t' o t'') :
    Steps step t (os ++ o) t''

theorem Steps.single {t t' : τ} {o : List ω} (h : step t o t') : Steps step t o t' :=
  .tail (.refl t) h

theorem Steps.trans {t t' t'' : τ} {os os' : List ω} (h : Steps step t os t')
    (h' : Steps step t' os' t'') : Steps step t (os ++ os') t'' := by
  induction h' with
  | refl => rwa [List.append_nil]
  | tail run last ih =>
    rw [← List.append_assoc]
    exact .tail ih last

/-- A run is empty or starts with a step. -/
theorem Steps.cases_head {t t' : τ} {os : List ω} (h : Steps step t os t') :
    (os = [] ∧ t' = t) ∨ ∃ o u os', step t o u ∧ Steps step u os' t' ∧ os = o ++ os' := by
  induction h with
  | refl => exact Or.inl ⟨rfl, rfl⟩
  | tail run last ih =>
    right
    rcases ih with ⟨rfl, rfl⟩ | ⟨o, u, os', first, rest, rfl⟩
    · exact ⟨_, _, [], last, .refl _, by simp⟩
    · exact ⟨o, u, _, first, .tail rest last, List.append_assoc _ _ _⟩

def shown (o : Nat → List ω) (i j : Nat) : List ω := (List.range' i (j - i)).flatMap o

theorem shown_self (o : Nat → List ω) (i : Nat) : shown o i i = [] := by
  simp [shown]

theorem shown_succ (o : Nat → List ω) {i j : Nat} (hij : i ≤ j) :
    shown o i (j + 1) = shown o i j ++ o j := by
  have hlen : j + 1 - i = j - i + 1 := by omega
  have hlast : i + (j - i) = j := by omega
  simp [shown, hlen, hlast, List.range'_concat]

theorem shown_congr {o o' : Nat → List ω} {i j : Nat} (h : ∀ k, i ≤ k → k < j → o k = o' k) :
    shown o i j = shown o' i j := by
  refine List.flatMap_congr ?_
  intro k hk
  rw [List.mem_range'_1] at hk
  exact h k hk.1 (by omega)

/-- What is shown is at least as long as the events that show something are many. -/
theorem count_le_shown (next : σ → ε → σ) (s : σ) (es : List ε) (shows excused : σ → ε → Bool)
    (o : Nat → List ω) {i j : Nat} (hij : i ≤ j) (hj : j ≤ es.length)
    (h : ∀ k e, i ≤ k → k < j → es[k]? = some e →
      (if shows (Trace.stateAt next s es k) e then 1 else 0) ≤
        (o k).length + if excused (Trace.stateAt next s es k) e then 1 else 0) :
    Trace.count next s es shows i j ≤
      (shown o i j).length + Trace.count next s es excused i j := by
  induction j, hij using Nat.le_induction with
  | base => simp [Trace.count_self]
  | succ j hij ih =>
    have first := ih (by omega) (fun k e hk hkj => h k e hk (by omega))
    have he : es[j]? = some es[j] := List.getElem?_eq_getElem (by omega)
    have last := h j es[j] hij (by omega) he
    rw [Trace.count_succ next s es shows hij he, Trace.count_succ next s es excused hij he,
      shown_succ o hij, List.length_append]
    omega

/-- What the events of a run keep between two systems that take them both, the run keeps; each
event may be one that has it so in the states it happens in. -/
theorem run_related_at {next : σ → ε → σ} {next' : τ → ε → τ} (R : σ → τ → Prop) {s : σ} {t : τ}
    {es : List ε}
    (keeps : ∀ k e, es[k]? = some e → R (Trace.stateAt next s es k) (Trace.stateAt next' t es k) →
      R (next (Trace.stateAt next s es k) e) (next' (Trace.stateAt next' t es k) e))
    (h : R s t) : R (Trace.run next s es) (Trace.run next' t es) := by
  have upto : ∀ k, k ≤ es.length →
      R (Trace.stateAt next s es k) (Trace.stateAt next' t es k) := by
    intro k
    induction k with
    | zero => exact fun _ => h
    | succ k ih =>
      intro hk
      have he : es[k]? = some es[k] := List.getElem?_eq_getElem hk
      rw [Trace.stateAt_succ he, Trace.stateAt_succ he]
      exact keeps k es[k] he (ih (by omega))
  have last := upto es.length le_rfl
  rwa [Trace.stateAt, Trace.stateAt, List.take_length] at last

theorem run_related {next : σ → ε → σ} {next' : τ → ε → τ} (R : σ → τ → Prop) {es : List ε}
    (keeps : ∀ s t, ∀ e ∈ es, R s t → R (next s e) (next' t e)) {s : σ} {t : τ} (h : R s t) :
    R (Trace.run next s es) (Trace.run next' t es) :=
  run_related_at R (fun _ e he => keeps _ _ e (List.mem_of_getElem? he)) h

/-- A run whose every event is answered by some steps of another system, none for an event that
shows nothing there, is a run of that system which shows the same. -/
theorem run_simulated (step : τ → List ω → τ → Prop) {next : σ → ε → σ} {s : σ} {es : List ε}
    (R : Nat → σ → τ → Prop) (Shows : Nat → σ → ε → List ω → Prop) {i j : Nat} {t : τ}
    (hij : i ≤ j) (hj : j ≤ es.length)
    (hi : R i (Trace.stateAt next s es i) t)
    (hstep : ∀ k e t, i ≤ k → k < j → es[k]? = some e → R k (Trace.stateAt next s es k) t →
      ∃ o t', Shows k (Trace.stateAt next s es k) e o ∧ Steps step t o t' ∧
        R (k + 1) (next (Trace.stateAt next s es k) e) t') :
    ∃ o t', (∀ k e, i ≤ k → k < j → es[k]? = some e →
        Shows k (Trace.stateAt next s es k) e (o k)) ∧
      Steps step t (shown o i j) t' ∧ R j (Trace.stateAt next s es j) t' := by
  induction j, hij using Nat.le_induction with
  | base =>
    refine ⟨fun _ => [], t, fun k e hk hk' => by omega, ?_, hi⟩
    rw [shown_self]
    exact .refl t
  | succ j hij ih =>
    obtain ⟨o, t', hshows, hsteps, hR⟩ :=
      ih (by omega) (fun k e t hk hkj => hstep k e t hk (by omega))
    have he : es[j]? = some es[j] := List.getElem?_eq_getElem (by omega)
    obtain ⟨o', t'', hshow, hlast, hR'⟩ := hstep j es[j] t' hij (by omega) he hR
    refine ⟨Function.update o j o', t'', ?_, ?_, ?_⟩
    · intro k e hk hkj hek
      rcases Nat.lt_or_eq_of_le (Nat.le_of_lt_succ hkj) with hlt | rfl
      · rw [Function.update_of_ne (by omega)]
        exact hshows k e hk hlt hek
      · rw [Function.update_self]
        obtain rfl : es[k] = e := Option.some.inj (he.symm.trans hek)
        exact hshow
    · rw [shown_succ _ hij, Function.update_self]
      refine Steps.trans ?_ hlast
      have same : shown (Function.update o j o') i j = shown o i j :=
        shown_congr (fun k _ hk => Function.update_of_ne (by omega) _ _)
      rwa [same]
    · rw [Trace.stateAt_succ he]
      exact hR'

/-- Two runs show the same up to a point where they differ in a way that is no fault of theirs. -/
def Parted (differ : ω → ω → Prop) (os os' : List ω) : Prop :=
  ∃ c a b l l', differ a b ∧ os = c ++ a :: l ∧ os' = c ++ b :: l'

theorem Parted.append {differ : ω → ω → Prop} {os os' : List ω} (h : Parted differ os os')
    (more more' : List ω) : Parted differ (os ++ more) (os' ++ more') := by
  obtain ⟨c, a, b, l, l', hdiffer, rfl, rfl⟩ := h
  exact ⟨c, a, b, l ++ more, l' ++ more', hdiffer, by simp, by simp⟩

theorem Parted.prepend {differ : ω → ω → Prop} {os os' : List ω} (h : Parted differ os os')
    (before : List ω) : Parted differ (before ++ os) (before ++ os') := by
  obtain ⟨c, a, b, l, l', hdiffer, rfl, rfl⟩ := h
  exact ⟨before ++ c, a, b, l, l', hdiffer, by simp, by simp⟩

/-- Two systems whose steps from related states show the same and end in related states, or differ
as they may, run alike: unless they part, one run is related to the beginning of the other. -/
theorem lockstep {τ' : Type*} {step' : τ' → List ω → τ' → Prop} (R : τ → τ' → Prop)
    (differ : ω → ω → Prop)
    (keeps : ∀ t t' o o' u u', R t t' → step t o u → step' t' o' u' →
      o = o' ∧ R u u' ∨ Parted differ o o')
    {t u : τ} {t' u' : τ'} {os os' : List ω} (h : R t t') (run : Steps step t os u)
    (run' : Steps step' t' os' u') :
    Parted differ os os' ∨ (∃ v' more, os' = os ++ more ∧ R u v' ∧ Steps step' v' more u') ∨
      ∃ v more, os = os' ++ more ∧ R v u' ∧ Steps step v more u := by
  induction run with
  | refl => exact Or.inr (Or.inl ⟨t', os', rfl, h, run'⟩)
  | @tail v w os o run last ih =>
    rcases ih with hparted | ⟨v', more, rfl, hR, ahead⟩ | ⟨v₁, more, rfl, hR, ahead⟩
    · left
      simpa using hparted.append o []
    · -- the other run is ahead: it takes the same step, or there is none left
      rcases ahead.cases_head with ⟨rfl, rfl⟩ | ⟨o', w', more', first, rest, rfl⟩
      · exact Or.inr (Or.inr ⟨v, o, by simp, hR, .single last⟩)
      · rcases keeps _ _ _ _ _ _ hR last first with ⟨rfl, hR'⟩ | hparted
        · exact Or.inr (Or.inl ⟨w', more', by simp, hR', rest⟩)
        · left
          have parted := (hparted.append [] more').prepend os
          simpa using parted
    · exact Or.inr (Or.inr ⟨v₁, more ++ o, by simp, hR, .tail ahead last⟩)

end Simulation
