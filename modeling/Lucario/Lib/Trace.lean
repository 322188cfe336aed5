import Mathlib.Tactic

namespace Trace

variable {σ ε : Type*}

def run (next : σ → ε → σ) (s : σ) (es : List ε) : σ := es.foldl next s

/-- The state in which the event with index `i` happens. -/
def stateAt (next : σ → ε → σ) (s : σ) (es : List ε) (i : Nat) : σ := run next s (es.take i)

variable {next : σ → ε → σ} {s : σ} {es : List ε}

theorem stateAt_succ {i : Nat} {e : ε} (h : es[i]? = some e) :
    stateAt next s es (i + 1) = next (stateAt next s es i) e := by
  simp [stateAt, run, List.take_add_one, h, List.foldl_append]

/-- What holds initially and is kept by the events that occur holds at the end. -/
theorem run_invariant (Inv : σ → Prop) (h0 : Inv s) (hstep : ∀ s, ∀ e ∈ es, Inv s → Inv (next s e)) :
    Inv (run next s es) := by
  induction es generalizing s with
  | nil => exact h0
  | cons e es ih =>
    exact ih (hstep s e (by simp) h0) (fun t d hd => hstep t d (by simp [hd]))

/-- The same at every index of a run. -/
theorem stateAt_invariant (Inv : σ → Prop) (h0 : Inv s)
    (hstep : ∀ s, ∀ e ∈ es, Inv s → Inv (next s e)) (i : Nat) : Inv (stateAt next s es i) :=
  run_invariant Inv h0 (fun t e he => hstep t e (List.mem_of_mem_take he))

/-- What holds at index `i` and survives each event of a window holds throughout it. Both what is
claimed and the step may use where in the run they are. -/
theorem stateAt_window_index (Inv : Nat → σ → Prop) {i j : Nat} (hij : i ≤ j) (hj : j ≤ es.length)
    (hi : Inv i (stateAt next s es i))
    (hstep : ∀ k e, i ≤ k → k < j → es[k]? = some e → Inv k (stateAt next s es k) →
      Inv (k + 1) (next (stateAt next s es k) e)) : Inv j (stateAt next s es j) := by
  induction j, hij using Nat.le_induction with
  | base => exact hi
  | succ k hik ih =>
    have hk := ih (by omega) (fun n e hn hnk => hstep n e hn (by omega))
    have he : es[k]? = some es[k] := List.getElem?_eq_getElem (by omega)
    rw [stateAt_succ he]
    exact hstep k es[k] hik (by omega) he hk

theorem stateAt_window (Inv : σ → Prop) {i j : Nat} (hij : i ≤ j) (hj : j ≤ es.length)
    (hi : Inv (stateAt next s es i))
    (hstep : ∀ k e, i ≤ k → k < j → es[k]? = some e → Inv (stateAt next s es k) →
      Inv (next (stateAt next s es k) e)) : Inv (stateAt next s es j) :=
  stateAt_window_index (fun _ => Inv) hij hj hi hstep

/-- What is to be checked of a given run, index by index. -/
theorem every_index {p : Nat → ε → Prop} (h : ∀ k < es.length, ∀ e ∈ es[k]?, p k e) {k : Nat}
    {e : ε} (he : es[k]? = some e) : p k e :=
  h k (List.getElem?_eq_some_iff.mp he).1 e he

section Count

variable (next s es) (p : σ → ε → Bool)

/-- How many of the events with indices from `i` on and before `j` satisfy `p` in the state they
happen in. -/
def count (i j : Nat) : Nat :=
  (List.range' i (j - i)).countP (fun k => es[k]?.any (p (stateAt next s es k)))

theorem count_self (i : Nat) : count next s es p i i = 0 := by
  simp [count]

theorem count_succ {i j : Nat} {e : ε} (hij : i ≤ j) (he : es[j]? = some e) :
    count next s es p i (j + 1) =
      count next s es p i j + if p (stateAt next s es j) e then 1 else 0 := by
  have hlen : j + 1 - i = j - i + 1 := by omega
  have hlast : i + (j - i) = j := by omega
  simp [count, hlen, List.range'_concat, hlast, he, List.countP_append, List.countP_cons]

end Count

section Register

variable {α : Type*} (read : σ → α) (Writes : σ → ε → α → Prop)

/-- A register that is written and otherwise kept holds the value written last. -/
theorem last_written (written : ∀ s e a, Writes s e a → read (next s e) = a)
    (kept : ∀ s e, (∀ a, ¬ Writes s e a) → read (next s e) = read s) {i j : Nat} {e : ε} {a : α}
    (he : es[j]? = some e) (hw : Writes (stateAt next s es j) e a) (hji : j < i)
    (hi : i ≤ es.length)
    (hnone : ∀ k d b, j < k → k < i → es[k]? = some d → ¬ Writes (stateAt next s es k) d b) :
    read (stateAt next s es i) = a := by
  refine stateAt_window (fun t => read t = a) (i := j + 1) (by omega) hi ?_ ?_
  · rw [stateAt_succ he]
    exact written _ _ _ hw
  · intro k d hjk hki hd hread
    rw [kept _ _ (fun b => hnone k d b (by omega) hki hd)]
    exact hread

theorem never_written (kept : ∀ s e, (∀ a, ¬ Writes s e a) → read (next s e) = read s) {i : Nat}
    (hi : i ≤ es.length)
    (hnone : ∀ k d b, k < i → es[k]? = some d → ¬ Writes (stateAt next s es k) d b) :
    read (stateAt next s es i) = read s := by
  refine stateAt_window (fun t => read t = read s) (i := 0) (Nat.zero_le i) hi rfl ?_
  intro k d _ hki hd hread
  rw [kept _ _ (fun b => hnone k d b hki hd)]
  exact hread

end Register

end Trace
