import Mathlib.Algebra.BigOperators.Group.Finset.Sigma
import Mathlib.Algebra.BigOperators.Ring.Finset
import Mathlib.Algebra.Order.Ring.Int
import Mathlib.Order.Interval.Finset.Nat

/-! Loops that count and add up, as sums, and sums over disjoint intervals. -/

namespace Tally

open Finset

theorem sum_filtered {α : Type*} (f : Nat → α) (p : α → Bool) (g : α → Int) (n : Nat) :
    ((((List.range n).map f).filter p).map g).sum =
      ∑ i ∈ range n, if p (f i) then g (f i) else 0 := by
  induction n with
  | zero => rfl
  | succ n ih =>
    rw [List.range_succ, List.map_append, List.filter_append, List.map_append, List.sum_append, ih,
      sum_range_succ]
    by_cases h : p (f n) <;> simp [h]

theorem count_indicator (p : Nat → Bool) (n : Nat) :
    ((List.range n).countP p : Int) = ∑ i ∈ range n, if p i then 1 else 0 := by
  induction n with
  | zero => rfl
  | succ n ih =>
    rw [List.range_succ, List.countP_append, sum_range_succ, ← ih]
    by_cases h : p n <;> simp [h]

/-- The indices below `n` in an interval that lies below `n` are as many as it is long. -/
theorem interval_length {start count : Int} {n : Nat} (hs : 0 ≤ start) (hc : 0 ≤ count)
    (hn : start + count ≤ n) :
    (∑ b ∈ range n, if start ≤ (b : Int) ∧ (b : Int) < start + count then (1 : Int) else 0) =
      count := by
  have same : (range n).filter (fun b : Nat => start ≤ (b : Int) ∧ (b : Int) < start + count) =
      Ico start.toNat (start + count).toNat := by
    ext b
    simp only [mem_filter, mem_range, mem_Ico]
    omega
  rw [← sum_filter, same, sum_const, Nat.card_Ico, nsmul_eq_mul, mul_one]
  omega

/-- Disjoint intervals hold as many indices as they are long together. -/
theorem covered_count {used : Nat → Prop} [DecidablePred used] {alive : Nat → Prop}
    [DecidablePred alive] {start count : Nat → Int} {m n : Nat}
    (bounds : ∀ i < m, alive i → 0 ≤ start i ∧ 0 ≤ count i ∧ start i + count i ≤ n)
    (disjoint : ∀ i < m, ∀ j < m, ∀ b : Nat, alive i → alive j →
      start i ≤ b ∧ b < start i + count i → start j ≤ b ∧ b < start j + count j → i = j)
    (cover : ∀ b < n, used b ↔ ∃ i < m, alive i ∧ start i ≤ b ∧ b < start i + count i) :
    (∑ b ∈ range n, if used b then (1 : Int) else 0) =
      ∑ i ∈ range m, if alive i then count i else 0 := by
  have once : ∀ b ∈ range n, (if used b then (1 : Int) else 0) =
      ∑ i ∈ range m, if alive i ∧ start i ≤ (b : Int) ∧ (b : Int) < start i + count i then 1
        else 0 := by
    intro b hb
    by_cases hu : used b
    · obtain ⟨i, hi, hin⟩ := (cover b (mem_range.mp hb)).mp hu
      rw [if_pos hu, sum_eq_single_of_mem i (mem_range.mpr hi), if_pos hin]
      intro j hj hne
      refine if_neg (fun hjn => hne ?_)
      exact disjoint j (mem_range.mp hj) i hi b hjn.1 hin.1 hjn.2 hin.2
    · rw [if_neg hu]
      symm
      refine sum_eq_zero (fun i hi => if_neg (fun hin => hu ?_))
      exact (cover b (mem_range.mp hb)).mpr ⟨i, mem_range.mp hi, hin⟩
  rw [sum_congr rfl once, sum_comm]
  refine sum_congr rfl (fun i hi => ?_)
  by_cases ha : alive i
  · obtain ⟨hs, hc, hn⟩ := bounds i (mem_range.mp hi) ha
    simp only [ha, true_and, if_true]
    exact interval_length hs hc hn
  · simp [ha]

end Tally
