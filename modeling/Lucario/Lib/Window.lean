import Mathlib.Tactic

namespace Window

variable {α : Type*}

def push (cap : Nat) (l : List α) (x : α) : List α :=
  if l.length < cap then l ++ [x] else l.tail ++ [x]

theorem push_drop {cap : Nat} (hcap : 0 < cap) (l : List α) (x : α) :
    push cap (l.drop (l.length - cap)) x = (l ++ [x]).drop ((l ++ [x]).length - cap) := by
  rw [push, List.length_drop, List.length_append, List.length_singleton]
  split_ifs with h
  · rw [show l.length - cap = 0 by omega, show l.length + 1 - cap = 0 by omega]
    rfl
  · rw [List.tail_drop, show l.length - cap + 1 = l.length + 1 - cap by omega,
      List.drop_append_of_le_length (by omega)]

/-- What is left of all elements pushed are the last ones. -/
theorem foldl_push {cap : Nat} (hcap : 0 < cap) (xs : List α) :
    xs.foldl (push cap) [] = xs.drop (xs.length - cap) := by
  induction xs using List.reverseRecOn with
  | nil => simp
  | append_singleton xs x ih => rw [List.foldl_concat, ih, push_drop hcap]

/-- A loop that makes each row of the next one and itself has not changed the rows that it reads. -/
theorem foldl_shift (f : α → α → α) (rows : Nat → α) (n : Nat) :
    (List.range' 1 n).foldl (fun h i => Function.update h (i - 1) (f (h i) (h (i - 1)))) rows =
      fun i => if i < n then f (rows (i + 1)) (rows i) else rows i := by
  induction n with
  | zero => rfl
  | succ n ih =>
    rw [List.range'_concat, List.foldl_concat, ih]
    funext i
    have hprev : 1 + 1 * n - 1 = n := by omega
    have hnext : 1 + 1 * n = n + 1 := by omega
    rw [hprev, hnext]
    rcases eq_or_ne i n with rfl | hne
    · simp
    · simp only [Function.update_of_ne hne]
      have hbound : i < n ↔ i < n + 1 := by omega
      rw [if_congr hbound rfl rfl]

end Window
