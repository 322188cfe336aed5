import Mathlib.Tactic

namespace CyclicScan

/-- The indices below `n` in the order a scan from `start` visits them. -/
def order (n : Nat) (start : Int) : List Int :=
  (List.range n).map (fun (i : Nat) => (start + i) % n)

def distance (n : Nat) (start x : Int) : Int := (x - start) % n

variable {n : Nat} {start r p : Int} {P : Int → Bool}

theorem distance_bounds (start p : Int) (hn : 0 < n) :
    0 ≤ distance n start p ∧ distance n start p < n :=
  ⟨Int.emod_nonneg _ (by omega), Int.emod_lt_of_pos _ (by omega)⟩

theorem order_at_distance (start : Int) (hp : 0 ≤ p) (hpn : p < n) :
    (start + distance n start p) % n = p := by
  rw [distance, Int.add_emod_emod, show start + (p - start) = p by omega]
  exact Int.emod_eq_of_lt hp hpn

/-- A scan that finds nothing has seen every index. -/
theorem find_none (h : (order n start).find? P = none) (hp : 0 ≤ p) (hpn : p < n) :
    P p = false := by
  have hd := distance_bounds (n := n) start p (by omega)
  have hm : p ∈ order n start := by
    refine List.mem_map.mpr ⟨(distance n start p).toNat, by simp; omega, ?_⟩
    rw [Int.toNat_of_nonneg hd.1]
    exact order_at_distance start hp hpn
  simpa using List.find?_eq_none.mp h p hm

theorem find_some (h : (order n start).find? P = some r) : P r ∧ 0 ≤ r ∧ r < n := by
  have hm := List.mem_of_find?_eq_some h
  obtain ⟨i, hi, rfl⟩ := List.mem_map.mp hm
  have hi := List.mem_range.mp hi
  exact ⟨List.find?_some h, Int.emod_nonneg _ (by omega), Int.emod_lt_of_pos _ (by omega)⟩

/-- The scan stops at the candidate closest behind its start. -/
theorem find_closest (h : (order n start).find? P = some r) (hP : P p) (hp : 0 ≤ p)
    (hpn : p < n) : distance n start r ≤ distance n start p := by
  have hd := distance_bounds (n := n) start p (by omega)
  rw [order, List.find?_map] at h
  obtain ⟨i, hi, rfl⟩ := Option.map_eq_some_iff.mp h
  obtain ⟨_, hin, hmin⟩ := List.find?_range_eq_some.mp hi
  have hin := List.mem_range.mp hin
  have hle : (i : Int) ≤ distance n start p := by
    by_contra hlt
    have hk := hmin (distance n start p).toNat (by omega)
    simp only [Function.comp_apply, Int.toNat_of_nonneg hd.1, order_at_distance start hp hpn, hP] at hk
    cases hk
  have hi : distance n start ((start + i) % n) = i := by
    rw [distance, Int.emod_sub_emod, show start + (i : Int) - start = i by omega]
    exact Int.emod_eq_of_lt (by omega) (by omega)
  rw [hi]
  exact hle

/-- Passing over a candidate brings the next scan strictly closer to it. -/
theorem passed_over (h : (order n start).find? P = some r) (hP : P p) (hp : 0 ≤ p)
    (hpn : p < n) (hne : r ≠ p) : distance n (r + 1) p < distance n start p := by
  have hle := find_closest h hP hp hpn
  obtain ⟨_, hr, hrn⟩ := find_some h
  have hdr := distance_bounds (n := n) start r (by omega)
  have hdp := distance_bounds (n := n) start p (by omega)
  have hlt : distance n start r ≠ distance n start p := by
    intro he
    apply hne
    rw [← order_at_distance start hr hrn, he, order_at_distance start hp hpn]
  have hs : distance n (r + 1) p = distance n start p - distance n start r - 1 := by
    have he : (p - (r + 1)) % (n : Int) =
        (distance n start p - distance n start r - 1) % n := by
      simp only [distance]
      rw [Int.sub_emod (_ - _), ← Int.sub_emod (p - start), ← Int.sub_emod]
      congr 1
      omega
    rw [distance, he]
    exact Int.emod_eq_of_lt (by omega) (by omega)
  omega

end CyclicScan
