import Mathlib.Algebra.BigOperators.Group.List.Basic
import Mathlib.Algebra.Order.BigOperators.Group.List
import Mathlib.Algebra.Order.Ring.Defs
import Mathlib.Tactic.LinearCombination
import Mathlib.Tactic.Linarith
import Mathlib.Tactic.Positivity
import Mathlib.Tactic.Ring

/-! Sums of squares over a list of samples, and running averages. -/
namespace SampleSums

section
variable {R : Type} [CommRing R]

/-- The squared differences of all pairs. -/
def spread : List R → R
  | [] => 0
  | x :: xs => (xs.map fun y => (x - y) ^ 2).sum + spread xs

theorem sum_sq_differences (x : R) (xs : List R) : (xs.map fun y => (x - y) ^ 2).sum =
    xs.length * x ^ 2 - 2 * x * xs.sum + (xs.map (· ^ 2)).sum := by
  induction xs with
  | nil => simp
  | cons y ys ih =>
    simp only [List.map_cons, List.sum_cons, List.length_cons, ih]
    push_cast
    ring

/-- Lagrange's identity against the constant list. -/
theorem length_mul_sum_sq (xs : List R) :
    xs.length * (xs.map (· ^ 2)).sum = xs.sum ^ 2 + spread xs := by
  induction xs with
  | nil => simp [spread]
  | cons x xs ih =>
    simp only [List.map_cons, List.sum_cons, List.length_cons, spread, sum_sq_differences]
    push_cast
    linear_combination ih

theorem spread_constant {x : R} {xs : List R} (constant : ∀ y ∈ xs, y = x) : spread xs = 0 := by
  induction xs with
  | nil => rfl
  | cons y ys ih =>
    have first : y = x := constant y List.mem_cons_self
    have others : ∀ z ∈ ys, z = x := fun z member => constant z (List.mem_cons_of_mem y member)
    have zeros : (ys.map fun z => (y - z) ^ 2).sum = 0 := by
      apply List.sum_eq_zero
      intro s member
      obtain ⟨z, known, rfl⟩ := List.mem_map.mp member
      rw [first, others z known]
      ring
    rw [spread, zeros, ih others, add_zero]

end

section
variable {K : Type} [Field K] [LinearOrder K] [IsStrictOrderedRing K] {weight old x top : K}

/-- One step of an exponential average. -/
def averaged (weight old x : K) : K := ((weight - 1) * old + x) / weight

theorem averaged_nonneg (heavy : 1 ≤ weight) (positive : 0 ≤ old) (sample : 0 ≤ x) :
    0 ≤ averaged weight old x := by
  have light : 0 ≤ weight - 1 := by linarith
  unfold averaged
  positivity

theorem averaged_le (heavy : 1 ≤ weight) (below : old ≤ top) (sample : x ≤ top) :
    averaged weight old x ≤ top := by
  have light : 0 ≤ weight - 1 := by linarith
  have positive : 0 < weight := by linarith
  unfold averaged
  rw [div_le_iff₀ positive]
  have scaled := mul_le_mul_of_nonneg_left below light
  linarith

end
end SampleSums
