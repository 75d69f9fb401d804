import Mathlib.Data.Fintype.Card
import Mathlib.Data.Fintype.EquivFin

/- Tiles of one width on the numbers: n of them that cover n places lie on the places. -/
namespace Tiling

/-- One of the n tiles of width p that start at a 0, …, a (n - 1) covers x. -/
def Covered (n p : Nat) (a : Nat → Nat) (x : Nat) : Prop := ∃ i < n, a i ≤ x ∧ x < a i + p

/-- Every place of the n that begin at s is the start of a tile. -/
def OnPlaces (n p s : Nat) (a : Nat → Nat) : Prop := ∀ j < n, ∃ i < n, a i = s + j * p

section
variable {n p s : Nat} {a : Nat → Nat}

theorem places_apart {i j x : Nat} (first : x ≤ s + i * p) (reach : s + i * p < x + p)
    (second : x ≤ s + j * p) (further : s + j * p < x + p) : i = j := by
  by_contra apart
  rcases Nat.lt_or_gt_of_ne apart with less | less
  · have step := Nat.mul_le_mul_right p (Nat.succ_le_of_lt less)
    rw [Nat.succ_mul] at step
    omega
  · have step := Nat.mul_le_mul_right p (Nat.succ_le_of_lt less)
    rw [Nat.succ_mul] at step
    omega

theorem covering_tiles {m : Nat} (covered : ∀ j < m, Covered n p a (s + j * p)) :
    ∃ tile : Fin m → Fin n, Function.Injective tile ∧
      ∀ j, a (tile j) ≤ s + j * p ∧ s + j * p < a (tile j) + p := by
  have each : ∀ j : Fin m, ∃ i : Fin n, a i ≤ s + j * p ∧ s + j * p < a i + p := by
    intro j
    obtain ⟨i, below, covers⟩ := covered j j.isLt
    exact ⟨⟨i, below⟩, covers⟩
  choose tile covers using each
  refine ⟨tile, ?_, covers⟩
  intro i j same
  have second := covers j
  rw [← same] at second
  exact Fin.ext (places_apart (covers i).1 (covers i).2 second.1 second.2)

theorem no_more_places {m : Nat} (covered : ∀ j < m, Covered n p a (s + j * p)) : m ≤ n := by
  obtain ⟨tile, injective, _⟩ := covering_tiles covered
  simpa using Fintype.card_le_of_injective tile injective

theorem tile_on_place (wide : 0 < p) (onPlaces : OnPlaces n p s a) :
    ∀ i < n, ∃ j < n, a i = s + j * p := by
  have each : ∀ j : Fin n, ∃ i : Fin n, a i = s + j * p := by
    intro j
    obtain ⟨i, below, starts⟩ := onPlaces j j.isLt
    exact ⟨⟨i, below⟩, starts⟩
  choose tile starts using each
  have injective : Function.Injective tile := by
    intro i j same
    have equal : s + i * p = s + j * p := by rw [← starts i, ← starts j, same]
    exact Fin.ext (Nat.eq_of_mul_eq_mul_right wide (Nat.add_left_cancel equal))
  intro i below
  obtain ⟨j, here⟩ := Finite.injective_iff_surjective.mp injective ⟨i, below⟩
  refine ⟨j, j.isLt, ?_⟩
  rw [← starts j, here]

/-- n tiles that cover n places leave no room to lie between them. -/
theorem covering_on_places (wide : 0 < p)
    (covered : ∀ x, s ≤ x → x < s + n * p → Covered n p a x) : OnPlaces n p s a := by
  have places : ∀ j < n, Covered n p a (s + j * p) := by
    intro j below
    have room := Nat.mul_lt_mul_of_pos_right below wide
    exact covered (s + j * p) (by omega) (by omega)
  obtain ⟨tile, injective, covers⟩ := covering_tiles places
  have onto := Finite.injective_iff_surjective.mp injective
  -- from the last place down: the end of a tile that starts early is covered by no other
  have starts : ∀ k, ∀ j : Fin n, j + k + 1 = n → a (tile j) = s + j * p := by
    intro k
    induction k using Nat.strong_induction_on with
    | h k ih =>
      intro j place
      by_contra early
      have before := lt_of_le_of_ne (covers j).1 early
      have reach := (covers j).2
      have next : (j : Nat) * p + p ≤ n * p := by
        rw [← Nat.succ_mul]
        exact Nat.mul_le_mul_right p j.isLt
      obtain ⟨i, below, low, high⟩ := covered (a (tile j) + p) (by omega) (by omega)
      obtain ⟨other, here⟩ := onto ⟨i, below⟩
      have index : i = tile other := by rw [here]
      subst index
      rcases Nat.lt_trichotomy other j with less | same | more
      · have step := Nat.mul_le_mul_right p (Nat.succ_le_of_lt less)
        rw [Nat.succ_mul] at step
        have least := (covers other).1
        omega
      · rw [Fin.ext same] at high
        omega
      · have step := Nat.mul_le_mul_right p (Nat.succ_le_of_lt more)
        rw [Nat.succ_mul] at step
        have later := ih (n - 1 - other) (by omega) other (by omega)
        omega
  intro j below
  exact ⟨tile ⟨j, below⟩, (tile ⟨j, below⟩).isLt, starts (n - 1 - j) ⟨j, below⟩ (by dsimp only; omega)⟩

theorem on_places_covering (onPlaces : OnPlaces n p s a) {x : Nat} (low : s ≤ x) (high : x < s + n * p) :
    Covered n p a x := by
  have wide : 0 < p := by
    rcases Nat.eq_zero_or_pos p with zero | wide
    · subst zero
      omega
    · exact wide
  have place : (x - s) / p < n := Nat.div_lt_of_lt_mul (by rw [Nat.mul_comm]; omega)
  obtain ⟨i, below, starts⟩ := onPlaces _ place
  have split := Nat.div_add_mod' (x - s) p
  have rest := Nat.mod_lt (x - s) wide
  exact ⟨i, below, by omega, by omega⟩

end

end Tiling
