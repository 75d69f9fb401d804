import Mathlib.Data.Int.Log
import Mathlib.Data.Rat.Floor
import Mathlib.Tactic.FieldSimp
import Mathlib.Tactic.Linarith
import Mathlib.Tactic.Ring

/-! Numbers of a fixed count of bits: rounding to the nearest of them, its error and its order. -/
namespace NearestFloat

/-- The nearest integer, and of two the even one. -/
def roundEven (x : ℚ) : ℤ :=
  let low := ⌊x⌋
  let rest := x - low
  if rest < 1 / 2 then low
  else if 1 / 2 < rest then low + 1
  else if low % 2 = 0 then low
  else low + 1

theorem round_even_int (n : ℤ) : roundEven n = n := by
  simp [roundEven]

theorem round_even_le {n : ℤ} {x : ℚ} (below : (n : ℚ) ≤ x) : n ≤ roundEven x := by
  have floor : n ≤ ⌊x⌋ := Int.le_floor.mpr below
  unfold roundEven
  dsimp only
  split
  · exact floor
  · split
    · omega
    · split <;> omega

theorem le_round_even {n : ℤ} {x : ℚ} (above : x ≤ n) : roundEven x ≤ n := by
  have low : ⌊x⌋ ≤ n := Int.cast_le.mp (le_trans (Int.floor_le x) above)
  unfold roundEven
  dsimp only
  split
  · exact low
  · -- a part of at least one half is left, so the integer above is still below n
    rename_i half
    have strict : ⌊x⌋ < n := by
      apply lt_of_le_of_ne low
      intro same
      rw [same] at half
      linarith
    split
    · omega
    · split <;> omega

theorem round_even_error (x : ℚ) : |(roundEven x : ℚ) - x| ≤ 1 / 2 := by
  have low := Int.floor_le x
  have high := Int.lt_floor_add_one x
  rw [abs_le]
  unfold roundEven
  dsimp only
  split
  · constructor <;> linarith
  · rename_i half
    split
    · push_cast
      constructor <;> linarith
    · rename_i more
      split
      · constructor <;> linarith
      · push_cast
        constructor <;> linarith

/-- The nearest number with so many binary places after its first bit. -/
def roundTo (places : ℕ) (x : ℚ) : ℚ :=
  if x = 0 then 0
  else
    let unit := (2 : ℚ) ^ (Int.log 2 |x| - places)
    roundEven (x / unit) * unit

def Representable (places : ℕ) (x : ℚ) : Prop := ∃ m e : ℤ, |m| < 2 ^ (places + 1) ∧ x = m * 2 ^ e

section
variable {places : ℕ} {x d : ℚ}

theorem representable_int {n : ℤ} (small : |n| < 2 ^ (places + 1)) : Representable places n :=
  ⟨n, 0, small, by simp⟩

theorem round_to_keeps (number : Representable places x) : roundTo places x = x := by
  obtain ⟨m, e, small, rfl⟩ := number
  unfold roundTo
  by_cases zero : (m : ℚ) * 2 ^ e = 0
  · rw [if_pos zero, zero]
  · rw [if_neg zero]
    have scale : (0 : ℚ) < 2 ^ e := zpow_pos two_pos e
    have positive : 0 < |(m : ℚ) * 2 ^ e| := abs_pos.mpr zero
    have log : Int.log 2 |(m : ℚ) * 2 ^ e| < (places + 1 : ℕ) + e := by
      rw [← Int.lt_zpow_iff_log_lt (by decide) positive, abs_mul, abs_of_pos scale]
      have bound : |(m : ℚ)| < 2 ^ (places + 1) := by exact_mod_cast small
      have split : ((2 : ℕ) : ℚ) ^ (((places + 1 : ℕ) : ℤ) + e) = 2 ^ (places + 1) * 2 ^ e := by
        rw [Nat.cast_ofNat, zpow_add₀ two_ne_zero, zpow_natCast]
      rw [split]
      exact mul_lt_mul_of_pos_right bound scale
    obtain ⟨k, shift⟩ : ∃ k : ℕ, Int.log 2 |(m : ℚ) * 2 ^ e| - places = e - k :=
      ⟨(e + places - Int.log 2 |(m : ℚ) * 2 ^ e|).toNat, by omega⟩
    have units : (m : ℚ) * 2 ^ e / 2 ^ (e - (k : ℤ)) = ((m * 2 ^ k : ℤ) : ℚ) := by
      rw [mul_div_assoc, ← zpow_sub₀ two_ne_zero, sub_sub_cancel, zpow_natCast]
      norm_num
    dsimp only
    rw [shift, units, round_even_int, ← units]
    exact div_mul_cancel₀ _ (zpow_ne_zero _ two_ne_zero)

theorem unit_below (places : ℕ) (some_bit : x ≠ 0) :
    (2 : ℚ) ^ (Int.log 2 |x| - places) * 2 ^ places ≤ |x| := by
  have positive : 0 < |x| := abs_pos.mpr some_bit
  have log := Int.zpow_log_le_self (R := ℚ) (b := 2) (by decide) positive
  rw [← zpow_natCast, ← zpow_add₀ two_ne_zero, sub_add_cancel]
  exact_mod_cast log

theorem below_unit (places : ℕ) (x : ℚ) :
    |x| < (2 : ℚ) ^ (Int.log 2 |x| - places) * 2 ^ (places + 1) := by
  have log := Int.lt_zpow_succ_log_self (R := ℚ) (b := 2) (by decide) |x|
  have next : Int.log 2 |x| - places + (places + 1 : ℕ) = Int.log 2 |x| + 1 := by omega
  rw [← zpow_natCast, ← zpow_add₀ two_ne_zero, next]
  exact_mod_cast log

theorem round_to_representable (places : ℕ) (x : ℚ) : Representable places (roundTo places x) := by
  unfold roundTo
  by_cases zero : x = 0
  · rw [if_pos zero]
    exact ⟨0, 0, by simp, by simp⟩
  · rw [if_neg zero]
    dsimp only
    have size := below_unit places x
    generalize Int.log 2 |x| - (places : ℤ) = e at size ⊢
    have scale : (0 : ℚ) < 2 ^ e := zpow_pos two_pos e
    have small : |x / 2 ^ e| < 2 ^ (places + 1) := by
      rwa [abs_div, abs_of_pos scale, div_lt_iff₀ scale, mul_comm]
    obtain ⟨low, high⟩ := abs_lt.mp small
    have lower : -2 ^ (places + 1) ≤ roundEven (x / 2 ^ e) := by
      apply round_even_le
      exact_mod_cast low.le
    have upper : roundEven (x / 2 ^ e) ≤ 2 ^ (places + 1) := by
      apply le_round_even
      exact_mod_cast high.le
    -- rounded up to the next power of two, the number has one bit
    have one_bit : (1 : ℤ) < 2 ^ (places + 1) := one_lt_pow₀ (by decide) (Nat.succ_ne_zero places)
    by_cases inside : |roundEven (x / 2 ^ e)| < 2 ^ (places + 1)
    · exact ⟨_, e, inside, rfl⟩
    · rcases abs_cases (roundEven (x / 2 ^ e)) with ⟨same, _⟩ | ⟨same, _⟩
      · have top : roundEven (x / 2 ^ e) = 2 ^ (places + 1) := by omega
        refine ⟨1, (places + 1 : ℕ) + e, by simpa using one_bit, ?_⟩
        rw [top, zpow_add₀ two_ne_zero, zpow_natCast]
        push_cast
        ring
      · have bottom : roundEven (x / 2 ^ e) = -2 ^ (places + 1) := by omega
        refine ⟨-1, (places + 1 : ℕ) + e, by simpa using one_bit, ?_⟩
        rw [bottom, zpow_add₀ two_ne_zero, zpow_natCast]
        push_cast
        ring

theorem round_to_pos (positive : 0 < x) : 0 < roundTo places x := by
  have unit := unit_below places positive.ne'
  rw [abs_of_pos positive] at unit
  unfold roundTo
  rw [if_neg positive.ne', abs_of_pos positive]
  dsimp only
  have scale : (0 : ℚ) < 2 ^ (Int.log 2 x - (places : ℤ)) := zpow_pos two_pos _
  apply mul_pos _ scale
  have one : (1 : ℚ) ≤ 2 ^ places := one_le_pow₀ one_le_two
  have units : ((1 : ℤ) : ℚ) ≤ x / 2 ^ (Int.log 2 x - (places : ℤ)) := by
    rw [le_div_iff₀ scale]
    push_cast
    nlinarith
  exact_mod_cast lt_of_lt_of_le Int.one_pos (round_even_le units)

theorem round_to_neg (negative : x < 0) : roundTo places x < 0 := by
  have unit := unit_below places negative.ne
  rw [abs_of_neg negative] at unit
  unfold roundTo
  rw [if_neg negative.ne, abs_of_neg negative]
  dsimp only
  have scale : (0 : ℚ) < 2 ^ (Int.log 2 (-x) - (places : ℤ)) := zpow_pos two_pos _
  apply mul_neg_of_neg_of_pos _ scale
  have one : (1 : ℚ) ≤ 2 ^ places := one_le_pow₀ one_le_two
  have units : x / 2 ^ (Int.log 2 (-x) - (places : ℤ)) ≤ ((-1 : ℤ) : ℚ) := by
    rw [div_le_iff₀ scale]
    push_cast
    nlinarith
  have bound := le_round_even units
  exact_mod_cast (by omega : roundEven (x / 2 ^ (Int.log 2 (-x) - (places : ℤ))) < 0)

theorem round_to_error (places : ℕ) (x : ℚ) : |roundTo places x - x| ≤ |x| / 2 ^ (places + 1) := by
  unfold roundTo
  by_cases zero : x = 0
  · simp [zero]
  · rw [if_neg zero]
    dsimp only
    have unit := unit_below places zero
    have positive : (0 : ℚ) < 2 ^ (Int.log 2 |x| - (places : ℤ)) := zpow_pos two_pos _
    generalize (2 : ℚ) ^ (Int.log 2 |x| - (places : ℤ)) = scale at unit positive ⊢
    have nearest := round_even_error (x / scale)
    have scaled : (roundEven (x / scale) : ℚ) * scale - x =
        (roundEven (x / scale) - x / scale) * scale := by
      rw [sub_mul, div_mul_cancel₀ x positive.ne']
    have half : scale / 2 ≤ |x| / 2 ^ (places + 1) := by
      rw [le_div_iff₀ (by positivity), pow_succ]
      linarith
    calc |(roundEven (x / scale) : ℚ) * scale - x|
        = |(roundEven (x / scale) : ℚ) - x / scale| * scale := by
          rw [scaled, abs_mul, abs_of_pos positive]
      _ ≤ 1 / 2 * scale := mul_le_mul_of_nonneg_right nearest positive.le
      _ = scale / 2 := by ring
      _ ≤ |x| / 2 ^ (places + 1) := half

/-- A number of that many bits is a whole number of units, unless it is below them all. -/
theorem whole_units (x : ℚ) (number : Representable places d) :
    (∃ k : ℤ, d = k * 2 ^ (Int.log 2 |x| - places)) ∨ |d| < 2 ^ Int.log 2 |x| := by
  obtain ⟨m, e, small, rfl⟩ := number
  rcases lt_or_ge e (Int.log 2 |x| - places) with fine | coarse
  · right
    have scale : (0 : ℚ) < 2 ^ e := zpow_pos two_pos e
    have bits : |(m : ℚ)| < 2 ^ (places + 1) := by exact_mod_cast small
    calc |(m : ℚ) * 2 ^ e| = |(m : ℚ)| * 2 ^ e := by rw [abs_mul, abs_of_pos scale]
      _ < 2 ^ (places + 1) * 2 ^ e := mul_lt_mul_of_pos_right bits scale
      _ = 2 ^ ((places + 1 : ℕ) + e : ℤ) := by rw [zpow_add₀ two_ne_zero, zpow_natCast]
      _ ≤ 2 ^ Int.log 2 |x| := zpow_le_zpow_right₀ one_le_two (by push_cast; omega)
  · left
    obtain ⟨n, shift⟩ := Int.le.dest coarse
    refine ⟨m * 2 ^ n, ?_⟩
    rw [← shift, zpow_add₀ two_ne_zero, zpow_natCast]
    push_cast
    ring

theorem power_below (positive : 0 < x) : (2 : ℚ) ^ Int.log 2 |x| ≤ x := by
  have log := Int.zpow_log_le_self (R := ℚ) (b := 2) (by decide) (abs_pos.mpr positive.ne')
  rw [abs_of_pos positive] at log ⊢
  exact_mod_cast log

/-- Rounding does not pass a number of that many bits. -/
theorem le_round_to (number : Representable places d) (positive : 0 < x) (below : d ≤ x) :
    d ≤ roundTo places x := by
  unfold roundTo
  rw [if_neg positive.ne']
  dsimp only
  have scale : (0 : ℚ) < 2 ^ (Int.log 2 |x| - (places : ℤ)) := zpow_pos two_pos _
  rcases whole_units x number with ⟨k, whole⟩ | small
  · rw [whole] at below ⊢
    have units := round_even_le ((le_div_iff₀ scale).mpr below)
    exact mul_le_mul_of_nonneg_right (by exact_mod_cast units) scale.le
  · -- the power of two at the bottom of this range is a whole number of units
    have split : (2 : ℚ) ^ Int.log 2 |x| =
        ((2 ^ places : ℤ) : ℚ) * 2 ^ (Int.log 2 |x| - (places : ℤ)) := by
      push_cast
      rw [← zpow_natCast, ← zpow_add₀ two_ne_zero]
      congr 1
      omega
    have bottom := power_below positive
    rw [split] at bottom small
    have units := round_even_le ((le_div_iff₀ scale).mpr bottom)
    have kept := mul_le_mul_of_nonneg_right
      (by exact_mod_cast units : ((2 ^ places : ℤ) : ℚ) ≤ roundEven _) scale.le
    have size := le_abs_self d
    linarith

theorem round_to_nonneg (places : ℕ) (positive : 0 ≤ x) : 0 ≤ roundTo places x := by
  rcases positive.eq_or_lt with zero | positive
  · simp [roundTo, ← zero]
  · exact le_round_to ⟨0, 0, by positivity, by simp⟩ positive positive.le

theorem round_to_pos_iff : 0 < roundTo places x ↔ 0 < x := by
  constructor
  · intro positive
    by_contra other
    rcases lt_or_eq_of_le (not_lt.mp other) with negative | zero
    · exact lt_asymm positive (round_to_neg negative)
    · simp [zero, roundTo] at positive
  · exact round_to_pos

end

/-- A number as printed with a number of decimal places. -/
def rounded (places : Nat) (x : ℚ) : ℚ :=
  let units := ((roundEven (|x| * 10 ^ places)).toNat : ℚ) / 10 ^ places
  if x < 0 then - units else units

theorem rounded_nonneg (decimals : ℕ) {x : ℚ} (positive : 0 ≤ x) : 0 ≤ rounded decimals x := by
  unfold rounded
  dsimp only
  rw [if_neg (not_lt.mpr positive)]
  positivity

theorem rounded_error (places : ℕ) (x : ℚ) : |rounded places x - x| ≤ 1 / 2 / 10 ^ places := by
  have scale : (0 : ℚ) < 10 ^ places := by positivity
  have size := abs_nonneg x
  have nearest := round_even_error (|x| * 10 ^ places)
  have sign : 0 ≤ roundEven (|x| * 10 ^ places) :=
    round_even_le (by push_cast; positivity)
  have whole : (((roundEven (|x| * 10 ^ places)).toNat : ℤ) : ℚ) = roundEven (|x| * 10 ^ places) := by
    rw [Int.toNat_of_nonneg sign]
  have size_error : |((roundEven (|x| * 10 ^ places)).toNat : ℚ) / 10 ^ places - (|x|)| ≤
      1 / 2 / 10 ^ places := by
    rw [← Int.cast_natCast, whole, le_div_iff₀ scale, ← abs_of_pos scale, ← abs_mul, sub_mul,
      abs_of_pos scale, div_mul_cancel₀ _ scale.ne']
    exact nearest
  unfold rounded
  dsimp only
  split
  · rename_i negative
    rw [abs_of_neg negative] at size_error
    rw [abs_sub_comm]
    rw [abs_of_neg negative]
    have turn : ∀ y : ℚ, x - -y = y - -x := fun y => by ring
    rw [turn]
    exact size_error
  · rename_i nonneg
    rw [abs_of_nonneg (not_lt.mp nonneg)] at size_error ⊢
    exact size_error

end NearestFloat
