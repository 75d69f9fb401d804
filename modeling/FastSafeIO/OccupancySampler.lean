import FastSafeIO.SampleSums
import FastSafeIO.TracingUtils
import Mathlib.Algebra.Order.Floor.Semiring
import Mathlib.Data.Rat.Floor

/-! The sampling loop of collect_iio_occ.c. The floats are exact rationals here. -/
namespace OccupancySampler
open TracingUtils (sub64 mul64 sub64_of_le)
open SampleSums

def WEIGHT_FACTOR : ℚ := 8

def WEIGHT_FACTOR_LONG_TERM : ℚ := 256

/-- The variables that the samples and the averages are kept in. -/
structure Statics where
  prevRdtsc : Nat
  curRdtsc : Nat
  prevCumOcc : Nat
  curCumOcc : Nat
  latestAvgOcc : Nat
  latestTimeDeltaNs : Nat
  smoothedAvgOcc : Nat
  smoothedAvgOccLongterm : Nat
  smoothedAvgOccF : ℚ
  smoothedAvgOccLongtermF : ℚ

def start : Statics := ⟨0, 0, 0, 0, 0, 0, 0, 0, 0, 0⟩

/-- What the occupancy register and rdtscp return. -/
structure Reading where
  cumOcc : Nat
  tsc : Nat
  deriving DecidableEq, Repr

def sampleCounters (s : Statics) (r : Reading) : Statics :=
  { s with
    prevCumOcc := s.curCumOcc
    curCumOcc := r.cumOcc
    prevRdtsc := s.curRdtsc
    curRdtsc := r.tsc }

/-- What an occupancy above ten does. -/
def smooth (s : Statics) : Statics :=
  let smoothedAvgOccF :=
    ((WEIGHT_FACTOR - 1) * s.smoothedAvgOccLongtermF + s.latestAvgOcc) / WEIGHT_FACTOR
  let smoothedAvgOccLongtermF :=
    ((WEIGHT_FACTOR_LONG_TERM - 1) * s.smoothedAvgOccLongtermF + s.latestAvgOcc) /
      WEIGHT_FACTOR_LONG_TERM
  { s with
    smoothedAvgOccF := smoothedAvgOccF
    smoothedAvgOcc := ⌊smoothedAvgOccF⌋₊
    smoothedAvgOccLongtermF := smoothedAvgOccLongtermF
    smoothedAvgOccLongterm := ⌊smoothedAvgOccLongtermF⌋₊ }

/-- none is a division by zero. -/
def updateOcc (s : Statics) : Option Statics :=
  let s := { s with latestTimeDeltaNs := mul64 (sub64 s.curRdtsc s.prevRdtsc) 10 / 33 }
  if s.latestTimeDeltaNs > 0 then
    if s.latestTimeDeltaNs >>> 1 = 0 then none
    else
      let s := { s with
        latestAvgOcc := sub64 s.curCumOcc s.prevCumOcc / (s.latestTimeDeltaNs >>> 1) }
      if s.latestAvgOcc > 10 then some (smooth s) else some s
  else some s

/-- One pass of the main loop, as far as the log. -/
def sampleOnce (s : Statics) (r : Reading) : Option Statics := updateOcc (sampleCounters s r)

/-- Ten times the ticks since the sample before, in 64 bits. -/
def tenTicks (prevTsc tsc : Nat) : Nat := mul64 (sub64 tsc prevTsc) 10

/-- The occupancy counter in truth, and one sample of it: how far it went on, and when. -/
structure Sample where
  advance : Nat
  tsc : Nat
  deriving DecidableEq, Repr

/-- The hardware keeps 48 bits. -/
def Sample.reading (total : Nat) (x : Sample) : Reading := ⟨(total + x.advance) % 2 ^ 48, x.tsc⟩

/-- Time stamps that never decrease, and less than one turn of the counter between samples. -/
def HardwareRun (prevTsc : Nat) : List Sample → Prop
  | [] => True
  | x :: rest => x.advance < 2 ^ 48 ∧ prevTsc ≤ x.tsc ∧ x.tsc < 2 ^ 64 ∧ HardwareRun x.tsc rest

/-- Every call returns, with the true increment over half the time where it updates. -/
def EveryCallRight (s : Statics) (total : Nat) : List Sample → Prop
  | [] => True
  | x :: rest => ∃ t, sampleOnce s (x.reading total) = some t ∧
      (0 < t.latestTimeDeltaNs → t.latestAvgOcc = x.advance / (t.latestTimeDeltaNs / 2)) ∧
      EveryCallRight t (total + x.advance) rest

/-- Too few ticks to count as time at all, or enough for half of it not to be zero while the
    counter does not wrap. -/
def Harmless (prevTsc total : Nat) (x : Sample) : Prop :=
  tenTicks prevTsc x.tsc < 33 ∨
    66 ≤ tenTicks prevTsc x.tsc ∧ total % 2 ^ 48 + x.advance < 2 ^ 48

def AllHarmless (prevTsc total : Nat) : List Sample → Prop
  | [] => True
  | x :: rest => Harmless prevTsc total x ∧ AllHarmless x.tsc (total + x.advance) rest

section
variable {s t : Statics} {r : Reading}

theorem sample_once_eq (s : Statics) (r : Reading) : sampleOnce s r =
    let d := tenTicks s.curRdtsc r.tsc / 33
    let u := { sampleCounters s r with latestTimeDeltaNs := d }
    let avg := sub64 r.cumOcc s.curCumOcc / (d / 2)
    if d = 0 then some u
    else if d = 1 then none
    else if avg > 10 then some (smooth { u with latestAvgOcc := avg })
    else some { u with latestAvgOcc := avg } := by
  unfold sampleOnce updateOcc tenTicks
  dsimp only [sampleCounters]
  obtain ⟨d, time⟩ : ∃ d, mul64 (sub64 r.tsc s.curRdtsc) 10 / 33 = d := ⟨_, rfl⟩
  simp only [Nat.shiftRight_one, time]
  by_cases zero : d = 0
  · simp [zero]
  · have positive : 0 < d := Nat.pos_of_ne_zero zero
    rw [if_pos positive, if_neg zero]
    by_cases one : d = 1
    · simp [one]
    · have half : ¬ d / 2 = 0 := by omega
      rw [if_neg half, if_neg one]

theorem sample_once_none : sampleOnce s r = none ↔ tenTicks s.curRdtsc r.tsc / 33 = 1 := by
  rw [sample_once_eq]
  dsimp only
  by_cases zero : tenTicks s.curRdtsc r.tsc / 33 = 0
  · simp [zero]
  · rw [if_neg zero]
    by_cases one : tenTicks s.curRdtsc r.tsc / 33 = 1
    · simp [one]
    · rw [if_neg one]
      split <;> simp [one]

/-- A pass that returns keeps the reading, and the time and average of it. -/
structure Measured (s : Statics) (r : Reading) (t : Statics) : Prop where
  cumOcc : t.curCumOcc = r.cumOcc
  tsc : t.curRdtsc = r.tsc
  time : t.latestTimeDeltaNs = tenTicks s.curRdtsc r.tsc / 33
  returned : t.latestTimeDeltaNs ≠ 1
  average : 0 < t.latestTimeDeltaNs →
    t.latestAvgOcc = sub64 r.cumOcc s.curCumOcc / (t.latestTimeDeltaNs / 2)

theorem sample_once_measured (ran : sampleOnce s r = some t) : Measured s r t := by
  rw [sample_once_eq] at ran
  dsimp only at ran
  split at ran
  · rename_i zero
    cases ran
    refine ⟨rfl, rfl, rfl, ?_, ?_⟩
    · simp [zero]
    · simp [zero]
  · split at ran
    · cases ran
    · rename_i one
      split at ran <;> cases ran <;> exact ⟨rfl, rfl, rfl, one, fun _ => rfl⟩

theorem sample_once_some (other : tenTicks s.curRdtsc r.tsc / 33 ≠ 1) :
    ∃ t, sampleOnce s r = some t := by
  rw [← Option.isSome_iff_exists, Option.isSome_iff_ne_none]
  exact fun none => other (sample_once_none.mp none)

end

section
variable {s t : Statics} {x : Sample} {total prevTsc : Nat}

theorem ten_ticks_lt (prevTsc tsc : Nat) : tenTicks prevTsc tsc < 2 ^ 64 := Nat.mod_lt _ (by decide)

theorem reading_difference (small : x.advance < 2 ^ 48) :
    sub64 (x.reading total).cumOcc (total % 2 ^ 48) =
      if total % 2 ^ 48 + x.advance < 2 ^ 48 then x.advance
      else x.advance + (2 ^ 64 - 2 ^ 48) := by
  have low : total % 2 ^ 48 < 2 ^ 48 := Nat.mod_lt _ (by decide)
  have read : (total + x.advance) % 2 ^ 48 = (total % 2 ^ 48 + x.advance) % 2 ^ 48 :=
    (Nat.mod_add_mod ..).symm
  unfold sub64 Sample.reading
  dsimp only
  rw [read]
  generalize total % 2 ^ 48 = m at low ⊢
  split <;> omega

/-- A quotient shows by how much its dividend is off. -/
theorem wrapped_quotient {a h : Nat} (positive : 0 < h) (bound : h ≤ 2 ^ 64 - 2 ^ 48) :
    (a + (2 ^ 64 - 2 ^ 48)) / h ≠ a / h := by
  have larger : (a + h) / h ≤ (a + (2 ^ 64 - 2 ^ 48)) / h := Nat.div_le_div_right (by omega)
  rw [Nat.add_div_right a positive] at larger
  omega

theorem call_right_iff (small : x.advance < 2 ^ 48) (counter : s.curCumOcc = total % 2 ^ 48)
    (clock : s.curRdtsc = prevTsc) :
    (∃ t, sampleOnce s (x.reading total) = some t ∧
      (0 < t.latestTimeDeltaNs → t.latestAvgOcc = x.advance / (t.latestTimeDeltaNs / 2))) ↔
      Harmless prevTsc total x := by
  have ticks := ten_ticks_lt prevTsc x.tsc
  have same_clock : tenTicks s.curRdtsc (x.reading total).tsc = tenTicks prevTsc x.tsc := by
    rw [clock]
    rfl
  unfold Harmless
  constructor
  · intro right
    obtain ⟨t, ran, value⟩ := right
    obtain ⟨_, _, time, returned, average⟩ := sample_once_measured ran
    rw [same_clock] at time
    by_cases short : tenTicks prevTsc x.tsc < 33
    · exact Or.inl short
    · have positive : 0 < t.latestTimeDeltaNs := by omega
      have same := (value positive).symm.trans (average positive)
      rw [counter, reading_difference small] at same
      right
      constructor
      · omega
      · by_contra wrapped
        rw [if_neg wrapped] at same
        exact wrapped_quotient (by omega) (by omega) same.symm
  · intro harmless
    have other : tenTicks s.curRdtsc (x.reading total).tsc / 33 ≠ 1 := by
      rw [same_clock]
      omega
    obtain ⟨t, ran⟩ := sample_once_some other
    obtain ⟨_, _, time, _, average⟩ := sample_once_measured ran
    rw [same_clock] at time
    refine ⟨t, ran, ?_⟩
    intro positive
    rcases harmless with short | long
    · omega
    · rw [average positive, counter, reading_difference small, if_pos long.2]

theorem every_call_right_iff (xs : List Sample) (hardware : HardwareRun prevTsc xs)
    (counter : s.curCumOcc = total % 2 ^ 48) (clock : s.curRdtsc = prevTsc) :
    EveryCallRight s total xs ↔ AllHarmless prevTsc total xs := by
  induction xs generalizing s prevTsc total with
  | nil => exact Iff.rfl
  | cons x rest ih =>
    obtain ⟨small, _, _, later⟩ := hardware
    have first := call_right_iff small counter clock
    unfold EveryCallRight AllHarmless
    rw [← first]
    constructor
    · intro right
      obtain ⟨t, ran, value, others⟩ := right
      have measured := sample_once_measured ran
      exact ⟨⟨t, ran, value⟩, (ih later measured.cumOcc measured.tsc).mp others⟩
    · intro right
      obtain ⟨⟨t, ran, value⟩, others⟩ := right
      have measured := sample_once_measured ran
      exact ⟨t, ran, value, (ih later measured.cumOcc measured.tsc).mpr others⟩

/-- The sampler from its start, where counter and clock stand at zero. -/
theorem sampler_right_iff (xs : List Sample) (hardware : HardwareRun 0 xs) :
    EveryCallRight start 0 xs ↔ AllHarmless 0 0 xs :=
  every_call_right_iff xs hardware rfl rfl

/-- Five ticks are one nanosecond, and half of that is none. -/
def fiveTicks : List Sample := [⟨1000, 1000⟩, ⟨0, 1005⟩]

/-- The second sample comes after the counter has wrapped. -/
def wrappedCounter : List Sample := [⟨2 ^ 48 - 5, 1000⟩, ⟨10, 2000⟩]

def steady : List Sample := [⟨5000, 1000⟩, ⟨7000, 2000⟩, ⟨0, 2000⟩]

theorem five_ticks_and_wrap_fail :
    (HardwareRun 0 fiveTicks ∧ ¬ EveryCallRight start 0 fiveTicks) ∧
    (HardwareRun 0 wrappedCounter ∧ ¬ EveryCallRight start 0 wrappedCounter) := by
  have five : HardwareRun 0 fiveTicks := by norm_num [HardwareRun, fiveTicks]
  have wrapped : HardwareRun 0 wrappedCounter := by norm_num [HardwareRun, wrappedCounter]
  refine ⟨⟨five, ?_⟩, ⟨wrapped, ?_⟩⟩
  · rw [every_call_right_iff fiveTicks five rfl rfl]
    norm_num [AllHarmless, Harmless, fiveTicks, tenTicks, mul64, sub64]
  · rw [every_call_right_iff wrappedCounter wrapped rfl rfl]
    norm_num [AllHarmless, Harmless, wrappedCounter, tenTicks, mul64, sub64]

theorem steady_right : EveryCallRight start 0 steady := by
  have hardware : HardwareRun 0 steady := by norm_num [HardwareRun, steady]
  rw [sampler_right_iff steady hardware]
  norm_num [AllHarmless, Harmless, steady, tenTicks, mul64, sub64]

end
end OccupancySampler
