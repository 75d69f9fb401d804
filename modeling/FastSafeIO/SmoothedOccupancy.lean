import FastSafeIO.OccupancySampler

/-! The two smoothed occupancies against the exponential averages that they are meant to be. -/
namespace SmoothedOccupancy
open TracingUtils (sub64)
open OccupancySampler SampleSums

def lastReading (s : Statics) : Reading := ⟨s.curCumOcc, s.curRdtsc⟩

/-- The nanoseconds that the code takes to lie between two readings. -/
def timeBetween (prev r : Reading) : Nat := tenTicks prev.tsc r.tsc / 33

/-- The occupancy between two readings is above ten. -/
def Accepted (prev r : Reading) : Prop :=
  2 ≤ timeBetween prev r ∧ 11 * (timeBetween prev r / 2) ≤ sub64 r.cumOcc prev.cumOcc

instance (prev r : Reading) : Decidable (Accepted prev r) :=
  inferInstanceAs (Decidable (_ ∧ _))

/-- The samples accepted in a run, which a division by zero ends. -/
def acceptedCount (prev : Reading) : List Reading → Nat
  | [] => 0
  | r :: rest =>
    if timeBetween prev r = 1 then 0
    else if Accepted prev r then 1 + acceptedCount r rest
    else acceptedCount r rest

/-- The call that led to this state accepted its sample. -/
def TookSample (t : Statics) : Prop := 0 < t.latestTimeDeltaNs ∧ 10 < t.latestAvgOcc

instance (t : Statics) : Decidable (TookSample t) := inferInstanceAs (Decidable (_ ∧ _))

/-- Each average is taken from its own old value. -/
def AveragesOwn (s t : Statics) : Prop :=
  if TookSample t then
    t.smoothedAvgOccF = (7 * s.smoothedAvgOccF + t.latestAvgOcc) / 8 ∧
    t.smoothedAvgOccLongtermF = (255 * s.smoothedAvgOccLongtermF + t.latestAvgOcc) / 256
  else
    t.smoothedAvgOccF = s.smoothedAvgOccF ∧
    t.smoothedAvgOccLongtermF = s.smoothedAvgOccLongtermF

structure Between (top : Nat) (t : Statics) : Prop where
  shortLow : 0 ≤ t.smoothedAvgOccF
  shortHigh : t.smoothedAvgOccF ≤ top
  longLow : 0 ≤ t.smoothedAvgOccLongtermF
  longHigh : t.smoothedAvgOccLongtermF ≤ top

def largest (top : Nat) (t : Statics) : Nat := if TookSample t then max top t.latestAvgOcc else top

/-- Every call of a run averages, within the samples accepted so far. -/
def EveryCallAverages (s : Statics) (top : Nat) : List Reading → Prop
  | [] => True
  | r :: rest => ∀ t, sampleOnce s r = some t →
      AveragesOwn s t ∧ Between (largest top t) t ∧ EveryCallAverages t (largest top t) rest

section
variable {s t : Statics} {r : Reading} {top : Nat}

theorem trapped_iff : sampleOnce s r = none ↔ timeBetween (lastReading s) r = 1 :=
  sample_once_none

theorem took_sample_iff (ran : sampleOnce s r = some t) :
    TookSample t ↔ Accepted (lastReading s) r := by
  obtain ⟨_, _, time, returned, average⟩ := sample_once_measured ran
  have same : timeBetween (lastReading s) r = t.latestTimeDeltaNs := time.symm
  unfold TookSample Accepted
  rw [same]
  constructor
  · intro took
    have half : 0 < t.latestTimeDeltaNs / 2 := by omega
    have above := took.2
    rw [average took.1] at above
    exact ⟨by omega, (Nat.le_div_iff_mul_le half).mp above⟩
  · intro accepted
    have half : 0 < t.latestTimeDeltaNs / 2 := by omega
    have positive : 0 < t.latestTimeDeltaNs := by omega
    rw [average positive]
    exact ⟨positive, (Nat.le_div_iff_mul_le half).mpr accepted.2⟩

/-- What the code does with the averages: both are taken from the long-term one. -/
theorem smoothed_from_longterm (ran : sampleOnce s r = some t) :
    if TookSample t then
      t.smoothedAvgOccF = averaged 8 s.smoothedAvgOccLongtermF (t.latestAvgOcc : ℚ) ∧
      t.smoothedAvgOccLongtermF = averaged 256 s.smoothedAvgOccLongtermF (t.latestAvgOcc : ℚ)
    else
      t.smoothedAvgOccF = s.smoothedAvgOccF ∧
      t.smoothedAvgOccLongtermF = s.smoothedAvgOccLongtermF := by
  rw [sample_once_eq] at ran
  dsimp only at ran
  split at ran
  · rename_i zero
    cases ran
    rw [if_neg fun took => Nat.ne_of_gt took.1 zero]
    exact ⟨rfl, rfl⟩
  · rename_i some_time
    split at ran
    · cases ran
    · split at ran
      · rename_i above
        cases ran
        rw [if_pos ⟨Nat.pos_of_ne_zero some_time, above⟩]
        exact ⟨rfl, rfl⟩
      · rename_i below
        cases ran
        rw [if_neg fun took => below took.2]
        exact ⟨rfl, rfl⟩

theorem between_kept (ran : sampleOnce s r = some t) (between : Between top s) :
    Between (largest top t) t := by
  have values := smoothed_from_longterm ran
  unfold largest
  by_cases took : TookSample t
  · rw [if_pos took] at values ⊢
    have old : s.smoothedAvgOccLongtermF ≤ (max top t.latestAvgOcc : Nat) :=
      le_trans between.longHigh (Nat.cast_le.mpr (le_max_left _ _))
    have sample : (t.latestAvgOcc : ℚ) ≤ (max top t.latestAvgOcc : Nat) :=
      Nat.cast_le.mpr (le_max_right _ _)
    have positive : (0 : ℚ) ≤ t.latestAvgOcc := Nat.cast_nonneg _
    constructor
    · rw [values.1]
      exact averaged_nonneg (by norm_num) between.longLow positive
    · rw [values.1]
      exact averaged_le (by norm_num) old sample
    · rw [values.2]
      exact averaged_nonneg (by norm_num) between.longLow positive
    · rw [values.2]
      exact averaged_le (by norm_num) old sample
  · rw [if_neg took] at values ⊢
    constructor
    · rw [values.1]
      exact between.shortLow
    · rw [values.1]
      exact between.shortHigh
    · rw [values.2]
      exact between.longLow
    · rw [values.2]
      exact between.longHigh

/-- A call averages both values exactly when it takes no sample or finds the two equal. -/
theorem averages_own_iff (ran : sampleOnce s r = some t) : AveragesOwn s t ↔
    (TookSample t → s.smoothedAvgOccF = s.smoothedAvgOccLongtermF) := by
  have values := smoothed_from_longterm ran
  unfold AveragesOwn
  by_cases took : TookSample t
  · rw [if_pos took] at values ⊢
    rw [values.1, values.2]
    unfold averaged
    constructor
    · intro own _
      have short := own.1
      field_simp at short
      linarith
    · intro equal
      rw [equal took]
      constructor
      · ring
      · ring
  · rw [if_neg took] at values ⊢
    exact ⟨fun _ sample => absurd sample took, fun _ => values⟩

theorem apart_after_sample (ran : sampleOnce s r = some t) (took : TookSample t)
    (zero : s.smoothedAvgOccLongtermF = 0) : t.smoothedAvgOccF ≠ t.smoothedAvgOccLongtermF := by
  have values := smoothed_from_longterm ran
  rw [if_pos took, zero] at values
  have above : (10 : ℚ) < t.latestAvgOcc := by exact_mod_cast took.2
  rw [values.1, values.2]
  unfold averaged
  intro same
  field_simp at same
  linarith

theorem last_reading_next (ran : sampleOnce s r = some t) : lastReading t = r := by
  have measured := sample_once_measured ran
  unfold lastReading
  rw [measured.cumOcc, measured.tsc]

variable {rest : List Reading}

theorem trapped_run (top : Nat) (rest : List Reading) (trapped : sampleOnce s r = none) :
    EveryCallAverages s top (r :: rest) ∧
    acceptedCount (lastReading s) (r :: rest) = 0 := by
  constructor
  · intro t ran
    rw [trapped] at ran
    cases ran
  · unfold acceptedCount
    rw [if_pos (trapped_iff.mp trapped)]

theorem every_call_cons (ran : sampleOnce s r = some t) (between : Between top s) :
    EveryCallAverages s top (r :: rest) ↔
      (TookSample t → s.smoothedAvgOccF = s.smoothedAvgOccLongtermF) ∧
      EveryCallAverages t (largest top t) rest := by
  rw [EveryCallAverages]
  constructor
  · intro all
    obtain ⟨own, _, others⟩ := all t ran
    exact ⟨(averages_own_iff ran).mp own, others⟩
  · intro both u other
    have same : t = u := Option.some.inj (ran.symm.trans other)
    subst same
    exact ⟨(averages_own_iff ran).mpr both.1, between_kept ran between, both.2⟩

theorem accepted_count_cons (ran : sampleOnce s r = some t) :
    acceptedCount (lastReading s) (r :: rest) =
      (if TookSample t then 1 else 0) + acceptedCount (lastReading t) rest := by
  have returned : ¬ timeBetween (lastReading s) r = 1 := by
    intro trapped
    rw [trapped_iff.mpr trapped] at ran
    cases ran
  rw [acceptedCount, if_neg returned, last_reading_next ran]
  by_cases took : TookSample t
  · rw [if_pos took, if_pos ((took_sample_iff ran).mp took)]
  · rw [if_neg took, if_neg fun accepted => took ((took_sample_iff ran).mpr accepted), Nat.zero_add]

/-- With the two values apart, one more sample is one too many. -/
theorem apart_run (readings : List Reading) (between : Between top s)
    (apart : s.smoothedAvgOccF ≠ s.smoothedAvgOccLongtermF) :
    EveryCallAverages s top readings ↔ acceptedCount (lastReading s) readings = 0 := by
  induction readings generalizing s top with
  | nil => exact iff_of_true trivial rfl
  | cons r rest ih =>
    cases ran : sampleOnce s r with
    | none =>
      have trapped := trapped_run top rest ran
      exact iff_of_true trapped.1 trapped.2
    | some t =>
      rw [every_call_cons ran between, accepted_count_cons ran]
      by_cases took : TookSample t
      · rw [if_pos took]
        constructor
        · intro both
          exact absurd (both.1 took) apart
        · omega
      · have values := smoothed_from_longterm ran
        rw [if_neg took] at values
        have still : t.smoothedAvgOccF ≠ t.smoothedAvgOccLongtermF := by
          rw [values.1, values.2]
          exact apart
        rw [if_neg took, Nat.zero_add, ih (between_kept ran between) still]
        exact and_iff_right fun sample => absurd sample took

theorem fresh_run (readings : List Reading) (between : Between top s)
    (short : s.smoothedAvgOccF = 0) (long : s.smoothedAvgOccLongtermF = 0) :
    EveryCallAverages s top readings ↔ acceptedCount (lastReading s) readings ≤ 1 := by
  induction readings generalizing s top with
  | nil => exact iff_of_true trivial (Nat.zero_le 1)
  | cons r rest ih =>
    cases ran : sampleOnce s r with
    | none =>
      have trapped := trapped_run top rest ran
      exact iff_of_true trapped.1 ((Nat.le_of_eq trapped.2).trans (Nat.zero_le 1))
    | some t =>
      have equal : s.smoothedAvgOccF = s.smoothedAvgOccLongtermF := short.trans long.symm
      rw [every_call_cons ran between, accepted_count_cons ran, and_iff_right fun _ => equal]
      by_cases took : TookSample t
      · rw [if_pos took, apart_run rest (between_kept ran between) (apart_after_sample ran took long)]
        omega
      · have values := smoothed_from_longterm ran
        rw [if_neg took] at values
        rw [if_neg took, Nat.zero_add, ih (between_kept ran between) (values.1.trans short)
          (values.2.trans long)]

theorem start_between : Between 0 start := by
  constructor <;> exact le_refl _

/-- In every run from the start: the two averages are kept up to the first accepted sample,
    and no further. -/
theorem averages_kept_iff (readings : List Reading) :
    EveryCallAverages start 0 readings ↔ acceptedCount ⟨0, 0⟩ readings ≤ 1 :=
  fresh_run readings start_between rfl rfl

/-- Two samples above ten. -/
def twoSamples : List Reading := [⟨100000, 3300⟩, ⟨200000, 6600⟩]

theorem second_sample_wrong : ¬ EveryCallAverages start 0 twoSamples := by
  rw [fresh_run twoSamples start_between rfl rfl]
  decide

end
end SmoothedOccupancy
