import FastSafeIO.GuestLoader
import FastSafeIO.SampleSums
import Mathlib.Algebra.Order.BigOperators.Group.List
import Mathlib.Data.Rat.Cast.Order
import Mathlib.Tactic.Linarith

/-! The variance column of the latency statistics: how far the truncation to whole
microseconds carries it away from a variance. -/
namespace VarianceSign
open TracingUtils GuestTracer GuestLoader SampleSums

/-- variance_us as dump_aggregate_to_file computes it, without the rounding of doubles. -/
def exactVarianceUs (s : LatencyStats) : ℚ :=
  let meanNs : ℚ := s.totalDurationNs / s.count
  let meanUs := meanNs / 1000
  s.sumSqDurationUs / s.count - meanUs * meanUs

/-- What an event records for the function: the CPU and the duration. -/
def recordedFor (fn : Nat) (m : Maps) (e : Firing) : Option (Nat × Nat) :=
  if e.cookie = fn then (recorded m e).map fun d => (e.cpu, d) else none

/-- The durations of the function that a run records. -/
def durations (fn : Nat) (m : Maps) : List Firing → List (Nat × Nat)
  | [] => []
  | e :: rest => (recordedFor fn m e).toList ++ durations fn (fire m e) rest

def squareUs (d : Nat) : Nat := d / 1000 * (d / 1000)

/-- The three counters before any of them wraps. -/
def exactStats (ds : List Nat) : LatencyStats where
  count := ds.length
  totalDurationNs := ds.sum
  sumSqDurationUs := (ds.map squareUs).sum

structure NoWrap (ds : List Nat) : Prop where
  count : ds.length < 2 ^ 64
  total : ds.sum < 2 ^ 64
  squares : (ds.map squareUs).sum < 2 ^ 64

/-- Never below zero, and zero where all durations are one. -/
def IsVariance (v : ℚ) (ds : List Nat) : Prop := 0 ≤ v ∧ ((∀ d ∈ ds, ∀ e ∈ ds, d = e) → v = 0)

def wholeUs (ds : List Nat) : List ℚ := ds.map fun d => ((d / 1000 : Nat) : ℚ)

/-- What the whole microseconds leave of the durations, in ns. -/
def lostNs (ds : List Nat) : ℚ := ((ds.map (· % 1000)).sum : Nat)

/-- The whole microseconds lie far enough apart to make up for what they leave. -/
def SpreadCoversLoss (ds : List Nat) : Prop :=
  lostNs ds * (2000 * (wholeUs ds).sum + lostNs ds) ≤ 10 ^ 6 * spread (wholeUs ds)

section
variable {ds es : List Nat}

theorem whole_and_lost (ds : List Nat) : (ds.sum : ℚ) = 1000 * (wholeUs ds).sum + lostNs ds := by
  unfold lostNs wholeUs
  induction ds with
  | nil => simp
  | cons d ds ih =>
    have parts : (d : ℚ) = 1000 * ((d / 1000 : Nat) : ℚ) + ((d % 1000 : Nat) : ℚ) := by
      exact_mod_cast (Nat.div_add_mod d 1000).symm
    simp only [List.sum_cons, List.map_cons, Nat.cast_add, ih]
    linear_combination parts

theorem squares_of_whole (ds : List Nat) :
    (((ds.map squareUs).sum : Nat) : ℚ) = ((wholeUs ds).map (· ^ 2)).sum := by
  unfold wholeUs
  induction ds with
  | nil => simp
  | cons d ds ih =>
    have square : (squareUs d : ℚ) = ((d / 1000 : Nat) : ℚ) ^ 2 := by
      rw [squareUs, Nat.cast_mul, sq]
    simp only [List.map_cons, List.sum_cons, Nat.cast_add, square, ih]

/-- The value reported: the spread of the whole microseconds less what the mean has on top
    of them. -/
theorem variance_eq (filled : ds ≠ []) : exactVarianceUs (exactStats ds) =
    (10 ^ 6 * spread (wholeUs ds) - lostNs ds * (2000 * (wholeUs ds).sum + lostNs ds)) /
      (1000 * ds.length) ^ 2 := by
  have count : (ds.length : ℚ) ≠ 0 := by
    exact_mod_cast (List.length_pos_iff.mpr filled).ne'
  have lagrange := length_mul_sum_sq (wholeUs ds)
  have length : (wholeUs ds).length = ds.length := List.length_map _
  rw [length] at lagrange
  unfold exactVarianceUs exactStats
  dsimp only
  rw [squares_of_whole, whole_and_lost]
  field_simp
  linear_combination 10 ^ 6 * lagrange

theorem lost_nonneg (ds : List Nat) : 0 ≤ lostNs ds := Nat.cast_nonneg _

theorem whole_nonneg (ds : List Nat) : 0 ≤ (wholeUs ds).sum := by
  apply List.sum_nonneg
  intro x member
  obtain ⟨d, _, rfl⟩ := List.mem_map.mp member
  exact Nat.cast_nonneg _

theorem spread_equal (equal : ∀ d ∈ ds, ∀ e ∈ ds, d = e) : spread (wholeUs ds) = 0 := by
  cases ds with
  | nil => rfl
  | cons d ds =>
    apply spread_constant (x := ((d / 1000 : Nat) : ℚ))
    intro y member
    obtain ⟨e, known, rfl⟩ := List.mem_map.mp member
    rw [equal e known d List.mem_cons_self]

theorem equal_covers_iff (equal : ∀ d ∈ ds, ∀ e ∈ ds, d = e) :
    SpreadCoversLoss ds ↔ ∀ d ∈ ds, d % 1000 = 0 := by
  have lost := lost_nonneg ds
  have whole := whole_nonneg ds
  have none_lost : lostNs ds = 0 ↔ ∀ d ∈ ds, d % 1000 = 0 := by
    unfold lostNs
    rw [Nat.cast_eq_zero, List.sum_eq_zero_iff]
    simp only [List.mem_map, forall_exists_index, and_imp, forall_apply_eq_imp_iff₂]
  unfold SpreadCoversLoss
  rw [spread_equal equal, mul_zero, ← none_lost]
  constructor
  · intro covered
    have square : lostNs ds * lostNs ds ≤ 0 := by nlinarith
    exact mul_self_eq_zero.mp (le_antisymm square (mul_self_nonneg _))
  · intro zero
    rw [zero, zero_mul]

theorem is_variance_iff (filled : ds ≠ []) :
    IsVariance (exactVarianceUs (exactStats ds)) ds ↔ SpreadCoversLoss ds := by
  have count : (0 : ℚ) < ds.length := by
    exact_mod_cast List.length_pos_iff.mpr filled
  have scale : (0 : ℚ) < (1000 * ds.length) ^ 2 := by positivity
  have sign : 0 ≤ exactVarianceUs (exactStats ds) ↔ SpreadCoversLoss ds := by
    rw [variance_eq filled, le_div_iff₀ scale, zero_mul, sub_nonneg]
    rfl
  constructor
  · intro variance
    exact sign.mp variance.1
  · intro covers
    constructor
    · exact sign.mpr covers
    · intro equal
      -- nothing is spread, so nothing may be lost
      have loss : lostNs ds * (2000 * (wholeUs ds).sum + lostNs ds) = 0 := by
        have upper := covers
        unfold SpreadCoversLoss at upper
        rw [spread_equal equal, mul_zero] at upper
        have lower : 0 ≤ lostNs ds * (2000 * (wholeUs ds).sum + lostNs ds) := by
          have lost := lost_nonneg ds
          have whole := whole_nonneg ds
          positivity
        exact le_antisymm upper lower
      rw [variance_eq filled, spread_equal equal, loss]
      simp

end

/-- The durations of one CPU, in order. -/
def onCpu (cpu : Nat) (l : List (Nat × Nat)) : List Nat := (l.filter (·.1 = cpu)).map Prod.snd

section
variable {fn cpu : Nat} {m : Maps} {e : Firing}

theorem silent_stats (silent : recorded m e = none) :
    (fire m e).funcLatencyStats = m.funcLatencyStats := by
  cases probe : e.probe with
  | entry created => exact (entry_counters probe).stats
  | exit =>
    by_cases latency : e.cookie < TRACE_FUNCS_END
    · rw [exit_silent probe latency silent]
    · rw [count_exit probe (Nat.not_lt.mp latency)]
      split <;> rfl

theorem fire_stats (m : Maps) (e : Firing) : (fire m e).funcLatencyStats cpu fn =
    (onCpu cpu (recordedFor fn m e).toList).foldl LatencyStats.add (m.funcLatencyStats cpu fn) := by
  unfold recordedFor
  cases duration : recorded m e with
  | none =>
    rw [silent_stats duration]
    simp [onCpu]
  | some d =>
    have latency := (recorded_exit duration).2.1
    rw [exit_records duration, record_stats latency, (clear_start_counters m e.task e.cookie).stats]
    by_cases mine : e.cookie = fn
    · subst mine
      by_cases here : e.cpu = cpu
      · subst here
        simp [onCpu]
      · rw [put_other fun both => here both.1.symm]
        simp [onCpu, here]
    · rw [put_other fun both => mine both.2.symm]
      simp [onCpu, mine]

theorem run_stats (events : List Firing) (m : Maps) : (fireAll m events).funcLatencyStats cpu fn =
    (onCpu cpu (durations fn m events)).foldl LatencyStats.add (m.funcLatencyStats cpu fn) := by
  induction events generalizing m with
  | nil => rfl
  | cons e rest ih =>
    have first : fireAll m (e :: rest) = fireAll (fire m e) rest := rfl
    rw [first, ih, fire_stats]
    simp only [durations, onCpu, List.filter_append, List.map_append, List.foldl_append]

end

section
variable {ds es : List Nat}

theorem no_wrap_sublist (part : es.Sublist ds) (unwrapped : NoWrap ds) : NoWrap es := by
  constructor
  · exact lt_of_le_of_lt part.length_le unwrapped.count
  · exact lt_of_le_of_lt (part.sum_le_sum fun _ _ => Nat.zero_le _) unwrapped.total
  · exact lt_of_le_of_lt ((part.map squareUs).sum_le_sum fun _ _ => Nat.zero_le _) unwrapped.squares

theorem exact_stats_append (ds es : List Nat) : exactStats (ds ++ es) =
    ⟨(exactStats ds).count + (exactStats es).count,
      (exactStats ds).totalDurationNs + (exactStats es).totalDurationNs,
      (exactStats ds).sumSqDurationUs + (exactStats es).sumSqDurationUs⟩ := by
  simp [exactStats]

theorem add_exact {d : Nat} (unwrapped : NoWrap (ds ++ [d])) :
    (exactStats ds).add d = exactStats (ds ++ [d]) := by
  obtain ⟨count, total, squares⟩ := unwrapped
  rw [List.length_append] at count
  rw [List.sum_append] at total
  rw [List.map_append, List.sum_append] at squares
  simp only [List.length_singleton, List.sum_singleton, List.map_cons, List.map_nil] at count total squares
  rw [exact_stats_append]
  simp only [LatencyStats.add, exactStats, add64, mul64, List.length_singleton, List.sum_singleton,
    List.map_cons, List.map_nil]
  rw [Nat.mod_eq_of_lt count, Nat.mod_eq_of_lt total]
  change LatencyStats.mk _ _ ((_ + squareUs d % 2 ^ 64) % 2 ^ 64) = _
  rw [Nat.add_mod_mod, Nat.mod_eq_of_lt squares]

theorem add_all_exact (unwrapped : NoWrap ds) :
    ds.foldl LatencyStats.add noStats = exactStats ds := by
  induction ds using List.reverseRecOn with
  | nil => rfl
  | append_singleton ds d ih =>
    rw [List.foldl_append, ih (no_wrap_sublist (List.sublist_append_left ds [d]) unwrapped)]
    exact add_exact unwrapped

theorem exact_stats_perm (perm : ds.Perm es) : exactStats ds = exactStats es := by
  unfold exactStats
  rw [perm.length_eq, perm.sum_eq, (perm.map squareUs).sum_eq]

end

section
variable {l : List (Nat × Nat)} {cells : Nat → LatencyStats} {numCpus fn k : Nat} {m : Maps}

/-- The durations of the first k CPUs. -/
def below (k : Nat) (l : List (Nat × Nat)) : List Nat := (l.filter (·.1 < k)).map Prod.snd

theorem below_succ (k : Nat) (l : List (Nat × Nat)) :
    (below k l ++ onCpu k l).Perm (below (k + 1) l) := by
  have lower : (l.filter (·.1 < k + 1)).filter (·.1 < k) = l.filter (·.1 < k) := by
    rw [List.filter_filter]
    apply List.filter_congr
    intro p _
    by_cases small : p.1 < k
    · simp [small, Nat.lt_succ_of_lt small]
    · simp [small]
  have last : (l.filter (·.1 < k + 1)).filter (fun p => !decide (p.1 < k)) = l.filter (·.1 = k) := by
    rw [List.filter_filter]
    apply List.filter_congr
    intro p _
    rw [← decide_not, ← Bool.decide_and, decide_eq_decide]
    omega
  have split := List.filter_append_perm (fun p : Nat × Nat => decide (p.1 < k)) (l.filter (·.1 < k + 1))
  rw [lower, last] at split
  unfold below onCpu
  rw [← List.map_append]
  exact split.map Prod.snd

theorem below_all (known : ∀ p ∈ l, p.1 < numCpus) : below numCpus l = l.map Prod.snd := by
  unfold below
  rw [List.filter_eq_self.mpr]
  intro p member
  exact decide_eq_true (known p member)

theorem next_cpu_exact (unwrapped : NoWrap (l.map Prod.snd)) (k : Nat) :
    LatencyStats.mk (add64 (exactStats (below k l)).count (exactStats (onCpu k l)).count)
      (add64 (exactStats (below k l)).totalDurationNs (exactStats (onCpu k l)).totalDurationNs)
      (add64 (exactStats (below k l)).sumSqDurationUs (exactStats (onCpu k l)).sumSqDurationUs) =
    exactStats (below (k + 1) l) := by
  have part : NoWrap (below (k + 1) l) :=
    no_wrap_sublist (List.filter_sublist.map Prod.snd) unwrapped
  have stats := exact_stats_append (below k l) (onCpu k l)
  rw [exact_stats_perm (below_succ k l)] at stats
  have count : (exactStats (below k l)).count + (exactStats (onCpu k l)).count < 2 ^ 64 :=
    lt_of_eq_of_lt (congrArg LatencyStats.count stats).symm part.count
  have total : (exactStats (below k l)).totalDurationNs +
      (exactStats (onCpu k l)).totalDurationNs < 2 ^ 64 :=
    lt_of_eq_of_lt (congrArg LatencyStats.totalDurationNs stats).symm part.total
  have squares : (exactStats (below k l)).sumSqDurationUs +
      (exactStats (onCpu k l)).sumSqDurationUs < 2 ^ 64 :=
    lt_of_eq_of_lt (congrArg LatencyStats.sumSqDurationUs stats).symm part.squares
  rw [stats]
  unfold add64
  rw [Nat.mod_eq_of_lt count, Nat.mod_eq_of_lt total, Nat.mod_eq_of_lt squares]

theorem totals_exact (cell : ∀ cpu, m.funcLatencyStats cpu fn = exactStats (onCpu cpu l))
    (unwrapped : NoWrap (l.map Prod.snd)) (k : Nat) :
    latencyTotals k m fn = exactStats (below k l) := by
  induction k with
  | zero =>
    have none : below 0 l = [] := by simp [below]
    rw [none]
    rfl
  | succ k ih =>
    unfold latencyTotals at ih ⊢
    rw [List.range_succ, List.foldl_append, ih]
    simp only [List.foldl_cons, List.foldl_nil, cell]
    split
    · rename_i idle
      rw [← exact_stats_perm (below_succ k l), List.length_eq_zero_iff.mp idle, List.append_nil]
    · exact next_cpu_exact unwrapped k

theorem run_totals {events : List Firing} (known : ∀ p ∈ durations fn .empty events, p.1 < numCpus)
    (unwrapped : NoWrap ((durations fn .empty events).map Prod.snd)) :
    latencyTotals numCpus (fireAll .empty events) fn =
      exactStats ((durations fn .empty events).map Prod.snd) := by
  have cell : ∀ cpu, (fireAll .empty events).funcLatencyStats cpu fn =
      exactStats (onCpu cpu (durations fn .empty events)) := by
    intro cpu
    rw [run_stats]
    exact add_all_exact (no_wrap_sublist (List.filter_sublist.map Prod.snd) unwrapped)
  rw [totals_exact cell unwrapped, below_all known]

end

/-- The reported value is a variance exactly where the spread covers the loss. -/
theorem reported_variance_iff {numCpus fn : Nat} {events : List Firing}
    (filled : durations fn .empty events ≠ [])
    (known : ∀ p ∈ durations fn .empty events, p.1 < numCpus)
    (unwrapped : NoWrap ((durations fn .empty events).map Prod.snd)) :
    IsVariance (exactVarianceUs (latencyTotals numCpus (fireAll .empty events) fn))
        ((durations fn .empty events).map Prod.snd) ↔
      SpreadCoversLoss ((durations fn .empty events).map Prod.snd) := by
  have some_duration : (durations fn .empty events).map Prod.snd ≠ [] := fun none =>
    filled (List.map_eq_nil_iff.mp none)
  rw [run_totals known unwrapped]
  exact is_variance_iff some_duration

/-- One call of one and a half microseconds. -/
def halfLost : List Firing := [⟨.entry true, 0, 0, 0, 1000⟩, ⟨.exit, 0, 0, 0, 2500⟩]

/-- Two calls of three and eight whole microseconds, on two CPUs. -/
def wholeCalls : List Firing :=
  [⟨.entry true, 0, 0, 0, 1000⟩, ⟨.entry true, 1, 1, 0, 1500⟩, ⟨.exit, 0, 0, 0, 4000⟩,
    ⟨.exit, 1, 1, 0, 9500⟩]

theorem half_lost_negative : durations 0 .empty halfLost = [(0, 1500)] ∧
    NoWrap ((durations 0 .empty halfLost).map Prod.snd) ∧
    exactVarianceUs (latencyTotals 1 (fireAll .empty halfLost) 0) = -5 / 4 ∧
    ¬ IsVariance (exactVarianceUs (latencyTotals 1 (fireAll .empty halfLost) 0))
      ((durations 0 .empty halfLost).map Prod.snd) := by
  have list : durations 0 .empty halfLost = [(0, 1500)] := by decide
  have totals : latencyTotals 1 (fireAll .empty halfLost) 0 = ⟨1, 1500, 1⟩ := by decide
  have value : exactVarianceUs ⟨1, 1500, 1⟩ = -5 / 4 := by
    norm_num [exactVarianceUs]
  rw [totals, list, value]
  refine ⟨rfl, ⟨by decide, by decide, by decide⟩, rfl, ?_⟩
  intro variance
  have negative : (0 : ℚ) ≤ -5 / 4 := variance.1
  norm_num at negative

theorem whole_calls_variance : durations 0 .empty wholeCalls = [(0, 3000), (1, 8000)] ∧
    IsVariance (exactVarianceUs (latencyTotals 2 (fireAll .empty wholeCalls) 0))
      ((durations 0 .empty wholeCalls).map Prod.snd) := by
  have list : durations 0 .empty wholeCalls = [(0, 3000), (1, 8000)] := by decide
  constructor
  · exact list
  · apply (reported_variance_iff (by rw [list]; decide) (by rw [list]; decide)
      ⟨by rw [list]; decide, by rw [list]; decide, by rw [list]; decide⟩).mpr
    rw [list]
    norm_num [SpreadCoversLoss, lostNs, wholeUs, spread]

end VarianceSign
