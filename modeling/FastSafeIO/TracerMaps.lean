import FastSafeIO.GuestTracer
import Mathlib.Algebra.BigOperators.Intervals
import Mathlib.Algebra.BigOperators.Ring.Finset

/- The counters of the guest tracer in every state that its handlers reach while no counter
   wraps: the statistics and the histogram of a function tell the same story. -/
namespace TracerMaps
open TracingUtils GuestTracer

/-- No counter went down. A counter that wraps does, since every addend is below 2^64. -/
structure Grows (a b : Maps) : Prop where
  count : ∀ cpu key, (a.funcLatencyStats cpu key).count ≤ (b.funcLatencyStats cpu key).count
  total : ∀ cpu key,
    (a.funcLatencyStats cpu key).totalDurationNs ≤ (b.funcLatencyStats cpu key).totalDurationNs
  sumSq : ∀ cpu key,
    (a.funcLatencyStats cpu key).sumSqDurationUs ≤ (b.funcLatencyStats cpu key).sumSqDurationUs
  cell : ∀ cpu key, a.latencyHistogram cpu key ≤ b.latencyHistogram cpu key
  calls : ∀ cpu key, a.funcCallCounts cpu key ≤ b.funcCallCounts cpu key

/-- No 64-bit counter has wrapped in the course of these firings. -/
def Unwrapped : Maps → List Firing → Prop
  | _, [] => True
  | m, e :: rest => Grows m (fire m e) ∧ Unwrapped (fire m e) rest

/-- The zero durations recorded for a function on a CPU in the course of these firings. -/
def zeroDurations (cpu fn : Nat) : Maps → List Firing → Nat
  | _, [] => 0
  | m, e :: rest =>
    (if e.cpu = cpu ∧ e.cookie = fn ∧ recorded m e = some 0 then 1 else 0) +
      zeroDurations cpu fn (fire m e) rest

/-- What the counters of one function on one CPU have to do with each other. The last field
    is sum_sq ≤ (total / 1000)^2 over the rationals. -/
structure Consistent (m : Maps) (cpu fn zeros : Nat) : Prop where
  count : (m.funcLatencyStats cpu fn).count =
    ∑ b ∈ Finset.range HISTO_BUCKETS, m.cell cpu fn b + zeros
  total : ∑ b ∈ Finset.range HISTO_BUCKETS, m.cell cpu fn b * 2 ^ b ≤
    (m.funcLatencyStats cpu fn).totalDurationNs
  sumSq : (m.funcLatencyStats cpu fn).sumSqDurationUs * 1000 ^ 2 ≤
    (m.funcLatencyStats cpu fn).totalDurationNs ^ 2

variable {m : Maps} {e : Firing} {cpu fn zeros d : Nat}

theorem consistent_same {n : Maps} (fine : Consistent m cpu fn zeros)
    (stats : n.funcLatencyStats cpu fn = m.funcLatencyStats cpu fn)
    (cells : ∀ b < HISTO_BUCKETS, n.cell cpu fn b = m.cell cpu fn b) :
    Consistent n cpu fn zeros := by
  have same : ∀ b ∈ Finset.range HISTO_BUCKETS, n.cell cpu fn b = m.cell cpu fn b :=
    fun b member => cells b (Finset.mem_range.mp member)
  constructor
  · rw [stats, Finset.sum_congr rfl same]
    exact fine.count
  · have weighted : ∑ b ∈ Finset.range HISTO_BUCKETS, n.cell cpu fn b * 2 ^ b =
        ∑ b ∈ Finset.range HISTO_BUCKETS, m.cell cpu fn b * 2 ^ b :=
      Finset.sum_congr rfl fun b member => by rw [same b member]
    rw [stats, weighted]
    exact fine.total
  · rw [stats]
    exact fine.sumSq

theorem empty_consistent (cpu fn : Nat) : Consistent Maps.empty cpu fn 0 := by
  have stats : Maps.empty.funcLatencyStats cpu fn = noStats := rfl
  have cells : ∀ b, Maps.empty.cell cpu fn b = 0 := fun _ => rfl
  constructor
  · have none : ∑ b ∈ Finset.range HISTO_BUCKETS, Maps.empty.cell cpu fn b = 0 :=
      Finset.sum_eq_zero fun b _ => cells b
    rw [none]
    rfl
  · have none : ∑ b ∈ Finset.range HISTO_BUCKETS, Maps.empty.cell cpu fn b * 2 ^ b = 0 :=
      Finset.sum_eq_zero fun b _ => by rw [cells b, Nat.zero_mul]
    exact (Nat.le_of_eq none).trans (Nat.zero_le _)
  · rw [stats]
    exact Nat.zero_le _

theorem record_frame {c f : Nat} (latency : fn < TRACE_FUNCS_END)
    (other : ¬ (c = cpu ∧ f = fn)) :
    (recordDuration m cpu fn d).funcLatencyStats c f = m.funcLatencyStats c f ∧
      ∀ b < HISTO_BUCKETS, (recordDuration m cpu fn d).cell c f b = m.cell c f b := by
  constructor
  · rw [record_stats latency]
    exact put_other other
  · intro b small
    unfold Maps.cell
    rw [record_histogram latency]
    split
    · rename_i pos
      apply put_other
      rintro ⟨here, key⟩
      exact other ⟨here, (histo_key_inj small (bucket_lt d) key).1⟩
    · rfl

/-- The cells of the recorded function gain one in the bucket of a positive duration. -/
theorem record_cell (latency : fn < TRACE_FUNCS_END)
    (grows : ∀ key, m.latencyHistogram cpu key ≤ (recordDuration m cpu fn d).latencyHistogram cpu key)
    {b : Nat} (small : b < HISTO_BUCKETS) : (recordDuration m cpu fn d).cell cpu fn b =
      m.cell cpu fn b + if b = bucketOf d ∧ 0 < d then 1 else 0 := by
  have kept := grows (fn * HISTO_BUCKETS + b)
  unfold Maps.cell
  rw [record_histogram latency] at kept ⊢
  by_cases pos : 0 < d
  · simp only [if_pos pos] at kept ⊢
    by_cases here : b = bucketOf d
    · subst here
      change _ ≤ put _ cpu (histoKey fn d) _ cpu (histoKey fn d) at kept
      change put _ cpu (histoKey fn d) _ cpu (histoKey fn d) = _
      rw [put_same] at kept ⊢
      rw [if_pos ⟨rfl, pos⟩]
      exact add64_exact (by decide) kept
    · have apart : ¬ (cpu = cpu ∧ fn * HISTO_BUCKETS + b = histoKey fn d) := by
        rintro ⟨_, key⟩
        exact here (histo_key_inj small (bucket_lt d) key).2
      rw [put_other apart, if_neg fun both => here both.1]
      rfl
  · simp only [if_neg pos]
    rw [if_neg fun both => pos both.2]
    rfl

theorem sum_gain {f : Nat → Nat} {k a : Nat} (small : k < HISTO_BUCKETS) :
    ∑ b ∈ Finset.range HISTO_BUCKETS, (f b + if b = k then a else 0) =
      ∑ b ∈ Finset.range HISTO_BUCKETS, f b + a := by
  rw [Finset.sum_add_distrib, Finset.sum_ite_eq', if_pos (Finset.mem_range.mpr small)]

/-- (a / 1000)^2 added to a sum of such squares stays below the square of the sum. -/
theorem square_gain {q total d added : Nat} (before : q * 1000 ^ 2 ≤ total ^ 2)
    (small : added ≤ d / 1000 * (d / 1000)) : (q + added) * 1000 ^ 2 ≤ (total + d) ^ 2 := by
  have micro : d / 1000 * 1000 ≤ d := Nat.div_mul_le_self d 1000
  calc (q + added) * 1000 ^ 2 = q * 1000 ^ 2 + added * 1000 ^ 2 := Nat.add_mul ..
    _ ≤ total ^ 2 + d / 1000 * (d / 1000) * 1000 ^ 2 :=
      Nat.add_le_add before (Nat.mul_le_mul_right _ small)
    _ = total ^ 2 + (d / 1000 * 1000) ^ 2 := by ring
    _ ≤ total ^ 2 + d ^ 2 := Nat.add_le_add_left (Nat.pow_le_pow_left micro 2) _
    _ ≤ total ^ 2 + d ^ 2 + 2 * total * d := Nat.le_add_right _ _
    _ = (total + d) ^ 2 := by ring

theorem record_consistent (fine : Consistent m cpu fn zeros) (latency : fn < TRACE_FUNCS_END)
    (bound : d < 2 ^ 64) (grows : Grows m (recordDuration m cpu fn d)) :
    Consistent (recordDuration m cpu fn d) cpu fn (zeros + if d = 0 then 1 else 0) := by
  have stats : (recordDuration m cpu fn d).funcLatencyStats cpu fn =
      (m.funcLatencyStats cpu fn).add d := by
    rw [record_stats latency, put_same]
  have count := grows.count cpu fn
  have total := grows.total cpu fn
  have sumSq := grows.sumSq cpu fn
  rw [stats] at count total sumSq
  have newCount := add64_exact (show 1 < 2 ^ 64 by decide) count
  have newTotal := add64_exact bound total
  have newSquare := add64_exact (mul64_lt _ _) sumSq
  have cells : ∀ b ∈ Finset.range HISTO_BUCKETS, (recordDuration m cpu fn d).cell cpu fn b =
      m.cell cpu fn b + if b = bucketOf d ∧ 0 < d then 1 else 0 :=
    fun b member => record_cell latency (grows.cell cpu) (Finset.mem_range.mp member)
  constructor
  · rw [stats]
    change add64 _ 1 = _
    rw [newCount, Finset.sum_congr rfl cells, fine.count]
    by_cases pos : 0 < d
    · simp only [pos, and_true]
      rw [sum_gain (bucket_lt d), if_neg (Nat.ne_of_gt pos)]
      omega
    · have zero : d = 0 := by omega
      simp [zero, Nat.add_assoc]
  · rw [stats]
    change _ ≤ add64 _ d
    rw [newTotal]
    have weighted : ∑ b ∈ Finset.range HISTO_BUCKETS,
        (recordDuration m cpu fn d).cell cpu fn b * 2 ^ b ≤
        ∑ b ∈ Finset.range HISTO_BUCKETS, m.cell cpu fn b * 2 ^ b + d := by
      rw [Finset.sum_congr rfl fun b member => by rw [cells b member, Nat.add_mul]]
      by_cases pos : 0 < d
      · have gain : ∀ b, (if b = bucketOf d ∧ 0 < d then 1 else 0) * 2 ^ b =
            if b = bucketOf d then 2 ^ bucketOf d else 0 := by
          intro b
          by_cases here : b = bucketOf d
          · simp [here, pos]
          · simp [here]
        simp only [gain]
        rw [sum_gain (bucket_lt d)]
        exact Nat.add_le_add_left (bucket_low pos bound) _
      · simp [pos]
    exact weighted.trans (Nat.add_le_add_right fine.total d)
  · rw [stats]
    change add64 _ (mul64 (d / 1000) (d / 1000)) * _ ≤ add64 _ d ^ 2
    rw [newSquare, newTotal]
    exact square_gain fine.sumSq (Nat.mod_le _ _)

theorem clear_start_consistent {task cookie : Nat} :
    Consistent (m.clearStart task cookie) cpu fn zeros ↔ Consistent m cpu fn zeros := by
  have same := clear_start_counters m task cookie
  constructor
  · intro fine
    exact consistent_same fine (by rw [same.stats]) fun b _ => by simp only [Maps.cell, same.histogram]
  · intro fine
    exact consistent_same fine (by rw [same.stats]) fun b _ => by simp only [Maps.cell, same.histogram]

theorem fire_consistent (latency : fn < TRACE_FUNCS_END) (fine : Consistent m cpu fn zeros)
    (grows : Grows m (fire m e)) :
    Consistent (fire m e) cpu fn
      (zeros + if e.cpu = cpu ∧ e.cookie = fn ∧ recorded m e = some 0 then 1 else 0) := by
  cases duration : recorded m e with
  | none =>
    simp only [reduceCtorEq, and_false, ↓reduceIte, Nat.add_zero]
    cases probe : e.probe with
    | entry created =>
      have same := entry_counters (m := m) probe
      exact consistent_same fine (by rw [same.stats])
        fun b _ => by simp only [Maps.cell, same.histogram]
    | exit =>
      by_cases traced : e.cookie < TRACE_FUNCS_END
      · rw [exit_silent probe traced duration]
        exact fine
      · rw [count_exit probe (Nat.le_of_not_lt traced)]
        split
        · exact consistent_same fine rfl fun _ _ => rfl
        · exact fine
  | some d =>
    obtain ⟨_, traced, _, _⟩ := recorded_exit duration
    have bound := recorded_lt duration
    rw [exit_records duration] at grows ⊢
    have same := clear_start_counters m e.task e.cookie
    have cleared : Consistent (m.clearStart e.task e.cookie) cpu fn zeros :=
      clear_start_consistent.mpr fine
    by_cases here : cpu = e.cpu ∧ fn = e.cookie
    · obtain ⟨rfl, rfl⟩ := here
      simp only [true_and, Option.some.injEq]
      apply record_consistent cleared traced bound
      exact ⟨same.stats ▸ grows.count, same.stats ▸ grows.total, same.stats ▸ grows.sumSq,
        same.histogram ▸ grows.cell, same.counts ▸ grows.calls⟩
    · obtain ⟨stats, cells⟩ := record_frame (m := m.clearStart e.task e.cookie) traced here
      have apart : ¬ (e.cpu = cpu ∧ e.cookie = fn ∧ some d = some 0) :=
        fun all => here ⟨all.1.symm, all.2.1.symm⟩
      rw [if_neg apart]
      exact consistent_same cleared stats cells

theorem run_consistent (latency : fn < TRACE_FUNCS_END) (events : List Firing)
    (fine : Consistent m cpu fn zeros) (unwrapped : Unwrapped m events) :
    Consistent (fireAll m events) cpu fn (zeros + zeroDurations cpu fn m events) := by
  induction events generalizing m zeros with
  | nil => exact fine
  | cons e rest ih =>
    have next := ih (fire_consistent latency fine unwrapped.1) unwrapped.2
    rwa [Nat.add_assoc] at next

/-- What an exit touches: one of a latency function its own cells and the cleared start time,
    one of a counted function its own cell of func_call_counts. -/
structure ExitFrame (m : Maps) (e : Firing) : Prop where
  key : ∀ d, recorded m e = some d → 0 < d →
    histoKey e.cookie d < TRACE_FUNCS_END * HISTO_BUCKETS
  others : e.cookie < TRACE_FUNCS_END → ∀ cpu fn, ¬ (cpu = e.cpu ∧ fn = e.cookie) →
    (fire m e).funcLatencyStats cpu fn = m.funcLatencyStats cpu fn ∧
      ∀ b < HISTO_BUCKETS, (fire m e).cell cpu fn b = m.cell cpu fn b
  counts : e.cookie < TRACE_FUNCS_END → (fire m e).funcCallCounts = m.funcCallCounts
  counting : TRACE_FUNCS_END ≤ e.cookie → e.cookie ≤ FUNCTION_NAME_MAX →
    (fire m e).funcLatencyStats = m.funcLatencyStats ∧
      (fire m e).latencyHistogram = m.latencyHistogram ∧
      ∀ cpu key, ¬ (cpu = e.cpu ∧ key = e.cookie) →
        (fire m e).funcCallCounts cpu key = m.funcCallCounts cpu key

theorem exit_frame (exit : e.probe = .exit) : ExitFrame m e := by
  constructor
  · intro d duration pos
    exact histo_key_lt (recorded_exit duration).2.1 _
  · intro traced c f other
    cases duration : recorded m e with
    | none =>
      rw [exit_silent exit traced duration]
      exact ⟨rfl, fun _ _ => rfl⟩
    | some d =>
      have same := clear_start_counters m e.task e.cookie
      obtain ⟨stats, cells⟩ := record_frame (m := m.clearStart e.task e.cookie) traced
        other
      rw [exit_records duration]
      refine ⟨by rw [stats, same.stats], fun b small => ?_⟩
      rw [cells b small]
      simp only [Maps.cell, same.histogram]
  · intro traced
    cases duration : recorded m e with
    | none => rw [exit_silent exit traced duration]
    | some d =>
      rw [exit_records duration, (record_leaves _ _ _ _).1]
      exact (clear_start_counters m e.task e.cookie).counts
  · intro counting known
    have key : e.cookie % 2 ^ 32 = e.cookie := by
      unfold FUNCTION_NAME_MAX at known
      omega
    rw [count_exit exit counting, key]
    split
    · exact ⟨rfl, rfl, fun c k other => put_other other⟩
    · exact ⟨rfl, rfl, fun _ _ _ => rfl⟩

/-- Every state reached from empty maps while no counter wraps is consistent for every
    function on every CPU, and whichever exit comes next touches its own cells only. -/
theorem tracer_maps_coherent (events : List Firing) (unwrapped : Unwrapped .empty events) :
    (∀ cpu fn, fn < TRACE_FUNCS_END →
      Consistent (fireAll .empty events) cpu fn (zeroDurations cpu fn .empty events)) ∧
    ∀ e : Firing, e.probe = .exit → ExitFrame (fireAll .empty events) e := by
  refine ⟨fun cpu fn latency => ?_, fun e exit => exit_frame exit⟩
  have reached := run_consistent latency events (empty_consistent cpu fn) unwrapped
  rwa [Nat.zero_add] at reached

/-- A call of 5000 ns whose task moves from CPU 0 to CPU 1. -/
def oneCall : List Firing :=
  [⟨.entry true, 3, 0, FunctionName.qiSubmitSync.value, 100⟩,
    ⟨.exit, 3, 1, FunctionName.qiSubmitSync.value, 5100⟩]

theorem one_call_unwrapped : Unwrapped .empty oneCall := by
  refine ⟨?_, ?_, trivial⟩
  · exact ⟨fun _ _ => Nat.zero_le _, fun _ _ => Nat.zero_le _, fun _ _ => Nat.zero_le _,
      fun _ _ => Nat.zero_le _, fun _ _ => Nat.zero_le _⟩
  · exact ⟨fun _ _ => Nat.zero_le _, fun _ _ => Nat.zero_le _, fun _ _ => Nat.zero_le _,
      fun _ _ => Nat.zero_le _, fun _ _ => Nat.zero_le _⟩

theorem one_call_coherent :
    (fireAll .empty oneCall).funcLatencyStats 1 FunctionName.qiSubmitSync.value = ⟨1, 5000, 25⟩ ∧
    Consistent (fireAll .empty oneCall) 1 FunctionName.qiSubmitSync.value 0 :=
  ⟨by decide, (tracer_maps_coherent oneCall one_call_unwrapped).1 1 _ (by decide)⟩

end TracerMaps
