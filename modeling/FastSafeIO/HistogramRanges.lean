import FastSafeIO.GuestLoader

/- The histogram line that a duration is counted under, and the range that it states. -/
namespace HistogramRanges
open TracingUtils GuestTracer GuestLoader

/-- A line of the function whose cell the exit changed. -/
def CountedUnder (m : Maps) (e : Firing) (l : HistogramLine) : Prop :=
  l.fn = e.cookie ∧ (fire m e).cell e.cpu l.fn l.bucket ≠ m.cell e.cpu l.fn l.bucket

/-- Whatever is counted later, the line states a range with the duration in it. -/
def RangeTrue (m : Maps) (e : Firing) (d : Nat) : Prop :=
  ∀ numCpus later, ∀ l ∈ histogramLines numCpus later e.cookie, CountedUnder m e l →
    l.lower ≤ d ∧ d ≤ l.upper

variable {numCpus fn : Nat} {m : Maps} {e : Firing} {d : Nat}

theorem add64_one_ne (a : Nat) : add64 a 1 ≠ a := by
  unfold add64
  omega

theorem cell_changes {b : Nat} (duration : recorded m e = some d) (pos : 0 < d)
    (small : b < HISTO_BUCKETS) :
    (fire m e).cell e.cpu e.cookie b ≠ m.cell e.cpu e.cookie b ↔ b = bucketOf d := by
  have latency := (recorded_exit duration).2.1
  have cleared := (clear_start_counters m e.task e.cookie).histogram
  unfold Maps.cell
  rw [exit_records duration, record_histogram latency, if_pos pos, cleared]
  constructor
  · intro changed
    by_contra other
    apply changed
    apply put_other
    intro same
    exact other (histo_key_inj small (bucket_lt d) same.2).2
  · intro same
    rw [same]
    change put _ e.cpu (histoKey e.cookie d) _ e.cpu (histoKey e.cookie d) ≠ _
    rw [put_same]
    exact add64_one_ne _

theorem counted_under_iff {bucket : Nat} (duration : recorded m e = some d) (pos : 0 < d)
    (small : bucket < HISTO_BUCKETS) (count : Nat) :
    CountedUnder m e (histogramLine e.cookie bucket count) ↔ bucket = bucketOf d := by
  rw [← cell_changes duration pos small]
  exact and_iff_right rfl

theorem histogram_line_mem {l : HistogramLine} : l ∈ histogramLines numCpus m fn ↔
    ∃ bucket < HISTO_BUCKETS, ∃ count > 0,
      count = (total64 numCpus fun cpu => m.cell cpu fn bucket) ∧
      l = histogramLine fn bucket count := by
  unfold histogramLines
  rw [List.mem_filterMap]
  constructor
  · intro found
    obtain ⟨bucket, member, line⟩ := found
    obtain ⟨positive, same⟩ := Option.ite_none_right_eq_some.mp line
    exact ⟨bucket, List.mem_range.mp member, _, positive, rfl, (Option.some.inj same).symm⟩
  · intro shape
    obtain ⟨bucket, small, count, positive, total, line⟩ := shape
    unfold Maps.cell at total
    refine ⟨bucket, List.mem_range.mpr small, ?_⟩
    dsimp only
    rw [← total, if_pos positive, line]

theorem total64_one (f : Nat → Nat) : total64 1 f = f 0 % 2 ^ 64 := by
  simp [total64, add64]

theorem line_printed {bucket : Nat} (small : bucket < HISTO_BUCKETS) (fn : Nat) :
    histogramLine fn bucket 1 ∈
      histogramLines 1 { Maps.empty with latencyHistogram := fun _ _ => 1 } fn := by
  rw [histogram_line_mem]
  refine ⟨bucket, small, 1, Nat.one_pos, ?_, rfl⟩
  rw [total64_one]
  rfl

/-- The last line states an upper end, yet counts every longer duration too. -/
theorem printed_range_true_iff (duration : recorded m e = some d) (positive : 1 ≤ d) :
    RangeTrue m e d ↔ d < 2 ^ HISTO_BUCKETS := by
  have bound := recorded_lt duration
  have bucket := bucket_eq positive bound
  have nonzero : d ≠ 0 := Nat.ne_of_gt positive
  constructor
  · intro ranges
    have small := bucket_lt d
    have counted := (counted_under_iff duration positive small 1).mpr rfl
    have upper : d ≤ 2 ^ (bucketOf d + 1) - 1 :=
      (ranges _ _ _ (line_printed small e.cookie) counted).2
    have widest : 2 ^ (bucketOf d + 1) ≤ 2 ^ HISTO_BUCKETS :=
      Nat.pow_le_pow_right (by decide) small
    have some_range : 0 < 2 ^ (bucketOf d + 1) := Nat.two_pow_pos _
    omega
  · intro short numCpus later l member counted
    obtain ⟨bucket, small, count, _, _, rfl⟩ := histogram_line_mem.mp member
    have same := (counted_under_iff duration positive small count).mp counted
    have log : Nat.log2 d < HISTO_BUCKETS := (Nat.log2_lt nonzero).mpr short
    have exact_log : bucket = Nat.log2 d := by omega
    rw [exact_log]
    exact ⟨Nat.log2_self_le nonzero, Nat.le_sub_one_of_lt Nat.lt_log2_self⟩

/-- A call of 2^21 ns. -/
def longCall : List Firing := [⟨.entry true, 3, 0, FunctionName.qiSubmitSync.value, 100⟩]

def longExit : Firing := ⟨.exit, 3, 0, FunctionName.qiSubmitSync.value, 100 + 2097152⟩

/-- It is counted under a line that ends at 2^21 - 1. -/
theorem long_call_misplaced : recorded (fireAll .empty longCall) longExit = some 2097152 ∧
    ¬ RangeTrue (fireAll .empty longCall) longExit 2097152 := by
  have duration : recorded (fireAll .empty longCall) longExit = some 2097152 := by decide
  constructor
  · exact duration
  · intro ranges
    have last : 20 = bucketOf 2097152 := by decide
    have counted := (counted_under_iff duration (by decide) (by decide) 1).mpr last
    have upper : 2097152 ≤ 2 ^ 21 - 1 := (ranges _ _ _ (line_printed (by decide) _) counted).2
    exact absurd upper (by decide)

theorem short_call_in_range : RangeTrue (fireAll .empty longCall)
    { longExit with now := 100 + 2097151 } 2097151 :=
  (printed_range_true_iff (by decide) (by decide)).mpr (by decide)

end HistogramRanges
