import FastSafeIO.TracingUtils

/-! The entry and exit handlers of guest_tracer.bpf.c. -/
namespace GuestTracer
open TracingUtils

/-- Task storage holds a start time for each latency function, 0 when none is set; the other
    three are per-CPU arrays. -/
structure Maps where
  taskStorage : Nat → Option (Nat → Nat)
  funcLatencyStats : Nat → Nat → LatencyStats
  latencyHistogram : Nat → Nat → Nat
  funcCallCounts : Nat → Nat → Nat

def Maps.empty : Maps where
  taskStorage := fun _ => none
  funcLatencyStats := fun _ _ => noStats
  latencyHistogram := fun _ _ => 0
  funcCallCounts := fun _ _ => 0

/-- One line of log2_u64: a value above the bound is shifted and the shift counted. -/
def log2Line (bound shift : Nat) (s : Nat × Nat) : Nat × Nat :=
  if s.1 > bound then (s.1 >>> shift, s.2 + shift) else s

def log2U64 (v : Nat) : Nat :=
  let s := log2Line 0xFFFFFFFF 32 (v, 0)
  let s := log2Line 0xFFFF 16 s
  let s := log2Line 0xFF 8 s
  let s := log2Line 0xF 4 s
  let s := log2Line 0x3 2 s
  if s.1 > 0x1 then s.2 + 1 else s.2

def _bpfUtilsTraceFuncEntry (m : Maps) (task cookie now : Nat) (created : Bool) : Maps :=
  if cookie ≥ TRACE_FUNCS_END then m
  else
    let data := match m.taskStorage task with
      | some data => some data
      | none => if created then some fun _ => 0 else none
    match data with
    | none => m
    | some data =>
      { m with
        taskStorage := Function.update m.taskStorage task (some (Function.update data cookie now)) }

/-- The bucket of a duration and the key of its cell. -/
def bucketOf (durationNs : Nat) : Nat :=
  let bucket := log2U64 durationNs
  if bucket ≥ HISTO_BUCKETS then HISTO_BUCKETS - 1 else bucket

def histoKey (funcEnumKey durationNs : Nat) : Nat :=
  funcEnumKey * HISTO_BUCKETS + bucketOf durationNs

/-- The end of the exit handler: the duration goes into the statistics and the histogram. -/
def recordDuration (m : Maps) (cpu funcEnumKey durationNs : Nat) : Maps :=
  let m :=
    if funcEnumKey < FUNCTION_NAME_MAX then
      { m with
        funcLatencyStats := put m.funcLatencyStats cpu funcEnumKey
          ((m.funcLatencyStats cpu funcEnumKey).add durationNs) }
    else m
  if durationNs > 0 then
    let key := histoKey funcEnumKey durationNs
    if key < TRACE_FUNCS_END * HISTO_BUCKETS then
      { m with
        latencyHistogram := put m.latencyHistogram cpu key (add64 (m.latencyHistogram cpu key) 1) }
    else m
  else m

def _bpfUtilsTraceFuncExit (m : Maps) (task cpu cookie now : Nat) : Maps :=
  if cookie ≥ TRACE_FUNCS_END then
    let funcEnumKey := cookie % 2 ^ 32
    if funcEnumKey < FUNCTION_NAME_MAX then
      { m with
        funcCallCounts := put m.funcCallCounts cpu funcEnumKey
          (add64 (m.funcCallCounts cpu funcEnumKey) 1) }
    else m
  else
    match m.taskStorage task with
    | none => m
    | some data =>
      let startTs := data cookie
      if startTs = 0 then m
      else
        let m := { m with
          taskStorage := Function.update m.taskStorage task (some (Function.update data cookie 0)) }
        recordDuration m cpu (cookie % 2 ^ 32) (sub64 now startTs)

def fire (m : Maps) (e : Firing) : Maps :=
  match e.probe with
  | .entry created => _bpfUtilsTraceFuncEntry m e.task e.cookie e.now created
  | .exit => _bpfUtilsTraceFuncExit m e.task e.cpu e.cookie e.now

def fireAll (m : Maps) (events : List Firing) : Maps := events.foldl fire m

/-- The start time that an exit of the function on this task would find. -/
def Maps.startTime (m : Maps) (task cookie : Nat) : Nat :=
  match m.taskStorage task with
  | none => 0
  | some data => data cookie

/-- A line keeps value * 2 ^ count within one of the value it began with, and leaves less
    than 2 ^ shift. -/
theorem log2_line {v bits : Nat} {s : Nat × Nat} (bound shift : Nat) (top : bound + 1 = 2 ^ shift)
    (half : bits = shift + shift) (here : s.1 = v / 2 ^ s.2) (small : s.1 < 2 ^ bits)
    (pos : 0 < s.1) :
    (log2Line bound shift s).1 = v / 2 ^ (log2Line bound shift s).2 ∧
      (log2Line bound shift s).1 < 2 ^ shift ∧ 0 < (log2Line bound shift s).1 := by
  unfold log2Line
  split
  · rename_i large
    have enough : 2 ^ shift ≤ s.1 := by omega
    refine ⟨?_, ?_, ?_⟩
    · rw [Nat.shiftRight_eq_div_pow, here, Nat.div_div_eq_div_mul, Nat.pow_add]
    · rw [Nat.shiftRight_eq_div_pow]
      rw [half, Nat.pow_add] at small
      exact Nat.div_lt_of_lt_mul small
    · rw [Nat.shiftRight_eq_div_pow]
      exact Nat.div_pos enough (Nat.two_pow_pos shift)
  · exact ⟨here, by omega, pos⟩

/-- The code of log2_u64 computes the logarithm of every positive 64-bit value. -/
theorem log2_u64_eq {v : Nat} (pos : 0 < v) (bound : v < 2 ^ 64) : log2U64 v = Nat.log2 v := by
  have start : ((v, 0) : Nat × Nat).1 = v / 2 ^ ((v, 0) : Nat × Nat).2 := by simp
  obtain ⟨h1, s1, p1⟩ := log2_line 0xFFFFFFFF 32 (by decide) rfl start bound pos
  obtain ⟨h2, s2, p2⟩ := log2_line 0xFFFF 16 (by decide) rfl h1 s1 p1
  obtain ⟨h3, s3, p3⟩ := log2_line 0xFF 8 (by decide) rfl h2 s2 p2
  obtain ⟨h4, s4, p4⟩ := log2_line 0xF 4 (by decide) rfl h3 s3 p3
  obtain ⟨h5, s5, p5⟩ := log2_line 0x3 2 (by decide) rfl h4 s4 p4
  unfold log2U64
  dsimp only
  generalize log2Line 0x3 2 _ = s at h5 s5 p5 ⊢
  rw [h5] at s5 p5 ⊢
  have low : 2 ^ s.2 * (v / 2 ^ s.2) ≤ v := Nat.mul_div_le v _
  have high : v < 2 ^ s.2 * (v / 2 ^ s.2 + 1) := Nat.lt_mul_div_succ v (Nat.two_pow_pos _)
  symm
  rw [Nat.log2_eq_iff (Nat.ne_of_gt pos)]
  split
  · rename_i more
    constructor
    · calc 2 ^ (s.2 + 1) = 2 ^ s.2 * 2 := Nat.pow_succ ..
        _ ≤ 2 ^ s.2 * (v / 2 ^ s.2) := Nat.mul_le_mul_left _ more
        _ ≤ v := low
    · calc v < 2 ^ s.2 * (v / 2 ^ s.2 + 1) := high
        _ ≤ 2 ^ s.2 * 2 ^ 2 := Nat.mul_le_mul_left _ s5
        _ = 2 ^ (s.2 + 1 + 1) := (Nat.pow_add ..).symm
  · have one : v / 2 ^ s.2 = 1 := by omega
    rw [one] at low high
    exact ⟨by omega, by rw [Nat.pow_succ]; exact high⟩

theorem bucket_eq {d : Nat} (pos : 0 < d) (bound : d < 2 ^ 64) :
    bucketOf d = min (Nat.log2 d) (HISTO_BUCKETS - 1) := by
  unfold bucketOf
  rw [log2_u64_eq pos bound]
  unfold HISTO_BUCKETS
  dsimp only
  split <;> omega

theorem bucket_lt (d : Nat) : bucketOf d < HISTO_BUCKETS := by
  unfold bucketOf
  dsimp only
  split
  · decide
  · omega

theorem bucket_low {d : Nat} (pos : 0 < d) (bound : d < 2 ^ 64) : 2 ^ bucketOf d ≤ d := by
  rw [bucket_eq pos bound]
  calc 2 ^ min (Nat.log2 d) (HISTO_BUCKETS - 1) ≤ 2 ^ Nat.log2 d :=
        Nat.pow_le_pow_right (by decide) (Nat.min_le_left ..)
    _ ≤ d := Nat.log2_self_le (Nat.ne_of_gt pos)

theorem histo_key_lt {fn : Nat} (small : fn < TRACE_FUNCS_END) (d : Nat) :
    histoKey fn d < TRACE_FUNCS_END * HISTO_BUCKETS := by
  have bucket := bucket_lt d
  unfold histoKey
  unfold HISTO_BUCKETS TRACE_FUNCS_END at *
  omega

theorem histo_key_inj {f g b c : Nat} (first : b < HISTO_BUCKETS) (second : c < HISTO_BUCKETS)
    (same : f * HISTO_BUCKETS + b = g * HISTO_BUCKETS + c) : f = g ∧ b = c := by
  unfold HISTO_BUCKETS at *
  omega

/-- log2_u64, the same text in server_tracer.bpf.c, and the keys made from it. -/
structure IntegerLogarithm : Prop where
  exponent : ∀ v, 1 ≤ v → v < 2 ^ 64 → 2 ^ log2U64 v ≤ v ∧ v < 2 ^ (log2U64 v + 1)
  monotone : ∀ v w, 1 ≤ v → v ≤ w → w < 2 ^ 64 → log2U64 v ≤ log2U64 w
  bucket : ∀ d, bucketOf d < HISTO_BUCKETS
  key : ∀ f g d e, histoKey f d = histoKey g e → f = g ∧ bucketOf d = bucketOf e
  keyFits : ∀ f < TRACE_FUNCS_END, ∀ d, histoKey f d < 2 ^ 32

theorem log2_u64_is_logarithm : IntegerLogarithm := by
  constructor
  · intro v pos bound
    rw [log2_u64_eq pos bound]
    exact ⟨Nat.log2_self_le (Nat.ne_of_gt pos), Nat.lt_log2_self⟩
  · intro v w pos below bound
    rw [log2_u64_eq pos (Nat.lt_of_le_of_lt below bound), log2_u64_eq (Nat.le_trans pos below) bound,
      Nat.le_log2 (by omega)]
    exact Nat.le_trans (Nat.log2_self_le (Nat.ne_of_gt pos)) below
  · exact bucket_lt
  · intro f g d e same
    exact histo_key_inj (bucket_lt d) (bucket_lt e) same
  · intro f latency d
    have entries : TRACE_FUNCS_END * HISTO_BUCKETS < 2 ^ 32 := by decide
    exact Nat.lt_trans (histo_key_lt latency d) entries

/-- The histogram cell of a bucket of a function. -/
def Maps.cell (m : Maps) (cpu fn bucket : Nat) : Nat :=
  m.latencyHistogram cpu (fn * HISTO_BUCKETS + bucket)

/-- What an exit records, if anything: the duration since the start time that it clears. -/
def recorded (m : Maps) (e : Firing) : Option Nat :=
  match e.probe with
  | .entry _ => none
  | .exit =>
    if e.cookie < TRACE_FUNCS_END ∧ m.startTime e.task e.cookie ≠ 0 then
      some (sub64 e.now (m.startTime e.task e.cookie))
    else none

/-- The maps with the start time of this function on this task cleared. -/
def Maps.clearStart (m : Maps) (task cookie : Nat) : Maps :=
  match m.taskStorage task with
  | none => m
  | some data =>
    { m with
      taskStorage := Function.update m.taskStorage task (some (Function.update data cookie 0)) }

section
variable {m : Maps} {e : Firing} {d : Nat}

theorem exit_silent (exit : e.probe = .exit) (latency : e.cookie < TRACE_FUNCS_END)
    (silent : recorded m e = none) : fire m e = m := by
  unfold recorded at silent
  unfold fire _bpfUtilsTraceFuncExit
  rw [exit] at silent ⊢
  dsimp only at silent ⊢
  rw [if_neg (Nat.not_le.mpr latency)]
  unfold Maps.startTime at silent
  cases storage : m.taskStorage e.task with
  | none => rfl
  | some data =>
    rw [storage] at silent
    dsimp only at silent ⊢
    by_cases empty : data e.cookie = 0
    · rw [if_pos empty]
    · rw [if_pos ⟨latency, empty⟩] at silent
      cases silent

theorem recorded_exit (some_duration : recorded m e = some d) : e.probe = .exit ∧
    e.cookie < TRACE_FUNCS_END ∧ m.startTime e.task e.cookie ≠ 0 ∧
    d = sub64 e.now (m.startTime e.task e.cookie) := by
  unfold recorded at some_duration
  cases probe : e.probe with
  | entry created =>
    rw [probe] at some_duration
    cases some_duration
  | exit =>
    rw [probe] at some_duration
    dsimp only at some_duration
    obtain ⟨⟨latency, set⟩, same⟩ := Option.ite_none_right_eq_some.mp some_duration
    exact ⟨rfl, latency, set, (Option.some.inj same).symm⟩

/-- What an exit that records a duration does. -/
theorem exit_records (some_duration : recorded m e = some d) :
    fire m e = recordDuration (m.clearStart e.task e.cookie) e.cpu e.cookie d := by
  obtain ⟨exit, latency, set, rfl⟩ := recorded_exit some_duration
  have key : e.cookie % 2 ^ 32 = e.cookie := by
    unfold TRACE_FUNCS_END at latency
    omega
  unfold fire _bpfUtilsTraceFuncExit
  rw [exit]
  dsimp only
  rw [if_neg (Nat.not_le.mpr latency), key]
  unfold Maps.startTime at set ⊢
  unfold Maps.clearStart
  cases storage : m.taskStorage e.task with
  | none =>
    rw [storage] at set
    exact absurd rfl set
  | some data =>
    rw [storage] at set
    exact if_neg set

theorem recorded_lt (some_duration : recorded m e = some d) : d < 2 ^ 64 := by
  obtain ⟨_, _, _, rfl⟩ := recorded_exit some_duration
  exact sub64_lt _ _

/-- Two states that differ in the start times alone. -/
structure SameCounters (a b : Maps) : Prop where
  stats : b.funcLatencyStats = a.funcLatencyStats
  histogram : b.latencyHistogram = a.latencyHistogram
  counts : b.funcCallCounts = a.funcCallCounts

theorem clear_start_counters (m : Maps) (task cookie : Nat) :
    SameCounters m (m.clearStart task cookie) := by
  unfold Maps.clearStart
  cases m.taskStorage task <;> exact ⟨rfl, rfl, rfl⟩

theorem entry_counters {created : Bool} (entry : e.probe = .entry created) :
    SameCounters m (fire m e) := by
  unfold fire _bpfUtilsTraceFuncEntry
  rw [entry]
  dsimp only
  split
  · exact ⟨rfl, rfl, rfl⟩
  · split <;> exact ⟨rfl, rfl, rfl⟩

theorem count_exit (exit : e.probe = .exit) (counting : TRACE_FUNCS_END ≤ e.cookie) :
    fire m e = if e.cookie % 2 ^ 32 < FUNCTION_NAME_MAX then
      { m with
        funcCallCounts := put m.funcCallCounts e.cpu (e.cookie % 2 ^ 32)
          (add64 (m.funcCallCounts e.cpu (e.cookie % 2 ^ 32)) 1) }
    else m := by
  unfold fire _bpfUtilsTraceFuncExit
  rw [exit]
  exact if_pos counting

theorem record_stats {cpu fn : Nat} (latency : fn < TRACE_FUNCS_END) :
    (recordDuration m cpu fn d).funcLatencyStats =
      put m.funcLatencyStats cpu fn ((m.funcLatencyStats cpu fn).add d) := by
  have known : fn < FUNCTION_NAME_MAX := Nat.lt_trans latency (by decide)
  unfold recordDuration
  dsimp only
  rw [if_pos known]
  split
  · split <;> rfl
  · rfl

theorem record_histogram {cpu fn : Nat} (latency : fn < TRACE_FUNCS_END) :
    (recordDuration m cpu fn d).latencyHistogram =
      if 0 < d then
        put m.latencyHistogram cpu (histoKey fn d) (add64 (m.latencyHistogram cpu (histoKey fn d)) 1)
      else m.latencyHistogram := by
  have known : fn < FUNCTION_NAME_MAX := Nat.lt_trans latency (by decide)
  unfold recordDuration
  dsimp only
  rw [if_pos known]
  by_cases pos : 0 < d
  · rw [if_pos pos, if_pos (histo_key_lt latency d), if_pos pos]
  · rw [if_neg pos, if_neg pos]

/-- The calls are counted and the start times are kept elsewhere. -/
theorem record_leaves (m : Maps) (cpu fn d : Nat) :
    (recordDuration m cpu fn d).funcCallCounts = m.funcCallCounts ∧
    (recordDuration m cpu fn d).taskStorage = m.taskStorage := by
  unfold recordDuration
  dsimp only
  split <;> split <;> try split
  all_goals exact ⟨rfl, rfl⟩

theorem stored_put (storage : Nat → Option (Nat → Nat)) (task : Nat) (data : Nat → Nat) (t : Nat) :
    (Function.update storage task (some data) t).isSome =
      if t = task then true else (storage t).isSome := by
  by_cases here : t = task
  · rw [if_pos here, here, Function.update_self]
    rfl
  · rw [if_neg here, Function.update_of_ne here]

theorem start_put {m : Maps} {task : Nat} {data : Nat → Nat}
    (stored : ∀ g, m.startTime task g = data g) (cookie now t g : Nat) :
    Maps.startTime { m with
      taskStorage := Function.update m.taskStorage task (some (Function.update data cookie now)) } t g =
      if t = task ∧ g = cookie then now else m.startTime t g := by
  by_cases here : t = task
  · subst here
    simp only [Maps.startTime, Function.update_self, true_and]
    by_cases same : g = cookie
    · rw [if_pos same, same, Function.update_self]
    · rw [if_neg same, Function.update_of_ne same]
      exact (stored g).symm
  · simp only [Maps.startTime, Function.update_of_ne here, here, false_and, ↓reduceIte]

theorem start_of_stored {m : Maps} {task : Nat} {data : Nat → Nat}
    (storage : m.taskStorage task = some data) (g : Nat) : m.startTime task g = data g := by
  simp only [Maps.startTime, storage]

theorem start_of_none {m : Maps} {task : Nat} (storage : m.taskStorage task = none) (g : Nat) :
    m.startTime task g = 0 := by
  simp only [Maps.startTime, storage]

theorem clear_start_stored (m : Maps) (task cookie t : Nat) :
    ((m.clearStart task cookie).taskStorage t).isSome = (m.taskStorage t).isSome := by
  unfold Maps.clearStart
  cases storage : m.taskStorage task with
  | none => rfl
  | some data =>
    dsimp only
    rw [stored_put]
    by_cases here : t = task
    · rw [if_pos here, here, storage]
      rfl
    · rw [if_neg here]

theorem clear_start_time (m : Maps) (task cookie t g : Nat) :
    (m.clearStart task cookie).startTime t g =
      if t = task ∧ g = cookie then 0 else m.startTime t g := by
  unfold Maps.clearStart
  cases storage : m.taskStorage task with
  | none =>
    dsimp only
    by_cases here : t = task ∧ g = cookie
    · rw [if_pos here, here.1, start_of_none storage]
    · rw [if_neg here]
  | some data => exact start_put (start_of_stored storage) cookie 0 t g

theorem entry_stores {created : Bool} (entry : e.probe = .entry created)
    (latency : e.cookie < TRACE_FUNCS_END) :
    (∀ t, ((fire m e).taskStorage t).isSome =
      if t = e.task then (m.taskStorage t).isSome || created else (m.taskStorage t).isSome) ∧
    ∀ t g, (fire m e).startTime t g =
      if t = e.task ∧ g = e.cookie ∧ ((m.taskStorage e.task).isSome || created) = true then e.now
      else m.startTime t g := by
  unfold fire _bpfUtilsTraceFuncEntry
  rw [entry]
  dsimp only
  rw [if_neg (Nat.not_le.mpr latency)]
  cases storage : m.taskStorage e.task with
  | none =>
    cases created with
    | false =>
      constructor
      · intro t
        by_cases here : t = e.task
        · simp [here, storage]
        · simp [here]
      · intro t g
        simp
    | true =>
      constructor
      · intro t
        simp [stored_put]
      · intro t g
        have put := start_put (start_of_none storage) e.cookie e.now t g
        simpa using put
  | some data =>
    constructor
    · intro t
      by_cases here : t = e.task
      · simp [here, storage]
      · simp [here]
    · intro t g
      have put := start_put (start_of_stored storage) e.cookie e.now t g
      simpa using put

end

end GuestTracer
