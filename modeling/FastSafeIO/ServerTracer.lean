import FastSafeIO.TracerMaps
import FastSafeIO.VarianceSign

/- The tracer of the server. Its text is that of the guest tracer, but for the check in the
   exit handler that takes a duration of more than a second for a stale entry. -/
namespace ServerTracer
open TracingUtils GuestTracer GuestLoader VarianceSign

def _bpfUtilsTraceFuncExit (m : Maps) (task cpu cookie now : Nat) : Maps :=
  if cookie ≥ TRACE_FUNCS_END then
    let funcEnumKey := cookie % 2 ^ 32
    if funcEnumKey < FUNCTION_NAME_MAX then
      { m with
        funcCallCounts := put m.funcCallCounts cpu funcEnumKey
          (add64 (m.funcCallCounts cpu funcEnumKey) 1) }
    else m
  else
    match m.taskStorage task with
    | none => m
    | some data =>
      let startTs := data cookie
      if startTs = 0 then m
      else
        let m := { m with
          taskStorage := Function.update m.taskStorage task (some (Function.update data cookie 0)) }
        let durationNs := sub64 now startTs
        if durationNs > 1000000000 then m
        else recordDuration m cpu (cookie % 2 ^ 32) durationNs

/- The entry handlers are the same. -/
def fire (m : Maps) (e : Firing) : Maps :=
  match e.probe with
  | .entry created => _bpfUtilsTraceFuncEntry m e.task e.cookie e.now created
  | .exit => _bpfUtilsTraceFuncExit m e.task e.cpu e.cookie e.now

def fireAll (m : Maps) (events : List Firing) : Maps := events.foldl fire m

/- A second at most. -/
def withinSecond (d : Nat) : Bool := decide (d ≤ 1000000000)

/- What the server keeps of the durations that the guest tracer records. -/
def kept (ds : List (Nat × Nat)) : List (Nat × Nat) := ds.filter fun p => withinSecond p.2

/- One more duration in a cell of the histogram. -/
def tally (bucket cell d : Nat) : Nat := if 0 < d ∧ bucketOf d = bucket then add64 cell 1 else cell

section
variable {m g s : Maps} {e : Firing} {cpu fn b d : Nat}

theorem fire_long (duration : recorded m e = some d) (long : 1000000000 < d) :
    fire m e = m.clearStart e.task e.cookie := by
  obtain ⟨exit, latency, set, rfl⟩ := recorded_exit duration
  unfold fire _bpfUtilsTraceFuncExit Maps.clearStart
  rw [exit]
  dsimp only
  rw [if_neg (Nat.not_le.mpr latency)]
  unfold Maps.startTime at set long
  cases storage : m.taskStorage e.task with
  | none => rfl
  | some data =>
    rw [storage] at set long
    dsimp only at set long ⊢
    rw [if_neg set, if_pos long]

theorem fire_short (short : ∀ d, recorded m e = some d → d ≤ 1000000000) :
    fire m e = GuestTracer.fire m e := by
  unfold fire GuestTracer.fire _bpfUtilsTraceFuncExit GuestTracer._bpfUtilsTraceFuncExit
  cases probe : e.probe with
  | entry created => rfl
  | exit =>
    dsimp only
    split
    · rfl
    · rename_i latency
      cases storage : m.taskStorage e.task with
      | none => rfl
      | some data =>
        dsimp only
        split
        · rfl
        · rename_i set
          refine if_neg (Nat.not_lt.mpr (short _ ?_))
          unfold recorded Maps.startTime
          rw [probe, storage]
          exact if_pos ⟨Nat.not_le.mp latency, set⟩

theorem fire_kept (duration : recorded m e = some d) (small : d ≤ 1000000000) :
    fire m e = recordDuration (m.clearStart e.task e.cookie) e.cpu e.cookie d := by
  rw [fire_short, exit_records duration]
  intro other same
  rw [duration] at same
  cases same
  exact small

theorem fire_silent (silent : recorded m e = none) : fire m e = GuestTracer.fire m e := by
  refine fire_short fun d duration => ?_
  rw [silent] at duration
  cases duration

theorem silent_histogram (silent : recorded m e = none) :
    (GuestTracer.fire m e).latencyHistogram = m.latencyHistogram := by
  cases probe : e.probe with
  | entry created => exact (entry_counters probe).histogram
  | exit =>
    by_cases latency : e.cookie < TRACE_FUNCS_END
    · rw [exit_silent probe latency silent]
    · rw [count_exit probe (Nat.not_lt.mp latency)]
      split <;> rfl

theorem record_tally (latency : fn < TRACE_FUNCS_END) (small : b < HISTO_BUCKETS) :
    (recordDuration m cpu fn d).cell cpu fn b = tally b (m.cell cpu fn b) d := by
  unfold Maps.cell tally
  rw [record_histogram latency]
  by_cases pos : 0 < d
  · rw [if_pos pos]
    by_cases here : bucketOf d = b
    · subst here
      rw [if_pos ⟨pos, rfl⟩]
      exact put_same
    · rw [if_neg fun both => here both.2]
      refine put_other ?_
      rintro ⟨_, key⟩
      exact here (histo_key_inj small (bucket_lt d) key).2.symm
  · rw [if_neg pos, if_neg fun both => pos both.1]

theorem fire_stats (m : Maps) (e : Firing) : (fire m e).funcLatencyStats cpu fn =
    (onCpu cpu (kept (recordedFor fn m e).toList)).foldl LatencyStats.add (m.funcLatencyStats cpu fn) := by
  cases duration : recorded m e with
  | none =>
    rw [fire_silent duration, VarianceSign.fire_stats]
    simp [recordedFor, duration, kept, onCpu]
  | some d =>
    by_cases small : d ≤ 1000000000
    · have same : fire m e = GuestTracer.fire m e := (fire_kept duration small).trans (exit_records duration).symm
      rw [same, VarianceSign.fire_stats]
      by_cases mine : e.cookie = fn
      · simp [recordedFor, duration, mine, kept, withinSecond, small]
      · simp [recordedFor, mine, kept]
    · rw [fire_long duration (Nat.not_le.mp small), (clear_start_counters m e.task e.cookie).stats]
      by_cases mine : e.cookie = fn
      · simp [recordedFor, duration, mine, kept, withinSecond, small, onCpu]
      · simp [recordedFor, mine, kept, onCpu]

theorem fire_cell (m : Maps) (e : Firing) (small : b < HISTO_BUCKETS) : (fire m e).cell cpu fn b =
    (onCpu cpu (kept (recordedFor fn m e).toList)).foldl (tally b) (m.cell cpu fn b) := by
  cases duration : recorded m e with
  | none =>
    unfold Maps.cell
    rw [fire_silent duration, silent_histogram duration]
    simp [recordedFor, duration, kept, onCpu]
  | some d =>
    have cleared : (m.clearStart e.task e.cookie).cell cpu fn b = m.cell cpu fn b := by
      simp only [Maps.cell, (clear_start_counters m e.task e.cookie).histogram]
    by_cases short : d ≤ 1000000000
    · have latency := (recorded_exit duration).2.1
      rw [fire_kept duration short]
      by_cases here : cpu = e.cpu ∧ fn = e.cookie
      · obtain ⟨rfl, rfl⟩ := here
        rw [record_tally latency small, cleared]
        simp [recordedFor, duration, kept, withinSecond, short, onCpu]
      · rw [(TracerMaps.record_frame latency here).2 b small, cleared]
        by_cases mine : e.cookie = fn
        · have elsewhere : ¬ e.cpu = cpu := fun same => here ⟨same.symm, mine.symm⟩
          simp [recordedFor, duration, mine, kept, withinSecond, short, onCpu, elsewhere]
        · simp [recordedFor, mine, kept, onCpu]
    · rw [fire_long duration (Nat.not_le.mp short), cleared]
      by_cases mine : e.cookie = fn
      · simp [recordedFor, duration, mine, kept, withinSecond, short, onCpu]
      · simp [recordedFor, mine, kept, onCpu]

/- The two tracers wait for the same exits and count the same calls. -/
structure InStep (g s : Maps) : Prop where
  storage : s.taskStorage = g.taskStorage
  counts : s.funcCallCounts = g.funcCallCounts

theorem in_step_recorded (inStep : InStep g s) (e : Firing) : recorded s e = recorded g e := by
  have same : s.startTime e.task e.cookie = g.startTime e.task e.cookie := by
    simp only [Maps.startTime, inStep.storage]
  unfold recorded
  rw [same]

theorem in_step_cleared (inStep : InStep g s) (task cookie : Nat) :
    InStep (g.clearStart task cookie) (s.clearStart task cookie) := by
  unfold Maps.clearStart
  rw [inStep.storage]
  cases g.taskStorage task with
  | none => exact inStep
  | some data => exact ⟨rfl, inStep.counts⟩

theorem in_step_recording (inStep : InStep g s) (cpu fn d : Nat) : InStep (recordDuration g cpu fn d) s := by
  obtain ⟨counts, storage⟩ := record_leaves g cpu fn d
  exact ⟨inStep.storage.trans storage.symm, inStep.counts.trans counts.symm⟩

theorem in_step_silent (inStep : InStep g s) (silent : recorded g e = none) :
    InStep (GuestTracer.fire g e) (GuestTracer.fire s e) := by
  have silentToo : recorded s e = none := (in_step_recorded inStep e).trans silent
  cases probe : e.probe with
  | entry created =>
    unfold GuestTracer.fire _bpfUtilsTraceFuncEntry
    rw [probe, inStep.storage]
    dsimp only
    split
    · exact inStep
    · split
      · exact inStep
      · exact ⟨rfl, inStep.counts⟩
  | exit =>
    by_cases latency : e.cookie < TRACE_FUNCS_END
    · rw [exit_silent probe latency silent, exit_silent probe latency silentToo]
      exact inStep
    · rw [count_exit probe (Nat.not_lt.mp latency), count_exit probe (Nat.not_lt.mp latency)]
      split
      · exact ⟨inStep.storage, by simp only [inStep.counts]⟩
      · exact inStep

theorem fire_in_step (inStep : InStep g s) (e : Firing) : InStep (GuestTracer.fire g e) (fire s e) := by
  cases duration : recorded g e with
  | none =>
    rw [fire_silent ((in_step_recorded inStep e).trans duration)]
    exact in_step_silent inStep duration
  | some d =>
    have found : recorded s e = some d := (in_step_recorded inStep e).trans duration
    have cleared := in_step_cleared inStep e.task e.cookie
    rw [exit_records duration]
    refine in_step_recording ?_ _ _ _
    by_cases small : d ≤ 1000000000
    · rw [fire_kept found small]
      obtain ⟨counts, storage⟩ := record_leaves (s.clearStart e.task e.cookie) e.cpu e.cookie d
      exact ⟨storage.trans cleared.storage, counts.trans cleared.counts⟩
    · rw [fire_long found (Nat.not_le.mp small)]
      exact cleared

end

section
variable {g s : Maps} {cpu fn b : Nat}

theorem run_in_step (inStep : InStep g s) (events : List Firing) :
    InStep (GuestTracer.fireAll g events) (fireAll s events) := by
  induction events generalizing g s with
  | nil => exact inStep
  | cons e rest ih => exact ih (fire_in_step inStep e)

theorem in_step_recorded_for (inStep : InStep g s) (e : Firing) :
    recordedFor fn s e = recordedFor fn g e := by
  simp only [recordedFor, in_step_recorded inStep e]

theorem kept_append (ds es : List (Nat × Nat)) : kept (ds ++ es) = kept ds ++ kept es :=
  List.filter_append ..

theorem run_cell {α : Type} (cell : Maps → α) {step : α → Nat → α} (inStep : InStep g s)
    (one : ∀ m e, cell (fire m e) = (onCpu cpu (kept (recordedFor fn m e).toList)).foldl step (cell m))
    (events : List Firing) :
    cell (fireAll s events) = (onCpu cpu (kept (durations fn g events))).foldl step (cell s) := by
  induction events generalizing g s with
  | nil => rfl
  | cons e rest ih =>
    have first : fireAll s (e :: rest) = fireAll (fire s e) rest := rfl
    rw [first, ih (fire_in_step inStep e), one, in_step_recorded_for inStep]
    simp only [durations, kept_append, onCpu, List.filter_append, List.map_append, List.foldl_append]

/- A tally that cannot wrap counts. -/
theorem tally_counts (ds : List Nat) (few : ds.length < 2 ^ 64) :
    ds.foldl (tally b) 0 = ds.countP fun d => decide (0 < d ∧ bucketOf d = b) := by
  induction ds using List.reverseRecOn with
  | nil => rfl
  | append_singleton ds d ih =>
    have less : ds.length + 1 < 2 ^ 64 := by simpa using few
    rw [List.foldl_append, ih (by omega), List.countP_append]
    have below : ds.countP (fun d => decide (0 < d ∧ bucketOf d = b)) ≤ ds.length := List.countP_le_length
    by_cases here : 0 < d ∧ bucketOf d = b
    · simp only [List.foldl_cons, List.foldl_nil, tally, here, and_self, ↓reduceIte,
        List.countP_singleton, decide_true, add64]
      exact Nat.mod_eq_of_lt (by omega)
    · simp only [List.foldl_cons, List.foldl_nil, tally, here, ↓reduceIte, List.countP_singleton,
        decide_false, Bool.false_eq_true, Nat.add_zero]

theorem few_do_not_wrap {ds : List Nat} (small : ∀ d ∈ ds, d ≤ 1000000000)
    (few : ds.length ≤ 18446744) : NoWrap ds := by
  have total : ds.sum ≤ ds.length * 1000000000 := by
    simpa using List.sum_le_card_nsmul ds 1000000000 small
  have squares : (ds.map squareUs).sum ≤ ds.length * (1000000 * 1000000) := by
    have each : ∀ q ∈ ds.map squareUs, q ≤ 1000000 * 1000000 := by
      intro q member
      obtain ⟨d, had, rfl⟩ := List.mem_map.mp member
      have micro : d / 1000 ≤ 1000000 := by have := small d had; omega
      exact Nat.mul_le_mul micro micro
    simpa using List.sum_le_card_nsmul (ds.map squareUs) (1000000 * 1000000) each
  exact ⟨by omega, by omega, by omega⟩

end

/-- After any events the server has the start times and the call counts of the guest tracer,
    and of its durations those of at most a second. These are few enough to be summed without
    wrapping up to 18446744 of them. -/
theorem server_keeps_the_short {numCpus fn : Nat} (events : List Firing)
    (known : ∀ p ∈ durations fn .empty events, p.1 < numCpus)
    (few : (kept (durations fn .empty events)).length ≤ 18446744) :
    InStep (GuestTracer.fireAll .empty events) (fireAll .empty events) ∧
      latencyTotals numCpus (fireAll .empty events) fn =
        exactStats ((kept (durations fn .empty events)).map Prod.snd) ∧
      ∀ cpu b, b < HISTO_BUCKETS → (fireAll .empty events).cell cpu fn b =
        (onCpu cpu (kept (durations fn .empty events))).countP
          fun d => decide (0 < d ∧ bucketOf d = b) := by
  have start : InStep Maps.empty Maps.empty := ⟨rfl, rfl⟩
  have small : ∀ d ∈ (kept (durations fn .empty events)).map Prod.snd, d ≤ 1000000000 := by
    intro d member
    obtain ⟨p, here, rfl⟩ := List.mem_map.mp member
    exact of_decide_eq_true (List.mem_filter.mp here).2
  have unwrapped : NoWrap ((kept (durations fn .empty events)).map Prod.snd) :=
    few_do_not_wrap small (by rwa [List.length_map])
  have part : ∀ cpu, (onCpu cpu (kept (durations fn .empty events))).Sublist
      ((kept (durations fn .empty events)).map Prod.snd) := fun cpu => List.filter_sublist.map Prod.snd
  have cells : ∀ cpu, (fireAll .empty events).funcLatencyStats cpu fn =
      exactStats (onCpu cpu (kept (durations fn .empty events))) := by
    intro cpu
    have added := run_cell (fun m => m.funcLatencyStats cpu fn) start fire_stats events
    exact added.trans (add_all_exact (no_wrap_sublist (part cpu) unwrapped))
  refine ⟨run_in_step start events, ?_, fun cpu b inside => ?_⟩
  · rw [totals_exact cells unwrapped, below_all]
    exact fun p member => known p (List.mem_of_mem_filter member)
  · have tallied := run_cell (fun m => m.cell cpu fn b) start (fun m e => fire_cell m e inside) events
    refine tallied.trans (tally_counts _ ?_)
    have short := (part cpu).length_le
    rw [List.length_map] at short
    omega

/- A call of three microseconds, and one that seems to take two seconds. -/
def staleCall : List Firing :=
  [⟨.entry true, 0, 0, 0, 1000⟩, ⟨.exit, 0, 0, 0, 4000⟩, ⟨.entry true, 1, 1, 0, 5000⟩,
    ⟨.exit, 1, 1, 0, 2000005000⟩]

theorem stale_call_dropped : latencyTotals 2 (GuestTracer.fireAll .empty staleCall) 0 =
      ⟨2, 2000003000, 4000000000009⟩ ∧
    latencyTotals 2 (fireAll .empty staleCall) 0 = ⟨1, 3000, 9⟩ := by
  have guest : durations 0 .empty staleCall = [(0, 3000), (1, 2000000000)] := by decide
  constructor
  · decide
  · refine (server_keeps_the_short staleCall (by rw [guest]; decide) (by rw [guest]; decide)).2.1.trans ?_
    rw [guest]
    decide

end ServerTracer
