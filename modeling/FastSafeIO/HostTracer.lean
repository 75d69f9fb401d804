import FastSafeIO.BoundedMap
import FastSafeIO.CallTotals

/-! The entry and exit handlers of host_qemu_tracer.bpf.c, and when they measure what the
guest's handlers measure. -/
namespace HostTracer
open TracingUtils

structure EntryKey where
  id : Nat
  cookie : Nat
  deriving DecidableEq, Repr

def maxEntries : Nat := 16384

structure Maps where
  entryTraces : BoundedMap EntryKey Nat maxEntries
  funcLatencyStats : Nat → Nat → LatencyStats

def Maps.empty : Maps := ⟨.empty, fun _ _ => noStats⟩

/-- BPF_ANY: an entry is overwritten, and a new one is dropped when the map is full. -/
def _bpfUtilsTraceFuncEntry (m : Maps) (pidTgid cookie now : Nat) : Maps :=
  { m with entryTraces := m.entryTraces.update ⟨pidTgid, cookie⟩ now }

def _bpfUtilsTraceFuncExit (m : Maps) (pidTgid cpu cookie now : Nat) : Maps :=
  match m.entryTraces.lookup ⟨pidTgid, cookie⟩ with
  | none => m
  | some ts =>
    let durationNs := sub64 now ts
    let funcEnumKey := cookie % 2 ^ 32
    let m :=
      if funcEnumKey < FUNCTION_NAME_MAX then
        { m with
          funcLatencyStats := put m.funcLatencyStats cpu funcEnumKey
            ((m.funcLatencyStats cpu funcEnumKey).add durationNs) }
      else m
    { m with entryTraces := m.entryTraces.delete ⟨pidTgid, cookie⟩ }

/-- Tasks are told apart by bpf_get_current_pid_tgid. -/
def fire (pidTgid : Nat → Nat) (m : Maps) (e : Firing) : Maps :=
  match e.probe with
  | .entry _ => _bpfUtilsTraceFuncEntry m (pidTgid e.task) e.cookie e.now
  | .exit => _bpfUtilsTraceFuncExit m (pidTgid e.task) e.cpu e.cookie e.now

def fireAll (pidTgid : Nat → Nat) (m : Maps) (events : List Firing) : Maps :=
  events.foldl (fire pidTgid) m

/-- The u64 sums over the CPUs. -/
def overCpus (cpus : Nat) (stats : Nat → Nat → LatencyStats) (fn : Nat) : LatencyStats where
  count := (∑ cpu ∈ Finset.range cpus, (stats cpu fn).count) % 2 ^ 64
  totalDurationNs := (∑ cpu ∈ Finset.range cpus, (stats cpu fn).totalDurationNs) % 2 ^ 64
  sumSqDurationUs := (∑ cpu ∈ Finset.range cpus, (stats cpu fn).sumSqDurationUs) % 2 ^ 64

def SameMeasures (cpus : Nat) (guest : GuestTracer.Maps) (host : Maps) : Prop :=
  ∀ fn < TRACE_FUNCS_END,
    overCpus cpus host.funcLatencyStats fn = overCpus cpus guest.funcLatencyStats fn

/-- The entries and exits of one function on one task alternate. -/
def alternates (inside : Bool) : List Firing → Bool
  | [] => true
  | e :: rest => (e.probe == .exit) == inside && alternates (!inside) rest

def NonReentrant (events : List Firing) : Prop :=
  ∀ e ∈ events, alternates false
    (events.filter fun f => f.task = e.task ∧ f.cookie = e.cookie) = true

instance (events : List Firing) : Decidable (NonReentrant events) :=
  inferInstanceAs (Decidable (∀ e ∈ events, _ = true))

variable {pidTgid : Nat → Nat} {guest : GuestTracer.Maps} {host : Maps} {e : Firing}

/-- The state before a firing lets both tracers see the same call: no other task with the
    id is inside the function, and at an entry both can keep the start time. -/
structure Measured (pidTgid : Nat → Nat) (guest : GuestTracer.Maps) (host : Maps) (e : Firing) :
    Prop where
  alone : ∀ t ≠ e.task, pidTgid t = pidTgid e.task → guest.startTime t e.cookie = 0
  stored : ∀ created, e.probe = .entry created →
    ((guest.taskStorage e.task).isSome || created) = true
  room : ∀ created, e.probe = .entry created → host.entryTraces.Takes ⟨pidTgid e.task, e.cookie⟩

def MeasuredAll (pidTgid : Nat → Nat) : GuestTracer.Maps → Maps → List Firing → Prop
  | _, _, [] => True
  | guest, host, e :: rest => Measured pidTgid guest host e ∧
      MeasuredAll pidTgid (GuestTracer.fire guest e) (fire pidTgid host e) rest

/-- The entries of the host's map are the start times in the guest's task storage. -/
structure InStep (pidTgid : Nat → Nat) (guest : GuestTracer.Maps) (host : Maps) : Prop where
  held : ∀ t fn, guest.startTime t fn ≠ 0 →
    host.entryTraces.lookup ⟨pidTgid t, fn⟩ = some (guest.startTime t fn)
  owned : ∀ key ts, host.entryTraces.lookup key = some ts →
    ∃ t, pidTgid t = key.id ∧ guest.startTime t key.cookie ≠ 0
  sole : ∀ t u fn, pidTgid t = pidTgid u → guest.startTime t fn ≠ 0 →
    guest.startTime u fn ≠ 0 → t = u
  stats : host.funcLatencyStats = guest.funcLatencyStats

theorem empty_in_step (pidTgid : Nat → Nat) : InStep pidTgid .empty .empty := by
  constructor
  · intro t fn set
    exact absurd rfl set
  · intro key ts found
    cases found
  · intro t u fn same set
    exact absurd rfl set
  · rfl

theorem key_of {key : EntryKey} {t task fn : Nat} (id : pidTgid t = key.id)
    (mine : t = task ∧ key.cookie = fn) : key = ⟨pidTgid task, fn⟩ := by
  rw [← mine.1, ← mine.2, id]

/-- One start time changes on both sides; an absent one is 0 in the guest. -/
theorem in_step_change {task fn : Nat} (now : Nat) {guest' : GuestTracer.Maps} {host' : Maps}
    (inStep : InStep pidTgid guest host)
    (alone : ∀ t ≠ task, pidTgid t = pidTgid task → guest.startTime t fn = 0)
    (times : ∀ t g, guest'.startTime t g = if t = task ∧ g = fn then now else guest.startTime t g)
    (entries : ∀ key, host'.entryTraces.lookup key =
      if key = ⟨pidTgid task, fn⟩ then (if now = 0 then none else some now)
      else host.entryTraces.lookup key)
    (stats : host'.funcLatencyStats = guest'.funcLatencyStats) : InStep pidTgid guest' host' := by
  refine ⟨fun t g set => ?_, fun key ts found => ?_, fun t u g id first second => ?_, stats⟩
  · rw [times] at set ⊢
    rw [entries]
    by_cases mine : t = task ∧ g = fn
    · rw [if_pos mine] at set ⊢
      rw [mine.1, mine.2, if_pos rfl, if_neg set]
    · rw [if_neg mine] at set ⊢
      have other : (⟨pidTgid t, g⟩ : EntryKey) ≠ ⟨pidTgid task, fn⟩ := by
        intro same
        obtain ⟨id, cookie⟩ := EntryKey.mk.inj same
        subst cookie
        exact set (alone t (fun eq => mine ⟨eq, rfl⟩) id)
      rw [if_neg other]
      exact inStep.held t g set
  · rw [entries] at found
    by_cases mine : key = ⟨pidTgid task, fn⟩
    · subst mine
      rw [if_pos rfl] at found
      have set : guest'.startTime task fn ≠ 0 := by
        rw [times, if_pos ⟨rfl, rfl⟩]
        intro zero
        rw [if_pos zero] at found
        cases found
      exact ⟨task, rfl, set⟩
    · rw [if_neg mine] at found
      obtain ⟨t, id, set⟩ := inStep.owned key ts found
      have other : ¬ (t = task ∧ key.cookie = fn) := fun both => mine (key_of id both)
      have kept : guest'.startTime t key.cookie ≠ 0 := by
        rw [times, if_neg other]
        exact set
      exact ⟨t, id, kept⟩
  · rw [times] at first second
    by_cases cookie : g = fn
    · subst cookie
      by_cases mine : t = task
      · subst mine
        by_contra other
        rw [if_neg fun both => other both.1.symm] at second
        exact second (alone u (fun same => other same.symm) id.symm)
      · rw [if_neg fun both => mine both.1] at first
        by_cases yours : u = task
        · subst yours
          exact absurd (alone t mine id) first
        · rw [if_neg fun both => yours both.1] at second
          exact inStep.sole t u _ id first second
    · rw [if_neg fun both => cookie both.2] at first second
      exact inStep.sole t u g id first second

theorem entry_in_step {created : Bool} (inStep : InStep pidTgid guest host)
    (measured : Measured pidTgid guest host e) (latency : e.cookie < TRACE_FUNCS_END)
    (positive : 0 < e.now) (entry : e.probe = .entry created) :
    InStep pidTgid (GuestTracer.fire guest e) (fire pidTgid host e) := by
  have stored := measured.stored created entry
  apply in_step_change e.now inStep measured.alone
  · intro t fn
    rw [(GuestTracer.entry_stores entry latency).2 t fn]
    simp [stored]
  · intro key
    unfold fire
    rw [entry, if_neg (Nat.ne_of_gt positive)]
    exact BoundedMap.lookup_update (measured.room created entry) e.now key
  · have counters := GuestTracer.entry_counters (m := guest) entry
    rw [counters.stats, ← inStep.stats]
    unfold fire
    rw [entry]
    rfl

/-- Both exits find the same start time: it is the task's own, for no other task with the id
    is inside the function. -/
theorem exit_finds (inStep : InStep pidTgid guest host) (measured : Measured pidTgid guest host e) :
    host.entryTraces.lookup ⟨pidTgid e.task, e.cookie⟩ =
      if guest.startTime e.task e.cookie = 0 then none
      else some (guest.startTime e.task e.cookie) := by
  by_cases unset : guest.startTime e.task e.cookie = 0
  · rw [if_pos unset]
    by_contra found
    obtain ⟨ts, found⟩ := Option.ne_none_iff_exists'.mp found
    obtain ⟨t, id, set⟩ := inStep.owned _ ts found
    by_cases mine : t = e.task
    · rw [mine] at set
      exact set unset
    · exact set (measured.alone t mine id)
  · rw [if_neg unset]
    exact inStep.held e.task e.cookie unset

theorem exit_fire {ts : Nat} (exit : e.probe = .exit) (latency : e.cookie < TRACE_FUNCS_END)
    (found : host.entryTraces.lookup ⟨pidTgid e.task, e.cookie⟩ = some ts) :
    fire pidTgid host e =
      { entryTraces := host.entryTraces.delete ⟨pidTgid e.task, e.cookie⟩
        funcLatencyStats := put host.funcLatencyStats e.cpu e.cookie
          ((host.funcLatencyStats e.cpu e.cookie).add (sub64 e.now ts)) } := by
  have key : e.cookie % 2 ^ 32 = e.cookie := by
    unfold TRACE_FUNCS_END at latency
    omega
  have known : e.cookie < FUNCTION_NAME_MAX := Nat.lt_trans latency (by decide)
  unfold fire _bpfUtilsTraceFuncExit
  rw [exit]
  dsimp only
  rw [found]
  dsimp only
  rw [key, if_pos known]

theorem exit_in_step (inStep : InStep pidTgid guest host)
    (measured : Measured pidTgid guest host e) (latency : e.cookie < TRACE_FUNCS_END)
    (exit : e.probe = .exit) :
    InStep pidTgid (GuestTracer.fire guest e) (fire pidTgid host e) := by
  have found := exit_finds inStep measured
  by_cases unset : guest.startTime e.task e.cookie = 0
  · have silent : GuestTracer.recorded guest e = none := by
      unfold GuestTracer.recorded
      rw [exit]
      exact if_neg fun both => both.2 unset
    have idle : fire pidTgid host e = host := by
      rw [if_pos unset] at found
      unfold fire _bpfUtilsTraceFuncExit
      rw [exit]
      dsimp only
      rw [found]
    rw [GuestTracer.exit_silent exit latency silent, idle]
    exact inStep
  · rw [if_neg unset] at found
    have duration : GuestTracer.recorded guest e =
        some (sub64 e.now (guest.startTime e.task e.cookie)) := by
      unfold GuestTracer.recorded
      rw [exit]
      exact if_pos ⟨latency, unset⟩
    rw [GuestTracer.exit_records duration, exit_fire exit latency found]
    apply in_step_change 0 inStep measured.alone
    · intro t fn
      rw [← GuestTracer.clear_start_time]
      unfold GuestTracer.Maps.startTime
      rw [(GuestTracer.record_leaves _ _ _ _).2]
    · exact fun key => BoundedMap.lookup_delete _ _ key
    · rw [GuestTracer.record_stats latency, (GuestTracer.clear_start_counters ..).stats,
        ← inStep.stats]

theorem run_in_step {events : List Firing} (inStep : InStep pidTgid guest host)
    (firings : ∀ e ∈ events, e.cookie < TRACE_FUNCS_END ∧ 0 < e.now)
    (measured : MeasuredAll pidTgid guest host events) :
    InStep pidTgid (GuestTracer.fireAll guest events) (fireAll pidTgid host events) := by
  induction events generalizing guest host with
  | nil => exact inStep
  | cons e rest ih =>
    obtain ⟨latency, positive⟩ := firings e List.mem_cons_self
    apply ih _ _ measured.2
    · cases probe : e.probe with
      | entry created => exact entry_in_step inStep measured.1 latency positive probe
      | exit => exact exit_in_step inStep measured.1 latency probe
    · intro f member
      exact firings f (List.mem_cons_of_mem _ member)

/-- In a run in which no two tasks with one id are ever inside the same function, and no
    entry is refused, the tracers measure the same. -/
theorem tracers_measure_the_same {cpus : Nat} {events : List Firing}
    (firings : ∀ e ∈ events, e.cookie < TRACE_FUNCS_END ∧ 0 < e.now)
    (measured : MeasuredAll pidTgid .empty .empty events) :
    SameMeasures cpus (GuestTracer.fireAll .empty events) (fireAll pidTgid .empty events) := by
  have inStep := run_in_step (empty_in_step pidTgid) firings measured
  intro fn _
  rw [inStep.stats]

/-- Tasks 1 and 2 are the idle tasks of CPUs 0 and 1. -/
def idleTasks (task : Nat) : Nat := if task ≤ 2 then 0 else task

/-- The second idle task enters the function while the first one is inside. -/
def bothIdle : List Firing :=
  [⟨.entry true, 1, 0, FunctionName.qiSubmitSync.value, 100⟩,
   ⟨.entry true, 2, 1, FunctionName.qiSubmitSync.value, 150⟩,
   ⟨.exit, 1, 0, FunctionName.qiSubmitSync.value, 200⟩,
   ⟨.exit, 2, 1, FunctionName.qiSubmitSync.value, 300⟩]

theorem idle_tasks_confused : NonReentrant bothIdle ∧
    (∀ e ∈ bothIdle, e.cookie < TRACE_FUNCS_END ∧ 0 < e.now) ∧
    ¬ SameMeasures 2 (GuestTracer.fireAll .empty bothIdle) (fireAll idleTasks .empty bothIdle) := by
  constructor
  · decide
  constructor
  · decide
  · intro same
    have count := congrArg LatencyStats.count (same FunctionName.qiSubmitSync.value (by decide))
    have one : (overCpus 2 (fireAll idleTasks .empty bothIdle).funcLatencyStats
        FunctionName.qiSubmitSync.value).count = 1 := by decide
    have two : (overCpus 2 (GuestTracer.fireAll .empty bothIdle).funcLatencyStats
        FunctionName.qiSubmitSync.value).count = 2 := by decide
    rw [one, two] at count
    exact absurd count (by decide)

/-- The idle tasks one after the other. -/
def idleInTurn : List Firing :=
  [⟨.entry true, 1, 0, FunctionName.qiSubmitSync.value, 100⟩,
   ⟨.exit, 1, 0, FunctionName.qiSubmitSync.value, 200⟩,
   ⟨.entry true, 2, 1, FunctionName.qiSubmitSync.value, 250⟩,
   ⟨.exit, 2, 1, FunctionName.qiSubmitSync.value, 300⟩]

theorem idle_measured (idle : e.task ≤ 2)
    (alone : ∀ t ≤ 2, t ≠ e.task → guest.startTime t e.cookie = 0) (created : e.probe ≠ .entry false)
    (room : host.entryTraces.Takes ⟨0, e.cookie⟩) : Measured idleTasks guest host e := by
  have id : idleTasks e.task = 0 := if_pos idle
  constructor
  · intro t other same
    apply alone t _ other
    unfold idleTasks at same
    split at same
    · assumption
    · omega
  · intro b entry
    cases b with
    | false => exact absurd entry created
    | true => exact Bool.or_true _
  · intro b entry
    rw [id]
    exact room

theorem idle_in_turn_measured : MeasuredAll idleTasks .empty .empty idleInTurn := by
  refine ⟨?_, ?_, ?_, ?_, trivial⟩
  all_goals exact idle_measured (by decide) (by decide) (by decide) (by decide)

theorem idle_in_turn_agrees : SameMeasures 2 (GuestTracer.fireAll .empty idleInTurn)
    (fireAll idleTasks .empty idleInTurn) :=
  tracers_measure_the_same (by decide) idle_in_turn_measured

end HostTracer
