import FastSafeIO.GuestTracer
import Mathlib.Algebra.BigOperators.Intervals
import Mathlib.Data.List.Pairwise

/- Which calls the guest tracer counts. The calls of each task are properly nested; a task
   may change its CPU in between, and a call may be interrupted by another one of the same
   function on the same task. -/
namespace CallTotals
open TracingUtils GuestTracer

/-- A call that has not returned. It is alone when its start time was stored and no other
    call of the function has been entered on the task since. -/
structure Open where
  fn : Nat
  start : Nat
  alone : Bool
  deriving DecidableEq, Repr

structure Call where
  fn : Nat
  enter : Nat
  leave : Nat
  alone : Bool
  deriving DecidableEq, Repr

/-- The calls of a run, independent of the tracer: those each task is in, innermost first,
    those that have returned, and for which tasks storage was created. -/
structure Calls where
  stored : Nat → Bool
  opened : Nat → List Open
  returned : List Call

def noCalls : Calls := ⟨fun _ => false, fun _ => [], []⟩

def interrupt (fn : Nat) (o : Open) : Open := if o.fn = fn then { o with alone := false } else o

def Calls.enter (c : Calls) (task fn now : Nat) (created : Bool) : Calls :=
  let stored := c.stored task || created
  { c with
    stored := Function.update c.stored task stored
    opened := Function.update c.opened task
      (⟨fn, now, stored⟩ :: (c.opened task).map (interrupt fn)) }

/-- A return must be from the innermost call of the task. -/
def Calls.leave (c : Calls) (task fn now : Nat) : Option Calls :=
  match c.opened task with
  | [] => none
  | o :: rest =>
    if o.fn = fn then
      some { c with
        opened := Function.update c.opened task rest
        returned := ⟨fn, o.start, now, o.alone⟩ :: c.returned }
    else none

def Calls.next (c : Calls) (e : Firing) : Option Calls :=
  match e.probe with
  | .entry created => some (c.enter e.task e.cookie e.now created)
  | .exit => c.leave e.task e.cookie e.now

def follow (c : Calls) : List Firing → Option Calls
  | [] => some c
  | e :: rest => (c.next e).bind fun d => follow d rest

/-- The counters of a function summed over the CPUs, as u64 sums. -/
def countOver (cpus : Nat) (m : Maps) (fn : Nat) : Nat :=
  (∑ cpu ∈ Finset.range cpus, (m.funcLatencyStats cpu fn).count) % 2 ^ 64

def totalOver (cpus : Nat) (m : Maps) (fn : Nat) : Nat :=
  (∑ cpu ∈ Finset.range cpus, (m.funcLatencyStats cpu fn).totalDurationNs) % 2 ^ 64

def numberOf (fn : Nat) (calls : List Call) : Nat := calls.countP (·.fn = fn)

def timeIn (fn : Nat) (calls : List Call) : Nat :=
  ((calls.filter (·.fn = fn)).map fun c => c.leave - c.enter).sum

/-- Every call counted once, with its own duration. -/
def EveryCallCounted (cpus : Nat) (m : Maps) (calls : List Call) : Prop :=
  ∀ fn < TRACE_FUNCS_END,
    countOver cpus m fn = numberOf fn calls ∧ totalOver cpus m fn = timeIn fn calls % 2 ^ 64

/-- A firing of a latency function on one of the CPUs, at a positive time. -/
structure Latency (cpus : Nat) (e : Firing) : Prop where
  cookie : e.cookie < TRACE_FUNCS_END
  cpu : e.cpu < cpus
  positive : 0 < e.now
  bound : e.now < 2 ^ 64

/-- A complete trace: nested calls that have all returned, under a clock that never goes back. -/
structure Complete (cpus : Nat) (events : List Firing) (calls : Calls) : Prop where
  firings : ∀ e ∈ events, Latency cpus e
  clock : events.Pairwise fun a b => a.now ≤ b.now
  nested : follow noCalls events = some calls
  returned : ∀ task, calls.opened task = []

/-- The start time that the slot of a function should hold. -/
def slot (fn : Nat) : List Open → Nat
  | [] => 0
  | o :: rest => if o.fn = fn then (if o.alone then o.start else 0) else slot fn rest

theorem slot_zero {fn : Nat} {l : List Open} (none : ∀ o ∈ l, o.fn = fn → o.alone = false) :
    slot fn l = 0 := by
  induction l with
  | nil => rfl
  | cons o rest ih =>
    unfold slot
    split
    · rename_i same
      rw [none o List.mem_cons_self same]
      rfl
    · exact ih fun o member => none o (List.mem_cons_of_mem _ member)

theorem slot_interrupt {fn g : Nat} (other : fn ≠ g) (l : List Open) :
    slot g (l.map (interrupt fn)) = slot g l := by
  induction l with
  | nil => rfl
  | cons o rest ih =>
    rw [List.map_cons]
    unfold slot interrupt
    by_cases here : o.fn = fn
    · have apart : ¬ o.fn = g := fun same => other (here.symm.trans same)
      simp only [if_pos here, if_neg apart]
      exact ih
    · simp only [if_neg here]
      rw [← ih]
      rfl

/-- Only the innermost call of a function on a task can be alone. -/
def Outer (l : List Open) : Prop := l.Pairwise fun a b => a.fn = b.fn → b.alone = false

theorem outer_enter {fn now : Nat} {stored : Bool} {l : List Open} (outer : Outer l) :
    Outer (⟨fn, now, stored⟩ :: l.map (interrupt fn)) := by
  refine List.pairwise_cons.mpr ⟨?_, ?_⟩
  · intro o member same
    obtain ⟨before, _, rfl⟩ := List.mem_map.mp member
    unfold interrupt at same ⊢
    split
    · rfl
    · rename_i other
      rw [if_neg other] at same
      exact absurd same.symm other
  · refine List.pairwise_map.mpr (outer.imp ?_)
    intro a b settled same
    unfold interrupt at same ⊢
    split
    · rfl
    · rename_i other
      rw [if_neg other] at same
      split at same
      · exact settled same
      · exact settled same

/-- The calls of a function that were alone to the end. -/
def aloneOf (fn : Nat) (calls : List Call) : List Call :=
  calls.filter fun c => c.fn = fn ∧ c.alone = true

/-- The tracer's maps against the calls: every slot holds the start of the innermost call
    of its function if that is alone, and what has been counted are the calls that were
    alone to the end. -/
structure Tracks (cpus : Nat) (m : Maps) (c : Calls) : Prop where
  stored : ∀ task, (m.taskStorage task).isSome = c.stored task
  slots : ∀ task fn, fn < TRACE_FUNCS_END → m.startTime task fn = slot fn (c.opened task)
  outer : ∀ task, Outer (c.opened task)
  started : ∀ task, ∀ o ∈ c.opened task, 0 < o.start
  counts : ∀ fn < TRACE_FUNCS_END,
    countOver cpus m fn = (aloneOf fn c.returned).length % 2 ^ 64 ∧
    totalOver cpus m fn = timeIn fn (aloneOf fn c.returned) % 2 ^ 64

variable {cpus : Nat} {m : Maps} {c d : Calls} {e : Firing}

theorem empty_tracks (cpus : Nat) : Tracks cpus .empty noCalls := by
  refine ⟨fun _ => rfl, fun _ _ _ => rfl, fun _ => .nil, fun _ _ member => absurd member List.not_mem_nil,
    ?_⟩
  intro fn _
  have count : ∑ cpu ∈ Finset.range cpus, (Maps.empty.funcLatencyStats cpu fn).count = 0 :=
    Finset.sum_eq_zero fun _ _ => rfl
  have total : ∑ cpu ∈ Finset.range cpus, (Maps.empty.funcLatencyStats cpu fn).totalDurationNs = 0 :=
    Finset.sum_eq_zero fun _ _ => rfl
  unfold countOver totalOver
  rw [count, total]
  exact ⟨rfl, rfl⟩

theorem over_same {n : Maps} (same : SameCounters m n) (cpus fn : Nat) :
    countOver cpus n fn = countOver cpus m fn ∧ totalOver cpus n fn = totalOver cpus m fn := by
  unfold countOver totalOver
  rw [same.stats]
  exact ⟨rfl, rfl⟩

theorem enter_tracks {created : Bool} (tracks : Tracks cpus m c) (latency : Latency cpus e)
    (entry : e.probe = .entry created) :
    Tracks cpus (fire m e) (c.enter e.task e.cookie e.now created) := by
  obtain ⟨stored, times⟩ := entry_stores (m := m) entry latency.cookie
  have opened : ∀ {t}, t ≠ e.task →
      (c.enter e.task e.cookie e.now created).opened t = c.opened t :=
    fun other => Function.update_of_ne other _ _
  have mine : (c.enter e.task e.cookie e.now created).opened e.task =
      ⟨e.cookie, e.now, c.stored e.task || created⟩ :: (c.opened e.task).map (interrupt e.cookie) :=
    Function.update_self ..
  constructor
  · intro t
    rw [stored t, tracks.stored]
    by_cases here : t = e.task
    · subst here
      have now : (c.enter e.task e.cookie e.now created).stored e.task =
          (c.stored e.task || created) := Function.update_self ..
      rw [if_pos rfl, now]
    · have kept : (c.enter e.task e.cookie e.now created).stored t = c.stored t :=
        Function.update_of_ne here _ _
      rw [if_neg here, kept]
  · intro t g known
    rw [times t g, tracks.stored]
    by_cases here : t = e.task
    · subst here
      rw [mine]
      unfold slot
      by_cases same : g = e.cookie
      · subst same
        cases kept : c.stored e.task || created with
        | true => simp
        | false =>
          have never : c.stored e.task = false := (Bool.or_eq_false_iff.mp kept).1
          have absent := tracks.stored e.task
          rw [never, Option.isSome_eq_false_iff, Option.isNone_iff_eq_none] at absent
          simpa using start_of_none absent e.cookie
      · have apart : ¬ e.cookie = g := fun eq => same eq.symm
        simp only [same, false_and, and_false, ↓reduceIte, apart]
        rw [slot_interrupt apart]
        exact tracks.slots e.task g known
    · rw [opened here, if_neg fun all => here all.1]
      exact tracks.slots t g known
  · intro t
    by_cases here : t = e.task
    · subst here
      rw [mine]
      exact outer_enter (tracks.outer e.task)
    · rw [opened here]
      exact tracks.outer t
  · intro t o member
    by_cases here : t = e.task
    · subst here
      rw [mine] at member
      rcases List.mem_cons.mp member with rfl | before
      · exact latency.positive
      · obtain ⟨old, was, rfl⟩ := List.mem_map.mp before
        have positive := tracks.started e.task old was
        unfold interrupt
        split <;> exact positive
    · rw [opened here] at member
      exact tracks.started t o member
  · intro fn known
    obtain ⟨count, total⟩ := over_same (entry_counters (m := m) entry) cpus fn
    rw [count, total]
    exact tracks.counts fn known

/-- A u64 sum over the CPUs when one cell gains d. -/
theorem sum_put {f : Nat → Nat} {cpu cpus d : Nat} (known : cpu < cpus) :
    (∑ c ∈ Finset.range cpus, if c = cpu then add64 (f cpu) d else f c) % 2 ^ 64 =
      (∑ c ∈ Finset.range cpus, f c + d) % 2 ^ 64 := by
  have member : cpu ∈ Finset.range cpus := Finset.mem_range.mpr known
  have rest : ∑ c ∈ (Finset.range cpus).erase cpu, (if c = cpu then add64 (f cpu) d else f c) =
      ∑ c ∈ (Finset.range cpus).erase cpu, f c :=
    Finset.sum_congr rfl fun c other => if_neg (Finset.ne_of_mem_erase other)
  rw [← Finset.add_sum_erase _ _ member, ← Finset.add_sum_erase _ f member, rest, if_pos rfl]
  unfold add64
  omega

theorem record_over {fn : Nat} {cpu d : Nat} (known : cpu < cpus) (latency : fn < TRACE_FUNCS_END)
    (g : Nat) : countOver cpus (recordDuration m cpu fn d) g =
        (if g = fn then countOver cpus m g + 1 else countOver cpus m g) % 2 ^ 64 ∧
      totalOver cpus (recordDuration m cpu fn d) g =
        (if g = fn then totalOver cpus m g + d else totalOver cpus m g) % 2 ^ 64 := by
  unfold countOver totalOver
  rw [record_stats latency]
  by_cases here : g = fn
  · subst here
    have cell : ∀ c, put m.funcLatencyStats cpu g ((m.funcLatencyStats cpu g).add d) c g =
        if c = cpu then (m.funcLatencyStats cpu g).add d else m.funcLatencyStats c g := by
      intro c
      by_cases mine : c = cpu
      · subst mine
        rw [put_same, if_pos rfl]
      · rw [put_other fun both => mine both.1, if_neg mine]
    simp only [cell, apply_ite LatencyStats.count, apply_ite LatencyStats.totalDurationNs, if_true]
    have count := sum_put (f := fun c => (m.funcLatencyStats c g).count) (d := 1) known
    have total := sum_put (f := fun c => (m.funcLatencyStats c g).totalDurationNs) (d := d) known
    constructor
    · exact count.trans (by omega)
    · exact total.trans (by omega)
  · have cell : ∀ c, put m.funcLatencyStats cpu fn ((m.funcLatencyStats cpu fn).add d) c g =
        m.funcLatencyStats c g := fun c => put_other fun both => here both.2
    simp only [cell, if_neg here, Nat.mod_mod]
    exact ⟨trivial, trivial⟩

theorem alone_cons {fn g enter leave : Nat} {alone : Bool} {calls : List Call} :
    aloneOf g (⟨fn, enter, leave, alone⟩ :: calls) =
      if fn = g ∧ alone = true then ⟨fn, enter, leave, alone⟩ :: aloneOf g calls
      else aloneOf g calls := by
  unfold aloneOf
  by_cases both : fn = g ∧ alone = true
  · rw [if_pos both, List.filter_cons_of_pos (by simpa using both)]
  · rw [if_neg both, List.filter_cons_of_neg (by simpa using both)]

theorem time_in_cons {fn enter leave : Nat} {alone : Bool} {calls : List Call} :
    timeIn fn (⟨fn, enter, leave, alone⟩ :: calls) = leave - enter + timeIn fn calls := by
  unfold timeIn
  rw [List.filter_cons_of_pos (by simp), List.map_cons, List.sum_cons]

theorem leave_some {task fn now : Nat} (left : c.leave task fn now = some d) :
    ∃ o rest, c.opened task = o :: rest ∧ o.fn = fn ∧
      d = { c with
        opened := Function.update c.opened task rest
        returned := ⟨fn, o.start, now, o.alone⟩ :: c.returned } := by
  unfold Calls.leave at left
  cases opened : c.opened task with
  | nil =>
    rw [opened] at left
    cases left
  | cons o rest =>
    rw [opened] at left
    obtain ⟨same, done⟩ := Option.ite_none_right_eq_some.mp left
    exact ⟨o, rest, rfl, same, (Option.some.inj done).symm⟩

/-- The slots behind a return, whatever it adds to the counters. -/
theorem tracks_popped {task fn : Nat} {o : Open} {rest : List Open} {n : Maps}
    {returned : List Call} (tracks : Tracks cpus m c) (opened : c.opened task = o :: rest)
    (mine : o.fn = fn) (stored : ∀ t, (n.taskStorage t).isSome = (m.taskStorage t).isSome)
    (times : ∀ t g, n.startTime t g = if t = task ∧ g = fn then 0 else m.startTime t g)
    (counts : ∀ g < TRACE_FUNCS_END, countOver cpus n g = (aloneOf g returned).length % 2 ^ 64 ∧
      totalOver cpus n g = timeIn g (aloneOf g returned) % 2 ^ 64) :
    Tracks cpus n { c with opened := Function.update c.opened task rest, returned := returned } := by
  have outer := tracks.outer task
  rw [opened] at outer
  obtain ⟨settled, outerRest⟩ := List.pairwise_cons.mp outer
  have emptied : slot fn rest = 0 :=
    slot_zero fun p member same => settled p member (mine.trans same.symm)
  have passed : ∀ g, g ≠ fn → slot g (o :: rest) = slot g rest := by
    intro g other
    have apart : ¬ o.fn = g := fun same => other (same.symm.trans mine)
    exact if_neg apart
  refine ⟨fun t => (stored t).trans (tracks.stored t), fun t g known => ?_, fun t => ?_,
    fun t p member => ?_, counts⟩
  · rw [times]
    change _ = slot g (Function.update c.opened task rest t)
    by_cases here : t = task
    · subst here
      rw [Function.update_self]
      by_cases same : g = fn
      · rw [if_pos ⟨rfl, same⟩, same, emptied]
      · rw [if_neg fun both => same both.2, tracks.slots t g known, opened, passed g same]
    · rw [if_neg fun both => here both.1, Function.update_of_ne here]
      exact tracks.slots t g known
  · change Outer (Function.update c.opened task rest t)
    by_cases here : t = task
    · subst here
      rw [Function.update_self]
      exact outerRest
    · rw [Function.update_of_ne here]
      exact tracks.outer t
  · change p ∈ Function.update c.opened task rest t at member
    by_cases here : t = task
    · subst here
      rw [Function.update_self] at member
      exact tracks.started t p (opened ▸ List.mem_cons_of_mem _ member)
    · rw [Function.update_of_ne here] at member
      exact tracks.started t p member

theorem leave_tracks (tracks : Tracks cpus m c) (latency : Latency cpus e) (exit : e.probe = .exit)
    (left : c.leave e.task e.cookie e.now = some d)
    (clock : ∀ o ∈ c.opened e.task, o.start ≤ e.now) : Tracks cpus (fire m e) d := by
  obtain ⟨o, rest, opened, mine, rfl⟩ := leave_some left
  have head : o ∈ c.opened e.task := opened ▸ List.mem_cons_self
  have positive := tracks.started e.task o head
  have time := tracks.slots e.task e.cookie latency.cookie
  rw [opened] at time
  unfold slot at time
  rw [if_pos mine] at time
  cases alone : o.alone with
  | true =>
    rw [alone, if_pos rfl] at time
    have duration : recorded m e = some (e.now - o.start) := by
      unfold recorded
      rw [exit]
      dsimp only
      rw [time, if_pos ⟨latency.cookie, Nat.ne_of_gt positive⟩,
        sub64_of_le (clock o head) latency.bound]
    rw [exit_records duration]
    refine tracks_popped tracks opened mine (fun t => ?_) (fun t g => ?_) (fun fn known => ?_)
    · rw [(record_leaves _ _ _ _).2, clear_start_stored]
    · rw [← clear_start_time]
      unfold Maps.startTime
      rw [(record_leaves _ _ _ _).2]
    · obtain ⟨count, total⟩ := record_over (m := m.clearStart e.task e.cookie)
        (d := e.now - o.start) latency.cpu latency.cookie fn
      obtain ⟨sameCount, sameTotal⟩ :=
        over_same (clear_start_counters m e.task e.cookie) cpus fn
      obtain ⟨oldCount, oldTotal⟩ := tracks.counts fn known
      rw [count, total, sameCount, sameTotal, oldCount, oldTotal, alone_cons]
      by_cases here : fn = e.cookie
      · subst here
        simp only [true_and, ↓reduceIte, List.length_cons, time_in_cons]
        omega
      · have apart : ¬ (e.cookie = fn ∧ true = true) := fun both => here both.1.symm
        rw [if_neg here, if_neg here, if_neg apart, Nat.mod_mod, Nat.mod_mod]
        exact ⟨rfl, rfl⟩
  | false =>
    rw [alone, if_neg Bool.false_ne_true] at time
    have silent : recorded m e = none := by
      unfold recorded
      rw [exit]
      exact if_neg fun both => both.2 time
    rw [exit_silent exit latency.cookie silent]
    refine tracks_popped tracks opened mine (fun _ => rfl) (fun t g => ?_) (fun fn known => ?_)
    · by_cases here : t = e.task ∧ g = e.cookie
      · rw [if_pos here, here.1, here.2, time]
      · rw [if_neg here]
    · rw [alone_cons, if_neg fun both => Bool.false_ne_true both.2]
      exact tracks.counts fn known

theorem next_tracks (tracks : Tracks cpus m c) (latency : Latency cpus e)
    (clock : ∀ task, ∀ o ∈ c.opened task, o.start ≤ e.now) (moved : c.next e = some d) :
    Tracks cpus (fire m e) d := by
  unfold Calls.next at moved
  cases probe : e.probe with
  | entry created =>
    rw [probe] at moved
    cases moved
    exact enter_tracks tracks latency probe
  | exit =>
    rw [probe] at moved
    exact leave_tracks tracks latency probe moved (clock e.task)

theorem next_started {last : Nat} (before : ∀ task, ∀ o ∈ c.opened task, o.start ≤ last)
    (order : e.now ≤ last) (moved : c.next e = some d) :
    ∀ task, ∀ o ∈ d.opened task, o.start ≤ last := by
  intro t p member
  unfold Calls.next at moved
  cases probe : e.probe with
  | entry created =>
    rw [probe] at moved
    cases moved
    by_cases here : t = e.task
    · subst here
      simp only [Calls.enter, Function.update_self] at member
      rcases List.mem_cons.mp member with rfl | old
      · exact order
      · obtain ⟨q, was, rfl⟩ := List.mem_map.mp old
        unfold interrupt
        split <;> exact before e.task q was
    · simp only [Calls.enter, Function.update_of_ne here] at member
      exact before t p member
  | exit =>
    rw [probe] at moved
    obtain ⟨o, rest, opened, _, rfl⟩ := leave_some moved
    by_cases here : t = e.task
    · subst here
      simp only [Function.update_self] at member
      exact before e.task p (opened ▸ List.mem_cons_of_mem _ member)
    · simp only [Function.update_of_ne here] at member
      exact before t p member

theorem run_tracks {events : List Firing} (tracks : Tracks cpus m c)
    (firings : ∀ e ∈ events, Latency cpus e) (clock : events.Pairwise fun a b => a.now ≤ b.now)
    (before : ∀ task, ∀ o ∈ c.opened task, ∀ e ∈ events, o.start ≤ e.now)
    (nested : follow c events = some d) : Tracks cpus (fireAll m events) d := by
  induction events generalizing m c with
  | nil =>
    cases nested
    exact tracks
  | cons e rest ih =>
    obtain ⟨mid, moved, later⟩ := Option.bind_eq_some_iff.mp nested
    obtain ⟨order, sorted⟩ := List.pairwise_cons.mp clock
    have step := next_tracks tracks (firings e List.mem_cons_self)
      (fun task o member => before task o member e List.mem_cons_self) moved
    refine ih step (fun f member => firings f (List.mem_cons_of_mem _ member)) sorted ?_ later
    intro task o member f follows
    exact next_started (fun t p was => before t p was f (List.mem_cons_of_mem _ follows))
      (order f follows) moved task o member

theorem follow_known {events : List Firing} (firings : ∀ e ∈ events, Latency cpus e)
    (known : ∀ call ∈ c.returned, call.fn < TRACE_FUNCS_END) (nested : follow c events = some d) :
    ∀ call ∈ d.returned, call.fn < TRACE_FUNCS_END := by
  induction events generalizing c with
  | nil =>
    cases nested
    exact known
  | cons e rest ih =>
    obtain ⟨mid, moved, later⟩ := Option.bind_eq_some_iff.mp nested
    refine ih (fun f member => firings f (List.mem_cons_of_mem _ member)) ?_ later
    unfold Calls.next at moved
    cases probe : e.probe with
    | entry created =>
      rw [probe] at moved
      cases moved
      exact known
    | exit =>
      rw [probe] at moved
      obtain ⟨o, rest, _, _, rfl⟩ := leave_some moved
      intro call member
      rcases List.mem_cons.mp member with rfl | old
      · exact (firings e List.mem_cons_self).cookie
      · exact known call old

theorem alone_length (fn : Nat) (calls : List Call) :
    (aloneOf fn calls).length ≤ numberOf fn calls := by
  unfold aloneOf numberOf
  rw [List.countP_eq_length_filter]
  refine List.Sublist.length_le (List.monotone_filter_right calls ?_)
  intro call both
  simp only [Bool.decide_and, Bool.and_eq_true, decide_eq_true_eq] at both ⊢
  exact both.1

/-- All calls of a function are alone when as many are alone as there are. -/
theorem all_alone {fn : Nat} {calls : List Call}
    (all : (aloneOf fn calls).length = numberOf fn calls) :
    ∀ call ∈ calls, call.fn = fn → call.alone = true := by
  induction calls with
  | nil => exact fun call member => absurd member List.not_mem_nil
  | cons call rest ih =>
    obtain ⟨g, enter, leave, alone⟩ := call
    rw [alone_cons] at all
    unfold numberOf at all ih
    have fewer := alone_length fn rest
    unfold numberOf at fewer
    rw [List.countP_cons] at all
    intro other member same
    by_cases mine : g = fn
    · cases alone with
      | true =>
        simp only [mine, and_self, ↓reduceIte, List.length_cons, decide_true] at all
        rcases List.mem_cons.mp member with rfl | later
        · rfl
        · exact ih (by omega) other later same
      | false =>
        simp only [mine, Bool.false_eq_true, and_false, ↓reduceIte, decide_true] at all
        omega
    · simp only [mine, false_and, ↓reduceIte, decide_false, Bool.false_eq_true] at all
      rcases List.mem_cons.mp member with rfl | later
      · exact absurd same mine
      · exact ih (by omega) other later same

theorem alone_eq {fn : Nat} {calls : List Call} (all : ∀ call ∈ calls, call.alone = true) :
    aloneOf fn calls = calls.filter (·.fn = fn) := by
  unfold aloneOf
  apply List.filter_congr
  intro call member
  simp [all call member]

/-- Every call is counted once, with its own duration, exactly when each of them is alone: its
    start time is stored, and no other call of the same function is entered on the task until
    it returns. (A function called 2^64 times is more than its counter can say.) -/
theorem every_call_counted_iff {events : List Firing} {calls : Calls}
    (complete : Complete cpus events calls) :
    EveryCallCounted cpus (fireAll .empty events) calls.returned ↔
      (∀ call ∈ calls.returned, call.alone = true) ∧
        ∀ fn < TRACE_FUNCS_END, numberOf fn calls.returned < 2 ^ 64 := by
  have tracks : Tracks cpus (fireAll .empty events) calls :=
    run_tracks (empty_tracks cpus) complete.firings complete.clock
      (fun _ _ member => absurd member List.not_mem_nil) complete.nested
  have known : ∀ call ∈ calls.returned, call.fn < TRACE_FUNCS_END :=
    follow_known complete.firings (fun _ member => absurd member List.not_mem_nil) complete.nested
  constructor
  · intro counted
    have small : ∀ fn < TRACE_FUNCS_END, numberOf fn calls.returned < 2 ^ 64 := by
      intro fn latency
      rw [← (counted fn latency).1]
      exact Nat.mod_lt _ (by decide)
    refine ⟨fun call member => ?_, small⟩
    have latency := known call member
    have exact := (counted call.fn latency).1
    have fewer := alone_length call.fn calls.returned
    have bound := small call.fn latency
    rw [(tracks.counts call.fn latency).1, Nat.mod_eq_of_lt (by omega)] at exact
    exact all_alone exact call member rfl
  · rintro ⟨alone, small⟩ fn latency
    obtain ⟨count, total⟩ := tracks.counts fn latency
    rw [count, total, alone_eq alone]
    constructor
    · rw [← List.countP_eq_length_filter]
      exact Nat.mod_eq_of_lt (small fn latency)
    · unfold timeIn
      rw [List.filter_filter]
      simp only [Bool.and_self]

/-- A call of qi_submit_sync that a softirq interrupts with another one. -/
def interrupted : List Firing :=
  [⟨.entry true, 3, 0, FunctionName.qiSubmitSync.value, 100⟩,
    ⟨.entry true, 3, 0, FunctionName.qiSubmitSync.value, 200⟩,
    ⟨.exit, 3, 0, FunctionName.qiSubmitSync.value, 300⟩,
    ⟨.exit, 3, 0, FunctionName.qiSubmitSync.value, 900⟩]

/-- Two tasks in qi_submit_sync; task 3 changes its CPU, and its call contains one of
    another function. -/
def separate : List Firing :=
  [⟨.entry true, 3, 0, FunctionName.qiSubmitSync.value, 100⟩,
    ⟨.entry true, 4, 1, FunctionName.qiSubmitSync.value, 150⟩,
    ⟨.entry true, 3, 0, FunctionName.qiBatchFlushDescs.value, 200⟩,
    ⟨.exit, 3, 1, FunctionName.qiBatchFlushDescs.value, 250⟩,
    ⟨.exit, 4, 1, FunctionName.qiSubmitSync.value, 250⟩,
    ⟨.exit, 3, 1, FunctionName.qiSubmitSync.value, 900⟩]

instance (cpus : Nat) (e : Firing) : Decidable (Latency cpus e) :=
  decidable_of_iff (e.cookie < TRACE_FUNCS_END ∧ e.cpu < cpus ∧ 0 < e.now ∧ e.now < 2 ^ 64)
    ⟨fun all => ⟨all.1, all.2.1, all.2.2.1, all.2.2.2⟩,
      fun all => ⟨all.cookie, all.cpu, all.positive, all.bound⟩⟩

theorem follow_others {task : Nat} {events : List Firing} (absent : ∀ e ∈ events, e.task ≠ task)
    (nested : follow c events = some d) : d.opened task = c.opened task := by
  induction events generalizing c with
  | nil =>
    cases nested
    rfl
  | cons e rest ih =>
    obtain ⟨mid, moved, later⟩ := Option.bind_eq_some_iff.mp nested
    have other : task ≠ e.task := fun same => absent e List.mem_cons_self same.symm
    rw [ih (fun f member => absent f (List.mem_cons_of_mem _ member)) later]
    unfold Calls.next at moved
    cases probe : e.probe with
    | entry created =>
      rw [probe] at moved
      cases moved
      exact Function.update_of_ne other _ _
    | exit =>
      rw [probe] at moved
      obtain ⟨_, _, _, _, rfl⟩ := leave_some moved
      exact Function.update_of_ne other _ _

theorem interrupted_complete : ∃ calls, Complete 1 interrupted calls ∧
    numberOf FunctionName.qiSubmitSync.value calls.returned = 2 := by
  have nested : ∃ calls, follow noCalls interrupted = some calls ∧ calls.opened 3 = [] ∧
      numberOf FunctionName.qiSubmitSync.value calls.returned = 2 := ⟨_, rfl, rfl, rfl⟩
  obtain ⟨calls, nested, idle, two⟩ := nested
  refine ⟨calls, ⟨by decide, by decide, nested, fun task => ?_⟩, two⟩
  by_cases here : task = 3
  · rw [here, idle]
  · have absent : ∀ e ∈ interrupted, e.task = 3 := by decide
    exact follow_others (fun e member same => here (same.symm.trans (absent e member))) nested

/-- The outer call is lost: its start time is overwritten, and cleared by the inner return. -/
theorem interrupted_call_lost : ∃ calls, Complete 1 interrupted calls ∧
    ¬ EveryCallCounted 1 (fireAll .empty interrupted) calls.returned := by
  obtain ⟨calls, complete, two⟩ := interrupted_complete
  refine ⟨calls, complete, fun counted => ?_⟩
  have count := (counted FunctionName.qiSubmitSync.value (by decide)).1
  have one : countOver 1 (fireAll .empty interrupted) FunctionName.qiSubmitSync.value = 1 := by
    decide
  rw [two, one] at count
  exact absurd count (by decide)

theorem separate_complete : ∃ calls, Complete 2 separate calls ∧
    (∀ call ∈ calls.returned, call.alone = true) ∧ calls.returned.length = 3 := by
  have nested : ∃ calls, follow noCalls separate = some calls ∧ calls.opened 3 = [] ∧
      calls.opened 4 = [] ∧ (∀ call ∈ calls.returned, call.alone = true) ∧
      calls.returned.length = 3 := ⟨_, rfl, rfl, rfl, by decide, rfl⟩
  obtain ⟨calls, nested, idle, free, alone, three⟩ := nested
  refine ⟨calls, ⟨by decide, by decide, nested, fun task => ?_⟩, alone, three⟩
  by_cases here : task = 3 ∨ task = 4
  · rcases here with rfl | rfl
    · exact idle
    · exact free
  · have present : ∀ e ∈ separate, e.task = 3 ∨ e.task = 4 := by decide
    exact follow_others (fun e member same => here (by rw [← same]; exact present e member)) nested

theorem separate_calls_counted : ∃ calls, Complete 2 separate calls ∧
    EveryCallCounted 2 (fireAll .empty separate) calls.returned := by
  obtain ⟨calls, complete, alone, three⟩ := separate_complete
  refine ⟨calls, complete, (every_call_counted_iff complete).mpr ⟨alone, fun fn _ => ?_⟩⟩
  have few : numberOf fn calls.returned ≤ calls.returned.length := List.countP_le_length
  rw [three] at few
  exact Nat.lt_of_le_of_lt few (by decide)

end CallTotals
