import FastSafeIO.LocalViews

/- Jobs that can be taken to happen at one moment. A job works on a part of what its agent
   sees and leaves the rest of it alone; then every run is also a run of an abstract
   machine that does each job in one step, when it begins or when it ends. -/
namespace AtomicJobs
open CallTree AgentPool LocalViews

variable {Agent Op World Mem Job View State α : Type} {Ans : Op → Type}

section
variable {step : (op : Op) → Ans op → View → View → Prop} {ok : Op → View → Prop}
  {beside : View → View → View → Prop} {post : α → View → Prop} {t : Tree Op Ans α}

/- In beside m f v, v is m and f put together. What may be done with m alone may be done
   with v, and is the same there; f stays as it is. -/
structure Frames (step : (op : Op) → Ans op → View → View → Prop) (ok : Op → View → Prop)
    (beside : View → View → View → Prop) : Prop where
  fine : ∀ op m f v, beside m f v → ok op m → ok op v
  kept : ∀ op r m f v after, beside m f v → ok op m → step op r v after →
    ∃ mine, step op r m mine ∧ beside mine f after

/-- What a program does alone it does beside anything else. -/
theorem meets_framed (frames : Frames step ok beside) {m f v : View} (meets : Meets step ok post t m)
    (apart : beside m f v) :
    Meets step (fun op v => ok op v ∧ ∃ m, beside m f v) (fun a v => ∃ m, beside m f v ∧ post a m) t v := by
  induction t generalizing m v with
  | done a => exact ⟨m, apart, meets⟩
  | call op rest ih =>
    obtain ⟨fine, later⟩ := meets
    refine ⟨⟨frames.fine op m f v apart fine, m, apart⟩, fun r after here => ?_⟩
    obtain ⟨mine, moved, still⟩ := frames.kept op r m f v after apart fine here
    exact ih r (later r mine moved) still

theorem meets_allowing {weaker : Op → View → Prop} {v : View} (meets : Meets step ok post t v)
    (each : ∀ op v, ok op v → weaker op v) : Meets step weaker post t v := by
  induction t generalizing v with
  | done a => exact meets
  | call op rest ih =>
    obtain ⟨fine, later⟩ := meets
    exact ⟨each op v fine, fun r after here => ih r (later r after here)⟩

end

variable [DecidableEq Agent]

/- A step of the pool, and what the abstract states do beside it: an agent's state changes
   only where one of its jobs begins or ends. -/
inductive Joint (P : Pool Agent Op Ans World Mem Job) (L : Limits Agent Op Ans World Mem Job)
    (begins ends : Job → Mem → State → State → Prop) :
    Config Agent Op Ans World Mem Job × (Agent → State) →
      Config Agent Op Ans World Mem Job × (Agent → State) → Prop where
  | start {c : Config Agent Op Ans World Mem Job} {states : Agent → State} {u : Agent} {job : Job}
      {mem : Mem} {early : State} (idle : c.phase u = .idle mem) (ready : P.ready u job mem)
      (allowed : L.start u job mem c.world) (begun : begins job mem (states u) early) :
      Joint P L begins ends (c, states)
        (⟨Function.update c.phase u (.busy job mem (P.body job mem)), c.world⟩,
          Function.update states u early)
  | call {c : Config Agent Op Ans World Mem Job} {states : Agent → State} {u : Agent} {job : Job}
      {mem : Mem} {op : Op} {rest : Ans op → Tree Op Ans Mem} {r : Ans op} {after : World}
      (busy : c.phase u = .busy job mem (.call op rest)) (allowed : L.call u job mem op r c.world)
      (here : P.exec u op r c.world = some after) :
      Joint P L begins ends (c, states)
        (⟨Function.update c.phase u (.busy job mem (rest r)), after⟩, states)
  | finish {c : Config Agent Op Ans World Mem Job} {states : Agent → State} {u : Agent} {job : Job}
      {mem out : Mem} {late : State} (busy : c.phase u = .busy job mem (.done out))
      (ended : ends job out (states u) late) :
      Joint P L begins ends (c, states)
        (⟨Function.update c.phase u (.idle out), c.world⟩, Function.update states u late)
  | drift {c : Config Agent Op Ans World Mem Job} {states : Agent → State} {after : World}
      (moved : P.drift c.world after) : Joint P L begins ends (c, states) (⟨c.phase, after⟩, states)

theorem Joint.unnoted {History : Type} {P : Pool Agent Op Ans World Mem Job}
    {note : Agent → (op : Op) → Ans op → History → History} {L : Limits Agent Op Ans World Mem Job}
    {begins ends : Job → Mem → State → State → Prop} {c d : Config Agent Op Ans World Mem Job}
    {h k : History} {s t : Agent → State} (joint : Joint (noting P note) (notingLimits L) begins ends
      (⟨c.phase, (c.world, h)⟩, s) (⟨d.phase, (d.world, k)⟩, t)) : Joint P L begins ends (c, s) (d, t) := by
  obtain ⟨phase, world⟩ := d
  cases joint with
  | start idle ready allowed begun => exact .start idle ready allowed begun
  | call busy allowed here =>
    obtain ⟨after, fires, same⟩ := Option.map_eq_some_iff.mp here
    cases same
    exact .call busy allowed fires
  | finish busy ended => exact .finish busy ended
  | drift moved => exact .drift moved.1

variable {P : Pool Agent Op Ans World Mem Job} {V : Views P View}

/- An abstract machine with a state for each agent. within is what such a state tells of the
   agent's part at every moment; when a job begins or ends, a new state that the part bears out
   is one step of the machine, or none. -/
structure Abstraction (V : Views P View) (State : Type) where
  within : State → View → Prop
  begins : Job → Mem → State → State → Prop
  ends : Job → Mem → State → State → Prop
  step : (Agent → State) → (Agent → State) → Prop
  joins : ∀ w states u job mem s, V.inv w → (∀ v, within (states v) (V.see v w)) →
    begins job mem (states u) s ∨ ends job mem (states u) s → within s (V.see u w) →
      Relation.ReflGen step states (Function.update states u s)

section
variable (A : Abstraction V State) (R : Rules Agent Op Ans View Mem Job)
  (keeps : State → Mem → View → Prop)

/- The rest of a job that began with the state s: s holds until the job ends, and then there
   is a state for the agent that its memory keeps. -/
def Under (u : Agent) (job : Job) (mem : Mem) (s : State) : Tree Op Ans Mem → View → Prop :=
  Meets (V.ruled R u job mem) (fun op v => V.ok op v ∧ A.within s v) fun out v =>
    A.within s v ∧ ∃ late, A.ends job out s late ∧ A.within late v ∧ keeps late out v

def Standing (u : Agent) (s : State) (v : View) : Phase Op Ans Mem Job → Prop
  | .idle mem => A.within s v ∧ keeps s mem v
  | .busy job mem t =>
    (∃ before seen, keeps before mem seen ∧ A.begins job mem before s) ∧ Under A R keeps u job mem s t v

end

section
variable {A : Abstraction V State} {R : Rules Agent Op Ans View Mem Job} {keeps : State → Mem → View → Prop}
  {L : Limits Agent Op Ans World Mem Job} {states : Agent → State}

theorem standing_within {u : Agent} {s : State} {v : View} {phase : Phase Op Ans Mem Job}
    (standing : Standing A R keeps u s v phase) : A.within s v := by
  cases phase with
  | idle mem => exact standing.1
  | busy job mem t =>
    cases t with
    | done out => exact standing.2.1
    | call op rest => exact standing.2.1.2

theorem others_standing {u : Agent} {s : State} {phase : Agent → Phase Op Ans Mem Job}
    {now after : World} {next : Phase Op Ans Mem Job}
    (standing : ∀ v, Standing A R keeps v (states v) (V.see v now) (phase v))
    (same : ∀ v, v ≠ u → V.see v after = V.see v now)
    (mine : Standing A R keeps u s (V.see u after) next) :
    ∀ v, Standing A R keeps v (Function.update states u s v) (V.see v after)
      (Function.update phase u next v) := by
  intro v
  by_cases equal : v = u
  · subst equal
    simpa using mine
  · rw [Function.update_of_ne equal, Function.update_of_ne equal, same v equal]
    exact standing v

/- What is asked of the jobs: each can begin with some state and then runs under it. -/
def Atomic (A : Abstraction V State) (R : Rules Agent Op Ans View Mem Job)
    (keeps : State → Mem → View → Prop) : Prop :=
  ∀ u job mem v s, P.ready u job mem → R.start u job mem v → A.within s v → keeps s mem v →
    ∃ early, A.begins job mem s early ∧ A.within early v ∧
      Under A R keeps u job mem early (P.body job mem) v

theorem step_standing (jobs : Atomic A R keeps) (follows : V.Follows R L)
    {c d : Config Agent Op Ans World Mem Job} (inv : V.inv c.world)
    (standing : ∀ v, Standing A R keeps v (states v) (V.see v c.world) (c.phase v))
    (step : Step P L c d) : ∃ after, Joint P L A.begins A.ends (c, states) (d, after) ∧
      Relation.ReflGen A.step states after ∧ V.inv d.world ∧
      ∀ v, Standing A R keeps v (after v) (V.see v d.world) (d.phase v) := by
  have within : ∀ v, A.within (states v) (V.see v c.world) := fun v => standing_within (standing v)
  cases step with
  | @start u job mem idle ready allowed =>
    have here := standing u
    rw [idle] at here
    obtain ⟨early, begun, inside, under⟩ :=
      jobs u job mem _ (states u) ready (follows.start u job mem _ allowed) here.1 here.2
    refine ⟨_, .start idle ready allowed begun,
      A.joins _ states u job mem early inv within (.inl begun) inside, inv, ?_⟩
    exact others_standing standing (fun _ _ => rfl) ⟨⟨states u, _, here.2, begun⟩, under⟩
  | @call u job mem op rest r after busy may here =>
    have now := standing u
    rw [busy] at now
    obtain ⟨begun, ⟨allowed, _⟩, later⟩ := now
    obtain ⟨kept, moved, others⟩ := V.call_kept u op r _ _ inv allowed here
    have mine : Standing A R keeps u (states u) (V.see u _) (.busy job mem (rest r)) :=
      ⟨begun, later r _ ⟨moved, follows.call u job mem op r _ may⟩⟩
    refine ⟨states, .call busy may here, .refl, kept, ?_⟩
    have all := others_standing standing others mine
    rwa [Function.update_eq_self] at all
  | @finish u job mem out busy =>
    have now := standing u
    rw [busy] at now
    obtain ⟨_, _, late, ended, inside, keep⟩ := now
    exact ⟨_, .finish busy ended, A.joins _ states u job out late inv within (.inr ended) inside,
      inv, others_standing standing (fun _ _ => rfl) ⟨inside, keep⟩⟩
  | drift moved =>
    obtain ⟨kept, same⟩ := V.drift_kept _ _ moved inv
    refine ⟨states, .drift moved, .refl, kept, fun v => ?_⟩
    rw [same v]
    exact standing v

end

theorem chosen_along (sim : Nat → α → Prop) (next : Nat → α → α → Prop) {first : α}
    (start : sim 0 first) (forward : ∀ n a, sim n a → ∃ b, next n a b ∧ sim (n + 1) b) :
    ∃ s : Nat → α, s 0 = first ∧ ∀ n, sim n (s n) ∧ next n (s n) (s (n + 1)) := by
  choose step moved kept using forward
  let along : (n : Nat) → { a // sim n a } :=
    Nat.rec ⟨first, start⟩ fun n now => ⟨step n now.1 now.2, kept n now.1 now.2⟩
  exact ⟨fun n => (along n).1, rfl, fun n => ⟨(along n).2, moved n _ (along n).2⟩⟩

theorem run_along {r : α → α → Prop} {a b : α} (run : Relation.ReflTransGen r a b) :
    ∃ c : Nat → α, c 0 = a ∧ (∀ n, Relation.ReflGen r (c n) (c (n + 1))) ∧ ∃ n, c n = b := by
  induction run using Relation.ReflTransGen.head_induction_on with
  | refl => exact ⟨fun _ => b, rfl, fun _ => .refl, 0, rfl⟩
  | @head a _ step _ ih =>
    obtain ⟨c, rfl, more, n, last⟩ := ih
    refine ⟨fun k => k.casesOn a c, rfl, fun k => ?_, n + 1, last⟩
    cases k with
    | zero => exact .single step
    | succ k => exact more k

/-- Beside every run of the pool there is a run of the abstract machine, with the states in
    keeping with what the agents do and see at every moment. -/
theorem run_is_atomic {History : Type} {note : Agent → (op : Op) → Ans op → History → History}
    {V : Views (noting P note) View} {A : Abstraction V State} {R : Rules Agent Op Ans View Mem Job}
    {keeps : State → Mem → View → Prop} {L : Limits Agent Op Ans World Mem Job}
    (jobs : Atomic A R keeps) (follows : V.Follows R (notingLimits L))
    {c : Nat → Config Agent Op Ans World Mem Job} {h : History} {states : Agent → State}
    (inv : V.inv ((c 0).world, h))
    (standing : ∀ v, Standing A R keeps v (states v) (V.see v ((c 0).world, h)) ((c 0).phase v))
    (run : ∀ n, Relation.ReflGen (Step P L) (c n) (c (n + 1))) :
    ∃ s : Nat → Agent → State, s 0 = states ∧ ∀ n,
      Relation.ReflGen (Joint P L A.begins A.ends) (c n, s n) (c (n + 1), s (n + 1)) ∧
      Relation.ReflGen A.step (s n) (s (n + 1)) ∧
      ∃ h, V.inv ((c n).world, h) ∧
        ∀ v, Standing A R keeps v (s n v) (V.see v ((c n).world, h)) ((c n).phase v) := by
  let Sim (n : Nat) (now : Agent → State) : Prop := ∃ h, V.inv ((c n).world, h) ∧
    ∀ v, Standing A R keeps v (now v) (V.see v ((c n).world, h)) ((c n).phase v)
  let Next (n : Nat) (now after : Agent → State) : Prop :=
    Relation.ReflGen (Joint P L A.begins A.ends) (c n, now) (c (n + 1), after) ∧
      Relation.ReflGen A.step now after
  have forward : ∀ n now, Sim n now → ∃ after, Next n now after ∧ Sim (n + 1) after := by
    rintro n now ⟨h, inv, standing⟩
    have moves := run n
    generalize coming : c (n + 1) = d at moves
    cases moves with
    | refl =>
      refine ⟨now, ⟨?_, .refl⟩, h, ?_⟩
      · rw [coming]
      · rw [coming]
        exact ⟨inv, standing⟩
    | single step =>
      obtain ⟨k, noted⟩ := step_noted note step h
      obtain ⟨after, joint, moved, kept, stands⟩ := step_standing jobs follows inv standing noted
      refine ⟨after, ⟨?_, moved⟩, k, ?_⟩
      · rw [coming]
        exact .single joint.unnoted
      · rw [coming]
        exact ⟨kept, stands⟩
  obtain ⟨s, first, all⟩ := chosen_along Sim Next ⟨h, inv, standing⟩ forward
  exact ⟨s, first, fun n => ⟨(all n).2.1, (all n).2.2, (all n).1⟩⟩

end AtomicJobs
