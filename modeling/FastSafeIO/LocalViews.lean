import FastSafeIO.AgentPool

/- Agents that share a state but each see only a part of it. When no call of one agent is
   seen by another, an agent can be reasoned about as if it ran alone on its own part. -/
namespace LocalViews
open CallTree AgentPool

variable {Agent Op World Mem Job View α β : Type} {Ans : Op → Type}

/- Alone on its part of the state, every call the program makes is fine and what it returns
   meets post. step says which answers a call may get and what is seen afterwards. -/
def Meets (step : (op : Op) → Ans op → View → View → Prop) (ok : Op → View → Prop)
    (post : α → View → Prop) : Tree Op Ans α → View → Prop
  | .done a, v => post a v
  | .call op rest, v => ok op v ∧ ∀ r after, step op r v after → Meets step ok post (rest r) after

section
variable {step : (op : Op) → Ans op → View → View → Prop} {ok : Op → View → Prop}

theorem Meets.mono {first post : α → View → Prop} {t : Tree Op Ans α} {v : View}
    (meets : Meets step ok first t v) (weaker : ∀ a v, first a v → post a v) :
    Meets step ok post t v := by
  induction t generalizing v with
  | done a => exact weaker a v meets
  | call op rest ih =>
    obtain ⟨fine, later⟩ := meets
    exact ⟨fine, fun r after here => ih r (later r after here)⟩

theorem Meets.bind {first : α → View → Prop} {post : β → View → Prop} {t : Tree Op Ans α}
    {next : α → Tree Op Ans β} {v : View} (meets : Meets step ok first t v)
    (rest : ∀ a v, first a v → Meets step ok post (next a) v) :
    Meets step ok post (t.bind next) v := by
  induction t generalizing v with
  | done a => exact rest a v meets
  | call op more ih =>
    obtain ⟨fine, later⟩ := meets
    exact ⟨fine, fun r after here => ih r (later r after here)⟩

theorem Meets.among {fewer : (op : Op) → Ans op → View → View → Prop} {post : α → View → Prop}
    {t : Tree Op Ans α} {v : View} (meets : Meets step ok post t v)
    (each : ∀ op r v b, fewer op r v b → step op r v b) : Meets fewer ok post t v := by
  induction t generalizing v with
  | done a => exact meets
  | call op rest ih =>
    obtain ⟨fine, later⟩ := meets
    exact ⟨fine, fun r after here => ih r (later r after (each op r v after here))⟩

/- Two accounts of the same calls. -/
theorem Meets.both {Other : Type} {step' : (op : Op) → Ans op → Other → Other → Prop}
    {ok' : Op → Other → Prop} {post : α → View → Prop} {post' : α → Other → Prop} {t : Tree Op Ans α}
    {v : View} {w : Other} (first : Meets step ok post t v) (second : Meets step' ok' post' t w) :
    Meets (fun op r a b => step op r a.1 b.1 ∧ step' op r a.2 b.2) (fun op a => ok op a.1 ∧ ok' op a.2)
      (fun a v => post a v.1 ∧ post' a v.2) t (v, w) := by
  induction t generalizing v w with
  | done a => exact ⟨first, second⟩
  | call op rest ih =>
    obtain ⟨fine, later⟩ := first
    obtain ⟨fine', later'⟩ := second
    exact ⟨⟨fine, fine'⟩, fun r after here => ih r (later r _ here.1) (later' r _ here.2)⟩

end

/- What each agent sees, and that what it does to the world is a step on what it sees and
   on nothing that another agent sees. -/
structure Views (P : Pool Agent Op Ans World Mem Job) (View : Type) where
  inv : World → Prop
  see : Agent → World → View
  step : (op : Op) → Ans op → View → View → Prop
  ok : Op → View → Prop
  drift_kept : ∀ a b, P.drift a b → inv a → inv b ∧ ∀ u, see u b = see u a
  call_kept : ∀ u op r a b, inv a → ok op (see u a) → P.exec u op r a = some b →
    inv b ∧ step op r (see u a) (see u b) ∧ ∀ v, v ≠ u → see v b = see v a

variable {P : Pool Agent Op Ans World Mem Job} (V : Views P View)

/- An agent counts on the others not to touch what it sees. -/
def Views.discipline : Discipline P where
  inv := V.inv
  rely u a b := V.see u b = V.see u a
  ok u _ _ op w := V.ok op (V.see u w)
  result _ _ _ _ _ := True
  rely_refl _ _ := rfl
  rely_trans _ _ _ _ first second := second.trans first
  drift_kept := V.drift_kept

/- Which jobs may start, and which answers a call may get, as far as an agent sees it. -/
structure Rules (Agent Op : Type) (Ans : Op → Type) (View Mem Job : Type) where
  start : Agent → Job → Mem → View → Prop
  call : Agent → Job → Mem → (op : Op) → Ans op → View → Prop

def Rules.any : Rules Agent Op Ans View Mem Job := ⟨fun _ _ _ _ => True, fun _ _ _ _ _ _ => True⟩

variable (R : Rules Agent Op Ans View Mem Job)

def Views.ruled (u : Agent) (job : Job) (mem : Mem) (op : Op) (r : Ans op) (v after : View) : Prop :=
  V.step op r v after ∧ R.call u job mem op r v

structure Views.Follows (L : Limits Agent Op Ans World Mem Job) : Prop where
  start : ∀ u job mem w, L.start u job mem w → R.start u job mem (V.see u w)
  call : ∀ u job mem op r w, L.call u job mem op r w → R.call u job mem op r (V.see u w)

variable {R} {L : Limits Agent Op Ans World Mem Job}

theorem Views.safe_of_meets (follows : V.Follows R L) {u : Agent} {job : Job} {mem : Mem}
    {post : α → View → Prop} {t : Tree Op Ans α} {w : World}
    (meets : Meets (V.ruled R u job mem) V.ok post t (V.see u w)) :
    Safe V.discipline L u job mem (fun a now => post a (V.see u now)) t w := by
  induction t generalizing w with
  | done a =>
    intro now _ moved
    rw [show V.see u now = V.see u w from moved]
    exact meets
  | call op rest ih =>
    obtain ⟨fine, later⟩ := meets
    intro now kept moved
    have same : V.see u now = V.see u w := moved
    have allowed : V.ok op (V.see u now) := same ▸ fine
    refine ⟨allowed, fun r after may here => ?_⟩
    obtain ⟨keptAfter, mine, others⟩ := V.call_kept u op r now after kept allowed here
    have ruled := follows.call u job mem op r now may
    rw [same] at mine ruled
    exact ⟨keptAfter, others, ih r (later r _ ⟨mine, ruled⟩)⟩

/- The steps of one agent alone on its part: the same as in the pool, without the others. -/
inductive LocalStep (P : Pool Agent Op Ans World Mem Job) (V : Views P View)
    (R : Rules Agent Op Ans View Mem Job) (u : Agent) :
    Phase Op Ans Mem Job × View → Phase Op Ans Mem Job × View → Prop where
  | start {job : Job} {mem : Mem} {v : View} (ready : P.ready u job mem) (allowed : R.start u job mem v) :
      LocalStep P V R u (.idle mem, v) (.busy job mem (P.body job mem), v)
  | call {job : Job} {mem : Mem} {op : Op} {rest : Ans op → Tree Op Ans Mem} {r : Ans op}
      {v after : View} (fine : V.ok op v) (here : V.ruled R u job mem op r v after) :
      LocalStep P V R u (.busy job mem (.call op rest), v) (.busy job mem (rest r), after)
  | finish {job : Job} {mem out : Mem} {v : View} :
      LocalStep P V R u (.busy job mem (.done out), v) (.idle out, v)

abbrev LocalReaches (P : Pool Agent Op Ans World Mem Job) (V : Views P View)
    (R : Rules Agent Op Ans View Mem Job) (u : Agent) :=
  Relation.ReflTransGen (LocalStep P V R u)

section
variable (memOk : Mem → View → Prop)
  (jobs : ∀ u job mem v, P.ready u job mem → R.start u job mem v → memOk mem v →
    Meets (V.ruled R u job mem) V.ok memOk (P.body job mem) v)

def Views.partOf (u : Agent) (c : Config Agent Op Ans World Mem Job) : Phase Op Ans Mem Job × View :=
  (c.phase u, V.see u c.world)

/- Every agent is idle with what it keeps true. -/
def Views.Fine (c : Config Agent Op Ans World Mem Job) : Prop :=
  V.inv c.world ∧ ∀ u, ∃ mem, c.phase u = .idle mem ∧ memOk mem (V.see u c.world)

theorem Views.fine_config {c : Config Agent Op Ans World Mem Job} (fine : V.Fine memOk c) :
    ConfigOk V.discipline L (fun u mem w => memOk mem (V.see u w)) c := by
  refine ⟨fine.1, fun u => ?_⟩
  obtain ⟨mem, idle, here⟩ := fine.2 u
  rw [idle]
  exact here

theorem Views.stable (u : Agent) (mem : Mem) (a b : World) (here : memOk mem (V.see u a))
    (_ : V.discipline.inv b) (moved : V.discipline.rely u a b) : memOk mem (V.see u b) := by
  rw [show V.see u b = V.see u a from moved]
  exact here

include jobs

theorem Views.jobs_safe (follows : V.Follows R L) (u : Agent) (job : Job) (mem : Mem) (w : World)
    (_ : V.discipline.inv w) (here : memOk mem (V.see u w)) (ready : P.ready u job mem)
    (begun : L.start u job mem w) :
    Safe V.discipline L u job mem
      (Ended V.discipline (fun u mem w => memOk mem (V.see u w)) u job mem) (P.body job mem) w :=
  Safe.mono (V.safe_of_meets follows (jobs u job mem _ ready (follows.start u job mem w begun) here))
    fun _ _ _ out => ⟨out, trivial⟩

variable [DecidableEq Agent]

/-- In every run the calls are fine and the idle agents keep what they have to. -/
theorem Views.run_keeps (follows : V.Follows R L) {c d : Config Agent Op Ans World Mem Job}
    (fine : V.Fine memOk c) (run : Reaches P L c d) :
    V.inv d.world ∧ (∀ u mem, d.phase u = .idle mem → memOk mem (V.see u d.world)) ∧
      ∀ u job mem op rest, d.phase u = .busy job mem (.call op rest) → V.ok op (V.see u d.world) := by
  have start := V.fine_config (L := L) memOk fine
  have stable := V.stable memOk
  have safe := V.jobs_safe memOk jobs follows
  have last := run_keeps_config_ok _ stable safe start run
  refine ⟨last.1, fun u mem idle => ?_, fun u job mem op rest busy => ?_⟩
  · have here := last.2 u
    rwa [idle] at here
  · exact run_calls_ok _ stable safe start run busy

theorem Views.run_is_local (follows : V.Follows R L) {c d : Config Agent Op Ans World Mem Job}
    (fine : V.Fine memOk c) (run : Reaches P L c d) (u : Agent) :
    LocalReaches P V R u (V.partOf u c) (V.partOf u d) := by
  induction run with
  | refl => exact .refl
  | @tail b d first step ih =>
    obtain ⟨inv, _, calls⟩ := V.run_keeps memOk jobs follows fine first
    have quiet : ∀ (phase : Phase Op Ans Mem Job) (after : World) (v : Agent), u ≠ v →
        V.see u after = V.see u b.world →
        LocalReaches P V R u (V.partOf u c) (V.partOf u ⟨Function.update b.phase v phase, after⟩) := by
      intro phase after v other same
      simpa only [Views.partOf, Function.update_of_ne other, same] using ih
    cases step with
    | @start v job mem idle ready begun =>
      by_cases mine : u = v
      · subst mine
        refine ih.tail ?_
        simp only [Views.partOf, idle, Function.update_self]
        exact .start ready (follows.start u job mem _ begun)
      · exact quiet _ _ v mine rfl
    | @call v job mem op rest r after busy may here =>
      have allowed := calls v job mem op rest busy
      obtain ⟨_, moved, others⟩ := V.call_kept v op r _ _ inv allowed here
      by_cases mine : u = v
      · subst mine
        refine ih.tail ?_
        simp only [Views.partOf, busy, Function.update_self]
        exact .call allowed ⟨moved, follows.call u job mem op r _ may⟩
      · exact quiet _ _ v mine (others u mine)
    | @finish v job mem out busy =>
      by_cases mine : u = v
      · subst mine
        refine ih.tail ?_
        simp only [Views.partOf, busy, Function.update_self]
        exact .finish
      · exact quiet _ _ v mine rfl
    | drift moved =>
      have same := (V.drift_kept _ _ moved inv).2 u
      simpa only [Views.partOf, same] using ih

end

/- A history variable: written at every call, read by none. -/
def noting {History : Type} (P : Pool Agent Op Ans World Mem Job)
    (note : Agent → (op : Op) → Ans op → History → History) :
    Pool Agent Op Ans (World × History) Mem Job where
  exec u op r w := (P.exec u op r w.1).map fun b => (b, note u op r w.2)
  drift a b := P.drift a.1 b.1 ∧ b.2 = a.2
  ready := P.ready
  body := P.body

def notingLimits {History : Type} (L : Limits Agent Op Ans World Mem Job) :
    Limits Agent Op Ans (World × History) Mem Job where
  start u job mem w := L.start u job mem w.1
  call u job mem op r w := L.call u job mem op r w.1

theorem step_noted [DecidableEq Agent] {History : Type} {L : Limits Agent Op Ans World Mem Job}
    (note : Agent → (op : Op) → Ans op → History → History)
    {c d : Config Agent Op Ans World Mem Job} (step : Step P L c d) (before : History) :
    ∃ after, Step (noting P note) (notingLimits L) ⟨c.phase, (c.world, before)⟩
      ⟨d.phase, (d.world, after)⟩ := by
  cases step with
  | start idle ready allowed =>
    exact ⟨before, .start (P := noting P note) (L := notingLimits L) idle ready allowed⟩
  | @call u job mem op rest r after busy allowed here =>
    refine ⟨note u op r before, .call (P := noting P note) (L := notingLimits L) busy allowed ?_⟩
    simp only [noting, here, Option.map_some]
  | finish busy => exact ⟨before, .finish (P := noting P note) (L := notingLimits L) busy⟩
  | drift moved =>
    exact ⟨before, .drift (P := noting P note) (L := notingLimits L) ⟨moved, rfl⟩⟩

theorem run_noted [DecidableEq Agent] {History : Type} {L : Limits Agent Op Ans World Mem Job}
    (note : Agent → (op : Op) → Ans op → History → History)
    {c d : Config Agent Op Ans World Mem Job} (run : Reaches P L c d) (before : History) :
    ∃ after, Reaches (noting P note) (notingLimits L) ⟨c.phase, (c.world, before)⟩
      ⟨d.phase, (d.world, after)⟩ := by
  induction run with
  | refl => exact ⟨before, .refl⟩
  | tail _ step ih =>
    obtain ⟨now, first⟩ := ih
    obtain ⟨after, last⟩ := step_noted note step now
    exact ⟨after, first.tail last⟩

end LocalViews
