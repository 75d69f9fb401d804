import FastSafeIO.CallTree

/- Any number of agents run jobs over one shared state, one call at a time and in
   any order; between two calls the state may also drift by itself. An agent proves
   its own jobs against what the others may do to the state (its rely). -/
namespace AgentPool
open CallTree

structure Pool (Agent Op : Type) (Ans : Op → Type) (World Mem Job : Type) where
  exec : Agent → (op : Op) → Ans op → World → Option World
  drift : World → World → Prop
  ready : Agent → Job → Mem → Prop
  body : Job → Mem → Tree Op Ans Mem

/- An agent is idle with its private memory, or in the middle of a job that began
   with that memory and has this much left to run. -/
inductive Phase (Op : Type) (Ans : Op → Type) (Mem Job : Type) where
  | idle : Mem → Phase Op Ans Mem Job
  | busy : Job → Mem → Tree Op Ans Mem → Phase Op Ans Mem Job

structure Config (Agent Op : Type) (Ans : Op → Type) (World Mem Job : Type) where
  phase : Agent → Phase Op Ans Mem Job
  world : World

/- A restriction on runs: which jobs may start, and which answers a call may get. -/
structure Limits (Agent Op : Type) (Ans : Op → Type) (World Mem Job : Type) where
  start : Agent → Job → Mem → World → Prop
  call : Agent → Job → Mem → (op : Op) → Ans op → World → Prop

variable {Agent Op World Mem Job α β : Type} {Ans : Op → Type}

def Limits.unlimited : Limits Agent Op Ans World Mem Job :=
  ⟨fun _ _ _ _ => True, fun _ _ _ _ _ _ => True⟩

/- What every agent keeps true (inv), what an agent may count on while others run
   (rely), what must hold when an agent is about to make a call (ok) and what a job
   must have reached when it ends (result). -/
structure Discipline (P : Pool Agent Op Ans World Mem Job) where
  inv : World → Prop
  rely : Agent → World → World → Prop
  ok : Agent → Job → Mem → Op → World → Prop
  result : Agent → Job → Mem → Mem → World → Prop
  rely_refl : ∀ u w, rely u w w
  rely_trans : ∀ u a b c, rely u a b → rely u b c → rely u a c
  drift_kept : ∀ a b, P.drift a b → inv a → inv b ∧ ∀ u, rely u a b

variable {P : Pool Agent Op Ans World Mem Job} {L : Limits Agent Op Ans World Mem Job}
  {D : Discipline P} {u : Agent} {job : Job} {mem : Mem}

/- The rest of a job is safe when every call it makes is safe at every state the
   rely allows, for every answer, and its result meets post. -/
def Safe (D : Discipline P) (L : Limits Agent Op Ans World Mem Job) (u : Agent) (job : Job)
    (mem : Mem) (post : α → World → Prop) : Tree Op Ans α → World → Prop
  | .done a, w => ∀ now, D.inv now → D.rely u w now → post a now
  | .call op rest, w => ∀ now, D.inv now → D.rely u w now → D.ok u job mem op now ∧
      ∀ r after, L.call u job mem op r now → P.exec u op r now = some after →
        D.inv after ∧ (∀ v, v ≠ u → D.rely v now after) ∧ Safe D L u job mem post (rest r) after

theorem Safe.later {post : α → World → Prop} {t : Tree Op Ans α} {w now : World}
    (safe : Safe D L u job mem post t w) (moved : D.rely u w now) :
    Safe D L u job mem post t now := by
  cases t with
  | done a => exact fun last kept more => safe last kept (D.rely_trans u _ _ _ moved more)
  | call op rest => exact fun last kept more => safe last kept (D.rely_trans u _ _ _ moved more)

/-- The consequence rule, with what the job returns in any case. -/
theorem Safe.mono_returning {first post : α → World → Prop} {P' : α → Prop} {t : Tree Op Ans α}
    {w : World} (safe : Safe D L u job mem first t w) (returns : t.Returns P')
    (weaker : ∀ a now, D.inv now → first a now → P' a → post a now) :
    Safe D L u job mem post t w := by
  induction t generalizing w with
  | done a => exact fun now kept moved => weaker a now kept (safe now kept moved) returns
  | call op rest ih =>
    intro now kept moved
    obtain ⟨ok, fire⟩ := safe now kept moved
    refine ⟨ok, fun r after allowed here => ?_⟩
    obtain ⟨keptAfter, others, more⟩ := fire r after allowed here
    exact ⟨keptAfter, others, ih r more (returns r)⟩

theorem Safe.mono {first post : α → World → Prop} {t : Tree Op Ans α} {w : World}
    (safe : Safe D L u job mem first t w) (weaker : ∀ a now, D.inv now → first a now → post a now) :
    Safe D L u job mem post t w :=
  safe.mono_returning (Tree.returns_anything t) fun a now kept holds _ => weaker a now kept holds

theorem Safe.returning {post : α → World → Prop} {P' : α → Prop} {t : Tree Op Ans α} {w : World}
    (safe : Safe D L u job mem post t w) (returns : t.Returns P') :
    Safe D L u job mem (fun a now => post a now ∧ P' a) t w :=
  safe.mono_returning returns fun _ _ _ holds fine => ⟨holds, fine⟩

theorem Safe.bind {first : α → World → Prop} {post : β → World → Prop} {t : Tree Op Ans α}
    {next : α → Tree Op Ans β} {w : World} (kept : D.inv w)
    (safe : Safe D L u job mem first t w)
    (rest : ∀ a now, D.inv now → first a now → Safe D L u job mem post (next a) now) :
    Safe D L u job mem post (t.bind next) w := by
  induction t generalizing w with
  | done a => exact rest a w kept (safe w kept (D.rely_refl u w))
  | call op more ih =>
    intro now keptNow moved
    obtain ⟨ok, fire⟩ := safe now keptNow moved
    refine ⟨ok, fun r after allowed here => ?_⟩
    obtain ⟨keptAfter, others, tail⟩ := fire r after allowed here
    exact ⟨keptAfter, others, ih r keptAfter tail⟩

/- The usual way to prove a call: an assertion the rely keeps holds now, and from
   every state where it holds the call is fine and the rest is safe. -/
theorem safe_call {post : α → World → Prop} {op : Op} {rest : Ans op → Tree Op Ans α} {w : World}
    (here : World → Prop) (now : here w)
    (stable : ∀ a b, here a → D.inv b → D.rely u a b → here b)
    (fire : ∀ a, D.inv a → here a → D.ok u job mem op a ∧
      ∀ r after, L.call u job mem op r a → P.exec u op r a = some after →
        D.inv after ∧ (∀ v, v ≠ u → D.rely v a after) ∧ Safe D L u job mem post (rest r) after) :
    Safe D L u job mem post (.call op rest) w := by
  intro a kept moved
  exact fire a kept (stable w a now kept moved)

theorem Safe.alike {related : α → β → Prop} {first : α → World → Prop} {post : β → World → Prop}
    {t : Tree Op Ans α} {s : Tree Op Ans β} {w : World} (same : t.Alike related s)
    (safe : Safe D L u job mem first t w)
    (carries : ∀ a b now, related a b → first a now → post b now) :
    Safe D L u job mem post s w := by
  induction same generalizing w with
  | done here => exact fun now kept moved => carries _ _ now here (safe now kept moved)
  | call _ ih =>
    intro now kept moved
    obtain ⟨ok, fire⟩ := safe now kept moved
    refine ⟨ok, fun r after allowed here => ?_⟩
    obtain ⟨keptAfter, others, more⟩ := fire r after allowed here
    exact ⟨keptAfter, others, ih r more⟩

def Ended (D : Discipline P) (memOk : Agent → Mem → World → Prop) (u : Agent) (job : Job) (mem : Mem)
    (out : Mem) (w : World) : Prop :=
  memOk u out w ∧ D.result u job mem out w

def PhaseOk (D : Discipline P) (L : Limits Agent Op Ans World Mem Job)
    (memOk : Agent → Mem → World → Prop) (u : Agent) : Phase Op Ans Mem Job → World → Prop
  | .idle mem, w => memOk u mem w
  | .busy job mem rest, w => Safe D L u job mem (Ended D memOk u job mem) rest w

def ConfigOk (D : Discipline P) (L : Limits Agent Op Ans World Mem Job)
    (memOk : Agent → Mem → World → Prop) (c : Config Agent Op Ans World Mem Job) : Prop :=
  D.inv c.world ∧ ∀ u, PhaseOk D L memOk u (c.phase u) c.world

variable [DecidableEq Agent]

inductive Step (P : Pool Agent Op Ans World Mem Job) (L : Limits Agent Op Ans World Mem Job) :
    Config Agent Op Ans World Mem Job → Config Agent Op Ans World Mem Job → Prop where
  | start {c : Config Agent Op Ans World Mem Job} {u : Agent} {job : Job} {mem : Mem}
      (idle : c.phase u = .idle mem) (ready : P.ready u job mem)
      (allowed : L.start u job mem c.world) :
      Step P L c ⟨Function.update c.phase u (.busy job mem (P.body job mem)), c.world⟩
  | call {c : Config Agent Op Ans World Mem Job} {u : Agent} {job : Job} {mem : Mem} {op : Op}
      {rest : Ans op → Tree Op Ans Mem} {r : Ans op} {after : World}
      (busy : c.phase u = .busy job mem (.call op rest))
      (allowed : L.call u job mem op r c.world) (here : P.exec u op r c.world = some after) :
      Step P L c ⟨Function.update c.phase u (.busy job mem (rest r)), after⟩
  | finish {c : Config Agent Op Ans World Mem Job} {u : Agent} {job : Job} {mem out : Mem}
      (busy : c.phase u = .busy job mem (.done out)) :
      Step P L c ⟨Function.update c.phase u (.idle out), c.world⟩
  | drift {c : Config Agent Op Ans World Mem Job} {after : World}
      (moved : P.drift c.world after) : Step P L c ⟨c.phase, after⟩

abbrev Reaches (P : Pool Agent Op Ans World Mem Job) (L : Limits Agent Op Ans World Mem Job) :=
  Relation.ReflTransGen (Step P L)

section
variable (memOk : Agent → Mem → World → Prop)
  (stable : ∀ u mem a b, memOk u mem a → D.inv b → D.rely u a b → memOk u mem b)
  (jobs : ∀ u job mem w, D.inv w → memOk u mem w → P.ready u job mem → L.start u job mem w →
    Safe D L u job mem (Ended D memOk u job mem) (P.body job mem) w)
include stable

omit [DecidableEq Agent] in
theorem phase_ok_later {u : Agent} {phase : Phase Op Ans Mem Job} {a b : World}
    (fine : PhaseOk D L memOk u phase a) (kept : D.inv b) (moved : D.rely u a b) :
    PhaseOk D L memOk u phase b := by
  cases phase with
  | idle mem => exact stable u mem a b fine kept moved
  | busy job mem rest => exact Safe.later fine moved

/- The agent that moved is fine again and the others could count on their rely. -/
theorem config_ok_update {c : Config Agent Op Ans World Mem Job} {u : Agent}
    {phase : Phase Op Ans Mem Job} {after : World} (fine : ConfigOk D L memOk c)
    (kept : D.inv after) (others : ∀ v, v ≠ u → D.rely v c.world after)
    (mine : PhaseOk D L memOk u phase after) :
    ConfigOk D L memOk ⟨Function.update c.phase u phase, after⟩ := by
  refine ⟨kept, fun v => ?_⟩
  by_cases same : v = u
  · subst same
    simpa using mine
  · simp only [Function.update_of_ne same]
    exact phase_ok_later memOk stable (fine.2 v) kept (others v same)

include jobs

theorem step_keeps_config_ok {c d : Config Agent Op Ans World Mem Job}
    (fine : ConfigOk D L memOk c) (step : Step P L c d) : ConfigOk D L memOk d := by
  cases step with
  | @start u job mem idle ready allowed =>
    have memory : memOk u mem c.world := by simpa [PhaseOk, idle] using fine.2 u
    exact config_ok_update memOk stable fine fine.1 (fun v _ => D.rely_refl v _)
      (jobs u job mem c.world fine.1 memory ready allowed)
  | @call u job mem op rest r after busy allowed here =>
    have safe : Safe D L u job mem (Ended D memOk u job mem) (.call op rest) c.world := by
      simpa [PhaseOk, busy] using fine.2 u
    obtain ⟨kept, others, tail⟩ :=
      (safe c.world fine.1 (D.rely_refl u _)).2 r after allowed here
    exact config_ok_update memOk stable fine kept others tail
  | @finish u job mem out busy =>
    have safe : Safe D L u job mem (Ended D memOk u job mem) (.done out) c.world := by
      simpa [PhaseOk, busy] using fine.2 u
    exact config_ok_update memOk stable fine fine.1 (fun v _ => D.rely_refl v _)
      (safe c.world fine.1 (D.rely_refl u _)).1
  | drift moved =>
    obtain ⟨kept, others⟩ := D.drift_kept _ _ moved fine.1
    exact ⟨kept, fun v => phase_ok_later memOk stable (fine.2 v) kept (others v)⟩

theorem run_keeps_config_ok {c d : Config Agent Op Ans World Mem Job}
    (fine : ConfigOk D L memOk c) (run : Reaches P L c d) : ConfigOk D L memOk d := by
  induction run with
  | refl => exact fine
  | tail _ step ih => exact step_keeps_config_ok memOk stable jobs ih step

theorem run_busy_safe {c d : Config Agent Op Ans World Mem Job} (fine : ConfigOk D L memOk c)
    (run : Reaches P L c d) {u : Agent} {job : Job} {mem : Mem} {left : Tree Op Ans Mem}
    (busy : d.phase u = .busy job mem left) :
    D.inv d.world ∧ Safe D L u job mem (Ended D memOk u job mem) left d.world := by
  have last := run_keeps_config_ok memOk stable jobs fine run
  constructor
  · exact last.1
  · simpa [PhaseOk, busy] using last.2 u

theorem run_calls_ok {c d : Config Agent Op Ans World Mem Job} (fine : ConfigOk D L memOk c)
    (run : Reaches P L c d) {u : Agent} {job : Job} {mem : Mem} {op : Op}
    {rest : Ans op → Tree Op Ans Mem} (busy : d.phase u = .busy job mem (.call op rest)) :
    D.ok u job mem op d.world := by
  obtain ⟨inv, safe⟩ := run_busy_safe memOk stable jobs fine run busy
  exact (safe d.world inv (D.rely_refl u _)).1

end

/-- What the memories alone keep, whatever happens to the shared state: an idle agent
    has a good memory and the rest of a job can only return a good one. -/
def MemoryOk (memOk : Mem → Prop) : Phase Op Ans Mem Job → Prop
  | .idle mem => memOk mem
  | .busy _ _ rest => rest.Returns memOk

theorem run_keeps_memories (memOk : Mem → Prop)
    (bodies : ∀ u job mem, P.ready u job mem → memOk mem → (P.body job mem).Returns memOk)
    {c d : Config Agent Op Ans World Mem Job} (fine : ∀ u, MemoryOk memOk (c.phase u))
    (run : Reaches P L c d) : ∀ u, MemoryOk memOk (d.phase u) := by
  have moved : ∀ (f : Agent → Phase Op Ans Mem Job) (u : Agent) (phase : Phase Op Ans Mem Job),
      (∀ v, MemoryOk memOk (f v)) → MemoryOk memOk phase →
        ∀ v, MemoryOk memOk (Function.update f u phase v) := by
    intro f u phase all here v
    by_cases same : v = u
    · subst same
      rwa [Function.update_self]
    · rw [Function.update_of_ne same]
      exact all v
  induction run with
  | refl => exact fine
  | tail _ step ih =>
    cases step with
    | @start u job mem idle ready _ =>
      have memory := ih u
      rw [idle] at memory
      exact moved _ _ _ ih (bodies u job mem ready memory)
    | @call u job mem op rest r after busy _ _ =>
      have returns := ih u
      rw [busy] at returns
      exact moved _ _ _ ih (returns r)
    | @finish u job mem out busy =>
      have returns := ih u
      rw [busy] at returns
      exact moved _ _ _ ih returns
    | drift _ => exact ih

/- The state of one agent's job after a number of calls answered by an oracle. -/
def advance (exec : (op : Op) → Ans op → World → Option World)
    (oracle : (op : Op) → World → Ans op) :
    Nat → Tree Op Ans α → World → Option (Tree Op Ans α × World)
  | 0, t, w => some (t, w)
  | _ + 1, .done _, _ => none
  | n + 1, .call op rest, w =>
    match exec op (oracle op w) w with
    | none => none
    | some mid => advance exec oracle n (rest (oracle op w)) mid

theorem advance_reaches (job : Job) (mem : Mem) {run : (op : Op) → Ans op → World → Option World}
    {oracle : (op : Op) → World → Ans op} {n : Nat} {c : Config Agent Op Ans World Mem Job}
    {t last : Tree Op Ans Mem} {after : World}
    (sound : ∀ op r a b, run op r a = some b → L.call u job mem op r a ∧ P.exec u op r a = some b)
    (busy : c.phase u = .busy job mem t) (out : advance run oracle n t c.world = some (last, after)) :
    Reaches P L c ⟨Function.update c.phase u (.busy job mem last), after⟩ := by
  induction n generalizing c t with
  | zero =>
    simp only [advance, Option.some.injEq, Prod.mk.injEq] at out
    obtain ⟨rfl, rfl⟩ := out
    rw [← busy, Function.update_eq_self]
  | succ n ih =>
    cases t with
    | done a => simp [advance] at out
    | call op rest =>
      simp only [advance] at out
      split at out
      · simp at out
      · rename_i mid here
        obtain ⟨allowed, fires⟩ := sound op _ _ _ here
        have first : Step P L c
            ⟨Function.update c.phase u (.busy job mem (rest (oracle op c.world))), mid⟩ :=
          .call busy allowed fires
        have more := ih (c := ⟨Function.update c.phase u
          (.busy job mem (rest (oracle op c.world))), mid⟩) (by simp) out
        rw [Function.update_idem] at more
        exact .head first more

theorem start_advance_reaches (job : Job) (mem : Mem) {run : (op : Op) → Ans op → World → Option World}
    {oracle : (op : Op) → World → Ans op} {n : Nat} {c : Config Agent Op Ans World Mem Job}
    {last : Tree Op Ans Mem} {after : World} (idle : c.phase u = .idle mem)
    (ready : P.ready u job mem) (allowed : L.start u job mem c.world)
    (sound : ∀ op r a b, run op r a = some b → L.call u job mem op r a ∧ P.exec u op r a = some b)
    (out : advance run oracle n (P.body job mem) c.world = some (last, after)) :
    Reaches P L c ⟨Function.update c.phase u (.busy job mem last), after⟩ := by
  have begun : Step P L c ⟨Function.update c.phase u (.busy job mem (P.body job mem)), c.world⟩ :=
    .start idle ready allowed
  have more := advance_reaches (L := L) job mem
    (c := ⟨Function.update c.phase u (.busy job mem (P.body job mem)), c.world⟩)
    sound (by simp) out
  rw [Function.update_idem] at more
  exact .head begun more

/- The rest of a job, to its end. -/
theorem advance_ends (job : Job) (mem : Mem) {run : (op : Op) → Ans op → World → Option World}
    {oracle : (op : Op) → World → Ans op} {n : Nat} {c : Config Agent Op Ans World Mem Job}
    {t : Tree Op Ans Mem} {out : Mem} {after : World}
    (sound : ∀ op r a b, run op r a = some b → L.call u job mem op r a ∧ P.exec u op r a = some b)
    (busy : c.phase u = .busy job mem t) (done : advance run oracle n t c.world = some (.done out, after)) :
    Reaches P L c ⟨Function.update c.phase u (.idle out), after⟩ := by
  have more := advance_reaches (L := L) job mem sound busy done
  have last := Relation.ReflTransGen.tail more (.finish (Function.update_self ..))
  rwa [Function.update_idem] at last

theorem job_run_reaches (job : Job) (mem : Mem) {run : (op : Op) → Ans op → World → Option World}
    {oracle : (op : Op) → World → Ans op} {n : Nat} {c : Config Agent Op Ans World Mem Job}
    {out : Mem} {after : World} (idle : c.phase u = .idle mem) (ready : P.ready u job mem)
    (allowed : L.start u job mem c.world)
    (sound : ∀ op r a b, run op r a = some b → L.call u job mem op r a ∧ P.exec u op r a = some b)
    (done : advance run oracle n (P.body job mem) c.world = some (.done out, after)) :
    Reaches P L c ⟨Function.update c.phase u (.idle out), after⟩ := by
  have more := start_advance_reaches job mem idle ready allowed sound done
  have last := Relation.ReflTransGen.tail more (.finish (Function.update_self ..))
  rwa [Function.update_idem] at last

theorem exec_reaches {run : (op : Op) → Ans op → World → Option World} {u : Agent} {job : Job}
    {mem out : Mem} {t : Tree Op Ans Mem} {w last : World} {trace : List (Event Ans)}
    (sound : ∀ op r a b, run op r a = some b → L.call u job mem op r a ∧ P.exec u op r a = some b)
    (ran : Exec run t w trace out last) {phase : Agent → Phase Op Ans Mem Job}
    (busy : phase u = .busy job mem t) :
    Reaches P L ⟨phase, w⟩ ⟨Function.update phase u (.busy job mem (.done out)), last⟩ := by
  induction ran generalizing phase with
  | done a w =>
    rw [← busy, Function.update_eq_self]
  | @call op rest r w mid last trace a here _ ih =>
    obtain ⟨allowed, fires⟩ := sound op r w mid here
    have first : Step P L ⟨phase, w⟩ ⟨Function.update phase u (.busy job mem (rest r)), mid⟩ :=
      .call busy allowed fires
    have held : Function.update phase u (.busy job mem (rest r)) u = .busy job mem (rest r) :=
      Function.update_self ..
    have more := ih held
    rw [Function.update_idem] at more
    exact .head first more

theorem job_exec_reaches {run : (op : Op) → Ans op → World → Option World} {u : Agent} {job : Job}
    {mem out : Mem} {w last : World} {trace : List (Event Ans)}
    {f : Agent → Phase Op Ans Mem Job} (idle : f u = .idle mem) (ready : P.ready u job mem)
    (allowed : L.start u job mem w)
    (sound : ∀ op r a b, run op r a = some b → L.call u job mem op r a ∧ P.exec u op r a = some b)
    (ran : Exec run (P.body job mem) w trace out last) :
    Reaches P L ⟨f, w⟩ ⟨Function.update f u (.busy job mem (.done out)), last⟩ := by
  have begun : Step P L ⟨f, w⟩
      ⟨Function.update f u (.busy job mem (P.body job mem)), w⟩ := .start idle ready allowed
  have held : Function.update f u (.busy job mem (P.body job mem)) u =
      .busy job mem (P.body job mem) := Function.update_self ..
  have more := exec_reaches sound ran held
  rw [Function.update_idem] at more
  exact .head begun more

theorem job_exec_ends {run : (op : Op) → Ans op → World → Option World} {u : Agent} {job : Job}
    {mem out : Mem} {w last : World} {trace : List (Event Ans)}
    {f : Agent → Phase Op Ans Mem Job} (idle : f u = .idle mem) (ready : P.ready u job mem)
    (allowed : L.start u job mem w)
    (sound : ∀ op r a b, run op r a = some b → L.call u job mem op r a ∧ P.exec u op r a = some b)
    (ran : Exec run (P.body job mem) w trace out last) :
    Reaches P L ⟨f, w⟩ ⟨Function.update f u (.idle out), last⟩ := by
  have returned := job_exec_reaches idle ready allowed sound ran
  have ended := Relation.ReflTransGen.tail returned (.finish (Function.update_self ..))
  rwa [Function.update_idem] at ended

end AgentPool
