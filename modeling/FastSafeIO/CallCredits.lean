import FastSafeIO.AgentPool

/- What programs spend on their calls. A call costs something, or brings something in, once
   its answer is known; a program starts with a credit and must never overdraw it. -/
namespace CallCredits
open CallTree AgentPool

variable {Agent Op Low World Mem Job α β : Type} {Ans : Op → Type} {LowAns : Low → Type}

/- Whatever the answers are, the credit lasts; post also sees what is left of it. -/
def Pays (cost : (op : Op) → Ans op → Int) (post : α → Int → Prop) : Tree Op Ans α → Int → Prop
  | .done a, credit => 0 ≤ credit ∧ post a credit
  | .call op rest, credit => 0 ≤ credit ∧ ∀ r, Pays cost post (rest r) (credit - cost op r)

/- The same when nobody asks what is left. -/
abbrev Affords (cost : (op : Op) → Ans op → Int) (post : α → Prop) (t : Tree Op Ans α) (credit : Int) :
    Prop :=
  Pays cost (fun a _ => post a) t credit

section
variable {cost : (op : Op) → Ans op → Int} {t : Tree Op Ans α} {credit larger : Int}

theorem Pays.solvent {post : α → Int → Prop} (pays : Pays cost post t credit) : 0 ≤ credit := by
  cases t with
  | done a => exact pays.1
  | call op rest => exact pays.1

theorem Pays.bind {first : α → Int → Prop} {post : β → Int → Prop} {next : α → Tree Op Ans β}
    (pays : Pays cost first t credit)
    (rest : ∀ a left, 0 ≤ left → first a left → Pays cost post (next a) left) :
    Pays cost post (t.bind next) credit := by
  induction t generalizing credit with
  | done a => exact rest a credit pays.1 pays.2
  | call op later ih => exact ⟨pays.1, fun r => ih r (pays.2 r)⟩

theorem affords_keeps {post : α → Prop} (affords : Affords cost post t credit) (enough : credit ≤ larger) :
    Pays cost (fun a left => larger - credit ≤ left ∧ post a) t larger := by
  have frame : ∀ extra, 0 ≤ extra →
      Pays cost (fun a left => extra ≤ left ∧ post a) t (credit + extra) := by
    intro extra some_extra
    clear enough
    induction t generalizing credit with
    | done a =>
      have solvent := affords.1
      exact ⟨by omega, by omega, affords.2⟩
    | call op rest ih =>
      have solvent := affords.1
      refine ⟨by omega, fun r => ?_⟩
      rw [show credit + extra - cost op r = credit - cost op r + extra by omega]
      exact ih r (affords.2 r)
  have rest := frame (larger - credit) (by omega)
  rwa [show credit + (larger - credit) = larger by omega] at rest

theorem affords_more {post : α → Prop} (affords : Affords cost post t credit) (enough : credit ≤ larger) :
    Affords cost post t larger := by
  rw [← Tree.bind_done t]
  exact Pays.bind (affords_keeps affords enough) fun a left solvent fine => ⟨solvent, fine.2⟩

theorem affords_bind {first : α → Prop} {post : β → Prop} {next : α → Tree Op Ans β}
    (affords : Affords cost first t credit) (rest : ∀ a, first a → Affords cost post (next a) larger)
    (solvent : 0 ≤ larger) : Affords cost post (t.bind next) (credit + larger) := by
  refine Pays.bind (affords_keeps affords (show credit ≤ credit + larger by omega)) fun a left _ fine => ?_
  exact affords_more (rest a fine.2) (by omega)

/-- A program can afford its calls to be carried out when each of them is carried out at
    its price. -/
theorem affords_interp {price : (op : Low) → LowAns op → Int} {post : α → Prop}
    {s : Tree Low LowAns α} {impl : (op : Low) → Tree Op Ans (LowAns op)}
    (affords : Affords price post s credit)
    (each : ∀ op credit, 0 ≤ credit → (∀ r, price op r ≤ credit) →
      Pays cost (fun r left => credit - price op r ≤ left) (impl op) credit) :
    Affords cost post (s.interp impl) credit := by
  induction s generalizing credit with
  | done a => exact affords
  | call op rest ih =>
    have within : ∀ r, price op r ≤ credit := fun r => by
      have solvent := (affords.2 r).solvent
      omega
    refine Pays.bind (each op credit affords.1 within) fun r left _ enough => ?_
    exact affords_more (ih r (affords.2 r)) enough

end

/- A run, with the jobs that each agent has begun and the calls it has made, the last one
   first. -/
inductive Logged [DecidableEq Agent] (P : Pool Agent Op Ans World Mem Job)
    (L : Limits Agent Op Ans World Mem Job) (c : Config Agent Op Ans World Mem Job) :
    Config Agent Op Ans World Mem Job → (Agent → List Job) → (Agent → List (Event Ans)) → Prop where
  | refl : Logged P L c c (fun _ => []) (fun _ => [])
  | start {d : Config Agent Op Ans World Mem Job} {jobs : Agent → List Job}
      {log : Agent → List (Event Ans)} {u : Agent} {job : Job} {mem : Mem} (run : Logged P L c d jobs log)
      (idle : d.phase u = .idle mem) (ready : P.ready u job mem) (allowed : L.start u job mem d.world) :
      Logged P L c ⟨Function.update d.phase u (.busy job mem (P.body job mem)), d.world⟩
        (Function.update jobs u (job :: jobs u)) log
  | call {d : Config Agent Op Ans World Mem Job} {jobs : Agent → List Job}
      {log : Agent → List (Event Ans)} {u : Agent} {job : Job} {mem : Mem} {op : Op}
      {rest : Ans op → Tree Op Ans Mem} {r : Ans op} {after : World} (run : Logged P L c d jobs log)
      (busy : d.phase u = .busy job mem (.call op rest))
      (allowed : L.call u job mem op r d.world) (here : P.exec u op r d.world = some after) :
      Logged P L c ⟨Function.update d.phase u (.busy job mem (rest r)), after⟩ jobs
        (Function.update log u (⟨op, r⟩ :: log u))
  | finish {d : Config Agent Op Ans World Mem Job} {jobs : Agent → List Job}
      {log : Agent → List (Event Ans)} {u : Agent} {job : Job} {mem out : Mem}
      (run : Logged P L c d jobs log) (busy : d.phase u = .busy job mem (.done out)) :
      Logged P L c ⟨Function.update d.phase u (.idle out), d.world⟩ jobs log
  | drift {d : Config Agent Op Ans World Mem Job} {jobs : Agent → List Job}
      {log : Agent → List (Event Ans)} {after : World} (run : Logged P L c d jobs log)
      (moved : P.drift d.world after) : Logged P L c ⟨d.phase, after⟩ jobs log

section
variable [DecidableEq Agent] {P : Pool Agent Op Ans World Mem Job}
  {L : Limits Agent Op Ans World Mem Job} {c d : Config Agent Op Ans World Mem Job}

theorem run_logged (run : Reaches P L c d) : ∃ jobs log, Logged P L c d jobs log := by
  induction run with
  | refl => exact ⟨_, _, .refl⟩
  | tail _ step ih =>
    obtain ⟨jobs, log, run⟩ := ih
    cases step with
    | start idle ready allowed => exact ⟨_, _, .start run idle ready allowed⟩
    | call busy allowed here => exact ⟨_, _, .call run busy allowed here⟩
    | finish busy => exact ⟨_, _, .finish run busy⟩
    | drift moved => exact ⟨_, _, .drift run moved⟩

def spent (cost : (op : Op) → Ans op → Int) (log : List (Event Ans)) : Int :=
  (log.map fun e => cost e.1 e.2).sum

/- An idle agent has spent no more than its jobs were given; a busy one can still pay for
   the rest. -/
def Budgeted (cost : (op : Op) → Ans op → Int) (memOk : Mem → Prop) (given : Int) (log : List (Event Ans)) :
    Phase Op Ans Mem Job → Prop
  | .idle mem => memOk mem ∧ spent cost log ≤ given
  | .busy _ _ rest => ∃ credit, Affords cost memOk rest credit ∧ spent cost log + credit ≤ given

theorem runs_stay_within {cost : (op : Op) → Ans op → Int} {memOk : Mem → Prop} {price : Job → Int}
    (bodies : ∀ u job mem, P.ready u job mem → memOk mem → Affords cost memOk (P.body job mem) (price job))
    {jobs : Agent → List Job} {log : Agent → List (Event Ans)}
    (fine : ∀ u, ∃ mem, c.phase u = .idle mem ∧ memOk mem) (run : Logged P L c d jobs log) (u : Agent) :
    spent cost (log u) ≤ ((jobs u).map price).sum := by
  have budgeted : ∀ u, Budgeted cost memOk ((jobs u).map price).sum (log u) (d.phase u) := by
    induction run with
    | refl =>
      intro v
      obtain ⟨mem, idle, good⟩ := fine v
      rw [idle]
      exact ⟨good, by simp [spent]⟩
    | @start d jobs log u job mem _ idle ready _ ih =>
      intro v
      by_cases same : v = u
      · subst same
        have now := ih v
        rw [idle] at now
        simp only [Function.update_self, List.map_cons, List.sum_cons]
        exact ⟨price job, bodies v job mem ready now.1, by have := now.2; omega⟩
      · simp only [Function.update_of_ne same]
        exact ih v
    | @call d jobs log u job mem op rest r after _ busy _ _ ih =>
      intro v
      by_cases same : v = u
      · subst same
        have now := ih v
        rw [busy] at now
        obtain ⟨credit, affords, within⟩ := now
        simp only [Function.update_self]
        refine ⟨credit - cost op r, affords.2 r, ?_⟩
        simp only [spent, List.map_cons, List.sum_cons] at within ⊢
        omega
      · simp only [Function.update_of_ne same]
        exact ih v
    | @finish d jobs log u job mem out _ busy ih =>
      intro v
      by_cases same : v = u
      · subst same
        have now := ih v
        rw [busy] at now
        obtain ⟨credit, ⟨solvent, good⟩, within⟩ := now
        simp only [Function.update_self]
        exact ⟨good, by omega⟩
      · simp only [Function.update_of_ne same]
        exact ih v
    | drift _ _ ih => exact ih
  have now := budgeted u
  cases phase : d.phase u with
  | idle mem =>
    rw [phase] at now
    exact now.2
  | busy job mem rest =>
    rw [phase] at now
    obtain ⟨credit, affords, within⟩ := now
    have solvent := Pays.solvent affords
    omega

end

def total (measure : Event Ans → Nat) (log : List (Event Ans)) : Nat := (log.map measure).sum

end CallCredits
