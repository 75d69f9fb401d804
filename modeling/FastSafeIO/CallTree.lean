import Mathlib.Data.List.Pairwise
import Mathlib.Logic.Relation
import Mathlib.Tactic.Ring

/- Programs as trees of calls. A node asks the outside world to perform one call
   and continues with the answer; a leaf is the returned value. The same tree can
   be replaced call by call, run against a state, or compared with another tree. -/
namespace CallTree

inductive Tree (Op : Type) (Ans : Op → Type) (α : Type) where
  | done : α → Tree Op Ans α
  | call : (op : Op) → (Ans op → Tree Op Ans α) → Tree Op Ans α

/- One call together with the answer it got. -/
abbrev Event {Op : Type} (Ans : Op → Type) : Type := (op : Op) × Ans op

variable {Op Low World : Type} {Ans : Op → Type} {LowAns : Low → Type} {α β γ : Type}

namespace Tree

def bind (t : Tree Op Ans α) (next : α → Tree Op Ans β) : Tree Op Ans β :=
  match t with
  | .done a => next a
  | .call op rest => .call op fun r => (rest r).bind next

instance : Monad (Tree Op Ans) where
  pure := .done
  bind := .bind

def ask (op : Op) : Tree Op Ans (Ans op) := .call op .done

/- Replace every call by the program that implements it. -/
def interp (impl : (op : Op) → Tree Low LowAns (Ans op)) : Tree Op Ans α → Tree Low LowAns α
  | .done a => .done a
  | .call op rest => (impl op).bind fun r => (rest r).interp impl

@[simp] theorem pure_eq (a : α) : (pure a : Tree Op Ans α) = .done a := rfl

@[simp] theorem bind_eq (t : Tree Op Ans α) (next : α → Tree Op Ans β) :
    t >>= next = t.bind next := rfl

@[simp] theorem map_eq (f : α → β) (t : Tree Op Ans α) :
    f <$> t = t.bind fun a => .done (f a) := rfl

@[simp] theorem done_bind (a : α) (next : α → Tree Op Ans β) :
    (Tree.done a).bind next = next a := rfl

@[simp] theorem call_bind (op : Op) (rest : Ans op → Tree Op Ans α) (next : α → Tree Op Ans β) :
    (Tree.call op rest).bind next = .call op fun r => (rest r).bind next := rfl

@[simp] theorem ask_bind (op : Op) (next : Ans op → Tree Op Ans β) :
    (ask op).bind next = .call op next := rfl

@[simp] theorem bind_assoc (t : Tree Op Ans α) (first : α → Tree Op Ans β)
    (second : β → Tree Op Ans γ) :
    (t.bind first).bind second = t.bind fun a => (first a).bind second := by
  induction t with
  | done a => rfl
  | call op rest ih =>
    simp only [call_bind]
    congr 1
    funext r
    exact ih r

theorem bind_done (t : Tree Op Ans α) : t.bind .done = t := by
  induction t with
  | done a => rfl
  | call op rest ih =>
    simp only [call_bind]
    congr 1
    funext r
    exact ih r

@[simp] theorem interp_done (impl : (op : Op) → Tree Low LowAns (Ans op)) (a : α) :
    (Tree.done a : Tree Op Ans α).interp impl = .done a := rfl

@[simp] theorem interp_call (impl : (op : Op) → Tree Low LowAns (Ans op)) (op : Op)
    (rest : Ans op → Tree Op Ans α) :
    (Tree.call op rest).interp impl = (impl op).bind fun r => (rest r).interp impl := rfl

@[simp] theorem interp_bind (impl : (op : Op) → Tree Low LowAns (Ans op)) (t : Tree Op Ans α)
    (next : α → Tree Op Ans β) :
    (t.bind next).interp impl = (t.interp impl).bind fun a => (next a).interp impl := by
  induction t with
  | done a => rfl
  | call op rest ih =>
    simp only [call_bind, interp_call, bind_assoc]
    congr 1
    funext r
    exact ih r

/- Whatever the answers are, the returned value satisfies P. -/
def Returns (P : α → Prop) : Tree Op Ans α → Prop
  | .done a => P a
  | .call _ rest => ∀ r, (rest r).Returns P

/- Whatever the answers are, only calls that satisfy Q are made. -/
def Calls (Q : Op → Prop) : Tree Op Ans α → Prop
  | .done _ => True
  | .call op rest => Q op ∧ ∀ r, (rest r).Calls Q

@[simp] theorem returns_done {P : α → Prop} {a : α} :
    (Tree.done a : Tree Op Ans α).Returns P ↔ P a := Iff.rfl

@[simp] theorem returns_call {P : α → Prop} {op : Op} {rest : Ans op → Tree Op Ans α} :
    (Tree.call op rest).Returns P ↔ ∀ r, (rest r).Returns P := Iff.rfl

@[simp] theorem calls_done {Q : Op → Prop} {a : α} : (Tree.done a : Tree Op Ans α).Calls Q :=
  trivial

@[simp] theorem calls_call {Q : Op → Prop} {op : Op} {rest : Ans op → Tree Op Ans α} :
    (Tree.call op rest).Calls Q ↔ Q op ∧ ∀ r, (rest r).Calls Q := Iff.rfl

theorem Returns.mono {P Q : α → Prop} {t : Tree Op Ans α} (returns : t.Returns P)
    (weaker : ∀ a, P a → Q a) : t.Returns Q := by
  induction t with
  | done a => exact weaker a returns
  | call op rest ih => exact fun r => ih r (returns r)

theorem Returns.bind {P : α → Prop} {Q : β → Prop} {t : Tree Op Ans α}
    {next : α → Tree Op Ans β} (first : t.Returns P) (rest : ∀ a, P a → (next a).Returns Q) :
    (t.bind next).Returns Q := by
  induction t with
  | done a => exact rest a first
  | call op more ih => exact fun r => ih r (first r)

theorem returns_anything (t : Tree Op Ans α) : t.Returns fun _ => True := by
  induction t with
  | done a => trivial
  | call op rest ih => exact ih

theorem Returns.interp {P : α → Prop} {t : Tree Op Ans α}
    {impl : (op : Op) → Tree Low LowAns (Ans op)} (returns : t.Returns P) :
    (t.interp impl).Returns P := by
  induction t with
  | done a => exact returns
  | call op rest ih => exact (returns_anything (impl op)).bind fun r _ => ih r (returns r)

theorem Calls.mono {Q R : Op → Prop} {t : Tree Op Ans α} (calls : t.Calls Q)
    (weaker : ∀ op, Q op → R op) : t.Calls R := by
  induction t with
  | done a => trivial
  | call op rest ih => exact ⟨weaker op calls.1, fun r => ih r (calls.2 r)⟩

theorem Calls.bind {Q : Op → Prop} {t : Tree Op Ans α} {next : α → Tree Op Ans β}
    (first : t.Calls Q) (rest : ∀ a, (next a).Calls Q) : (t.bind next).Calls Q := by
  induction t with
  | done a => exact rest a
  | call op more ih => exact ⟨first.1, fun r => ih r (first.2 r)⟩

/- As above, when what follows is only fine for the values that can be returned. -/
theorem Calls.bind_returning {P : α → Prop} {Q : Op → Prop} {t : Tree Op Ans α}
    {next : α → Tree Op Ans β} (first : t.Calls Q) (returns : t.Returns P)
    (rest : ∀ a, P a → (next a).Calls Q) : (t.bind next).Calls Q := by
  induction t with
  | done a => exact rest a returns
  | call op more ih => exact ⟨first.1, fun r => ih r (first.2 r) (returns r)⟩

theorem Calls.interp {Q : Op → Prop} {R : Low → Prop} {t : Tree Op Ans α}
    {impl : (op : Op) → Tree Low LowAns (Ans op)} (calls : t.Calls Q)
    (each : ∀ op, Q op → (impl op).Calls R) : (t.interp impl).Calls R := by
  induction t with
  | done a => trivial
  | call op rest ih => exact (each op calls.1).bind fun r => ih r (calls.2 r)

theorem calls_anything (t : Tree Op Ans α) : t.Calls fun _ => True := by
  induction t with
  | done a => trivial
  | call op rest ih => exact ⟨trivial, ih⟩

/-- Two programs that make the same calls whatever the answers are, and return related values. -/
inductive Alike (related : α → β → Prop) : Tree Op Ans α → Tree Op Ans β → Prop where
  | done {a : α} {b : β} (here : related a b) : Alike related (.done a) (.done b)
  | call {op : Op} {rest : Ans op → Tree Op Ans α} {other : Ans op → Tree Op Ans β}
      (each : ∀ r, Alike related (rest r) (other r)) : Alike related (.call op rest) (.call op other)

theorem Alike.bind {related : α → β → Prop} {δ : Type} {after : γ → δ → Prop} {t : Tree Op Ans α}
    {u : Tree Op Ans β} {next : α → Tree Op Ans γ} {other : β → Tree Op Ans δ}
    (first : t.Alike related u) (rest : ∀ a b, related a b → (next a).Alike after (other b)) :
    (t.bind next).Alike after (u.bind other) := by
  induction first with
  | done here => exact rest _ _ here
  | call _ ih => exact .call ih

theorem Alike.refl {related : α → α → Prop} (same : ∀ a, related a a) (t : Tree Op Ans α) :
    t.Alike related t := by
  induction t with
  | done a => exact .done (same a)
  | call op rest ih => exact .call ih

theorem Alike.symm {related : α → β → Prop} {t : Tree Op Ans α} {u : Tree Op Ans β}
    (alike : t.Alike related u) : u.Alike (fun b a => related a b) t := by
  induction alike with
  | done here => exact .done here
  | call _ ih => exact .call ih

theorem Alike.eq {t u : Tree Op Ans α} (alike : t.Alike Eq u) : t = u := by
  induction alike with
  | done here => rw [here]
  | call _ ih => rw [funext ih]

theorem Alike.interp {related : α → β → Prop} (impl : (op : Op) → Tree Low LowAns (Ans op))
    {t : Tree Op Ans α} {u : Tree Op Ans β} (alike : t.Alike related u) :
    (t.interp impl).Alike related (u.interp impl) := by
  induction alike with
  | done here => exact .done here
  | @call op rest other _ ih =>
    apply (Alike.refl (fun _ => rfl) (impl op)).bind
    rintro r _ rfl
    exact ih r

/- The calls made when every call gets a fixed answer, and the value returned. -/
def path (answer : (op : Op) → Ans op) : Tree Op Ans α → List Op × α
  | .done a => ([], a)
  | .call op rest => (op :: ((rest (answer op)).path answer).1, ((rest (answer op)).path answer).2)

theorem path_bind (answer : (op : Op) → Ans op) (t : Tree Op Ans α) (next : α → Tree Op Ans β) :
    ((t.bind next).path answer).1 =
      (t.path answer).1 ++ ((next (t.path answer).2).path answer).1 := by
  induction t with
  | done a => rfl
  | call op rest ih => exact congrArg (op :: ·) (ih (answer op))

theorem Calls.path {Q : Op → Prop} {t : Tree Op Ans α} (calls : t.Calls Q)
    (answer : (op : Op) → Ans op) : ∀ op ∈ (t.path answer).1, Q op := by
  induction t with
  | done a => exact fun op member => absurd member List.not_mem_nil
  | call first rest ih =>
    intro op member
    rcases List.mem_cons.mp member with rfl | later
    · exact calls.1
    · exact ih (answer first) (calls.2 _) op later

theorem Alike.path {related : α → β → Prop} {t : Tree Op Ans α} {u : Tree Op Ans β}
    (alike : t.Alike related u) (answer : (op : Op) → Ans op) :
    (t.path answer).1 = (u.path answer).1 := by
  induction alike with
  | done here => rfl
  | call _ ih => exact congrArg (_ :: ·) (ih _)

end Tree

/- A complete execution: exec says which answers a call may get in a state and
   what the state is afterwards. The list holds the calls made, in order. -/
inductive Exec (exec : (op : Op) → Ans op → World → Option World) :
    Tree Op Ans α → World → List (Event Ans) → α → World → Prop where
  | done (a : α) (w : World) : Exec exec (.done a) w [] a w
  | call {op : Op} {rest : Ans op → Tree Op Ans α} {r : Ans op} {w mid last : World}
      {trace : List (Event Ans)} {a : α} (here : exec op r w = some mid)
      (later : Exec exec (rest r) mid trace a last) :
      Exec exec (.call op rest) w (⟨op, r⟩ :: trace) a last

variable {exec : (op : Op) → Ans op → World → Option World}

@[simp] theorem exec_done_iff {a b : α} {w last : World} {trace : List (Event Ans)} :
    Exec exec (.done a) w trace b last ↔ trace = [] ∧ b = a ∧ last = w := by
  constructor
  · intro run
    cases run
    exact ⟨rfl, rfl, rfl⟩
  · rintro ⟨rfl, rfl, rfl⟩
    exact .done _ _

@[simp] theorem exec_call_iff {op : Op} {rest : Ans op → Tree Op Ans α} {w last : World}
    {trace : List (Event Ans)} {a : α} :
    Exec exec (.call op rest) w trace a last ↔
      ∃ r mid tail, exec op r w = some mid ∧ Exec exec (rest r) mid tail a last ∧
        trace = ⟨op, r⟩ :: tail := by
  constructor
  · intro run
    cases run with
    | call here later => exact ⟨_, _, _, here, later, rfl⟩
  · rintro ⟨r, mid, tail, here, later, rfl⟩
    exact .call here later

theorem exec_bind_iff {t : Tree Op Ans α} {next : α → Tree Op Ans β} {w last : World}
    {trace : List (Event Ans)} {b : β} :
    Exec exec (t.bind next) w trace b last ↔
      ∃ first a mid second, Exec exec t w first a mid ∧ Exec exec (next a) mid second b last ∧
        trace = first ++ second := by
  induction t generalizing w trace with
  | done a =>
    simp only [Tree.done_bind, exec_done_iff]
    constructor
    · intro run
      exact ⟨[], a, w, trace, ⟨rfl, rfl, rfl⟩, run, rfl⟩
    · rintro ⟨_, _, _, second, ⟨rfl, rfl, rfl⟩, run, rfl⟩
      exact run
  | call op rest ih =>
    simp only [Tree.call_bind, exec_call_iff, ih]
    constructor
    · rintro ⟨r, mid, tail, here, ⟨first, a, later, second, run, cont, rfl⟩, rfl⟩
      exact ⟨⟨op, r⟩ :: first, a, later, second, ⟨r, mid, first, here, run, rfl⟩, cont, rfl⟩
    · rintro ⟨_, a, later, second, ⟨r, mid, first, here, run, rfl⟩, cont, rfl⟩
      exact ⟨r, mid, first ++ second, here, ⟨first, a, later, second, run, cont, rfl⟩, rfl⟩

theorem exec_returns {P : α → Prop} {t : Tree Op Ans α} {w last : World} {trace : List (Event Ans)}
    {a : α} (run : Exec exec t w trace a last) (returns : t.Returns P) : P a := by
  induction run with
  | done a w => exact returns
  | call _ _ ih => exact ih (returns _)

theorem exec_calls {Q : Op → Prop} {t : Tree Op Ans α} {w last : World} {trace : List (Event Ans)}
    {a : α} (run : Exec exec t w trace a last) (calls : t.Calls Q) : ∀ e ∈ trace, Q e.1 := by
  induction run with
  | done a w => simp
  | call _ _ ih =>
    intro e member
    rcases List.mem_cons.mp member with rfl | later
    · exact calls.1
    · exact ih (calls.2 _) e later

/-- Every complete execution from w meets post, which also sees the calls made. -/
structure Ensures (exec : (op : Op) → Ans op → World → Option World) (t : Tree Op Ans α) (w : World)
    (post : List (Event Ans) → α → World → Prop) : Prop where
  holds : ∀ {trace a last}, Exec exec t w trace a last → post trace a last

/-- The same calls, with some of their answers ruled out. -/
def limited (allowed : (op : Op) → Ans op → Bool)
    (exec : (op : Op) → Ans op → World → Option World) (op : Op) (r : Ans op) (w : World) :
    Option World :=
  if allowed op r then exec op r w else none

section
variable {t : Tree Op Ans α} {w last : World} {post also : List (Event Ans) → α → World → Prop}
  {allowed : (op : Op) → Ans op → Bool}

theorem Ensures.done {a : α} (now : post [] a w) : Ensures exec (.done a) w post := by
  constructor
  intro trace b last run
  obtain ⟨rfl, rfl, rfl⟩ := exec_done_iff.mp run
  exact now

theorem Ensures.call {op : Op} {rest : Ans op → Tree Op Ans α}
    (each : ∀ r mid, exec op r w = some mid →
      Ensures exec (rest r) mid fun trace => post (⟨op, r⟩ :: trace)) :
    Ensures exec (.call op rest) w post := by
  constructor
  intro trace a last run
  obtain ⟨r, mid, tail, here, later, rfl⟩ := exec_call_iff.mp run
  exact (each r mid here).holds later

theorem Ensures.bind {next : α → Tree Op Ans β} {after : List (Event Ans) → β → World → Prop}
    (first : Ensures exec t w post) (rest : ∀ trace a mid, post trace a mid →
      Ensures exec (next a) mid fun more => after (trace ++ more)) :
    Ensures exec (t.bind next) w after := by
  constructor
  intro trace b last run
  obtain ⟨before, a, mid, more, ran, cont, rfl⟩ := exec_bind_iff.mp run
  exact (rest before a mid (first.holds ran)).holds cont

theorem Ensures.mono (ensures : Ensures exec t w post)
    (implies : ∀ trace a last, post trace a last → also trace a last) :
    Ensures exec t w also :=
  ⟨fun run => implies _ _ _ (ensures.holds run)⟩

theorem Ensures.and (first : Ensures exec t w post) (second : Ensures exec t w also) :
    Ensures exec t w fun trace a last => post trace a last ∧ also trace a last :=
  ⟨fun run => ⟨first.holds run, second.holds run⟩⟩

theorem limited_some {op : Op} {r : Ans op} :
    limited allowed exec op r w = some last ↔ allowed op r = true ∧ exec op r w = some last := by
  unfold limited
  by_cases here : allowed op r = true
  · simp [here]
  · simp [here]

theorem exec_of_limited {trace : List (Event Ans)} {a : α}
    (run : Exec (limited allowed exec) t w trace a last) : Exec exec t w trace a last := by
  induction run with
  | done a w => exact .done a w
  | call here _ ih => exact .call (limited_some.mp here).2 ih

theorem Ensures.limited (ensures : Ensures exec t w post) :
    Ensures (limited allowed exec) t w post :=
  ⟨fun run => ensures.holds (exec_of_limited run)⟩

end

/-- Whatever an element needs is met by a later one. -/
def Followed {E X : Type} (needs meets : E → X → Prop) : List E → Prop
  | [] => True
  | e :: rest => (∀ x, needs e x → ∃ s ∈ rest, meets s x) ∧ Followed needs meets rest

section
variable {E X : Type} {needs meets : E → X → Prop}

theorem Followed.append {a b : List E} (first : Followed needs meets a)
    (second : Followed needs meets b) : Followed needs meets (a ++ b) := by
  induction a with
  | nil => exact second
  | cons e rest ih =>
    refine ⟨fun x need => ?_, ih first.2⟩
    obtain ⟨s, member, met⟩ := first.1 x need
    exact ⟨s, List.mem_append_left b member, met⟩

theorem followed_needless {a : List E} (none : ∀ e ∈ a, ∀ x, ¬ needs e x) :
    Followed needs meets a := by
  induction a with
  | nil => trivial
  | cons e rest ih =>
    exact ⟨fun x need => absurd need (none e List.mem_cons_self x),
      ih fun f member => none f (List.mem_cons_of_mem e member)⟩

/-- Behind a part that meets nothing, nothing may be needed. -/
theorem followed_append_quiet {a b : List E} (quiet : ∀ s ∈ b, ∀ x, ¬ meets s x) :
    Followed needs meets (a ++ b) ↔ Followed needs meets a ∧ ∀ e ∈ b, ∀ x, ¬ needs e x := by
  induction a with
  | nil =>
    constructor
    · intro followed
      refine ⟨trivial, ?_⟩
      induction b with
      | nil => exact fun e member => absurd member List.not_mem_nil
      | cons f rest ih =>
        intro e member x need
        rcases List.mem_cons.mp member with rfl | later
        · obtain ⟨s, here, met⟩ := followed.1 x need
          exact quiet s (List.mem_cons_of_mem e here) x met
        · exact ih (fun s here => quiet s (List.mem_cons_of_mem f here)) followed.2 e later x need
    · exact fun both => followed_needless both.2
  | cons f rest ih =>
    constructor
    · intro followed
      obtain ⟨more, none⟩ := ih.mp followed.2
      refine ⟨⟨fun x need => ?_, more⟩, none⟩
      obtain ⟨s, member, met⟩ := followed.1 x need
      rcases List.mem_append.mp member with here | there
      · exact ⟨s, here, met⟩
      · exact absurd met (quiet s there x)
    · rintro ⟨followed, none⟩
      exact followed.append (followed_needless none)

end

/- One execution picked by an oracle that answers every call from the state. -/
def runBy (exec : (op : Op) → Ans op → World → Option World)
    (oracle : (op : Op) → World → Ans op) :
    Tree Op Ans α → World → Option (List (Event Ans) × α × World)
  | .done a, w => some ([], a, w)
  | .call op rest, w =>
    match exec op (oracle op w) w with
    | none => none
    | some mid =>
      (runBy exec oracle (rest (oracle op w)) mid).map fun out =>
        (⟨op, oracle op w⟩ :: out.1, out.2)

theorem runBy_exec {oracle : (op : Op) → World → Ans op} {t : Tree Op Ans α} {w last : World}
    {trace : List (Event Ans)} {a : α} (run : runBy exec oracle t w = some (trace, a, last)) :
    Exec exec t w trace a last := by
  induction t generalizing w trace with
  | done b =>
    simp only [runBy, Option.some.injEq, Prod.mk.injEq] at run
    obtain ⟨rfl, rfl, rfl⟩ := run
    exact .done _ _
  | call op rest ih =>
    simp only [runBy] at run
    split at run
    · simp at run
    · rename_i mid here
      obtain ⟨⟨tail, b, final⟩, later, same⟩ := Option.map_eq_some_iff.mp run
      cases same
      exact .call here (ih _ later)

end CallTree
