import FastSafeIO.CallTree

/-! The state that a list of answered calls leads to, and what of it the calls decide. -/
namespace TraceReplay
open CallTree

variable {Op State Part : Type} {Ans : Op → Type} {α : Type}
  {exec : (op : Op) → Ans op → State → Option State}

def replay (exec : (op : Op) → Ans op → State → Option State) : List (Event Ans) → State → Option State
  | [], w => some w
  | e :: rest, w => (exec e.1 e.2 w).bind (replay exec rest)

theorem exec_replay {t : Tree Op Ans α} {w last : State} {trace : List (Event Ans)} {a : α}
    (run : Exec exec t w trace a last) : replay exec trace w = some last := by
  induction run with
  | done a w => rfl
  | call here _ ih =>
    simp only [replay, here, Option.bind_some]
    exact ih

theorem replay_append (before after : List (Event Ans)) (w : State) :
    replay exec (before ++ after) w = (replay exec before w).bind (replay exec after) := by
  induction before generalizing w with
  | nil => rfl
  | cons e before ih =>
    simp only [List.cons_append, replay]
    cases exec e.1 e.2 w with
    | none => rfl
    | some mid => exact ih mid

/-- A part of the state that each call changes in a way of its own. -/
theorem replay_part {part : State → Part} {effect : Event Ans → Part → Part}
    (each : ∀ e a b, exec e.1 e.2 a = some b → part b = effect e (part a))
    {trace : List (Event Ans)} {w last : State} (run : replay exec trace w = some last) :
    part last = trace.foldl (fun p e => effect e p) (part w) := by
  induction trace generalizing w with
  | nil =>
    cases run
    rfl
  | cons e trace ih =>
    obtain ⟨mid, here, later⟩ := Option.bind_eq_some_iff.mp run
    rw [ih later, each e w mid here, List.foldl_cons]

theorem foldl_seen {effect : Event Ans → Part → Part} {seen : Event Ans → Bool}
    (unseen : ∀ e p, seen e = false → effect e p = p) (trace : List (Event Ans)) (p : Part) :
    trace.foldl (fun p e => effect e p) p = (trace.filter seen).foldl (fun p e => effect e p) p := by
  induction trace generalizing p with
  | nil => rfl
  | cons e trace ih =>
    rw [List.foldl_cons, ih]
    cases here : seen e with
    | false => rw [List.filter_cons_of_neg (by simp [here]), unseen e p here]
    | true => rw [List.filter_cons_of_pos here, List.foldl_cons]

end TraceReplay
