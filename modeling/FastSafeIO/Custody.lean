import Mathlib.Data.List.Nodup
import Mathlib.Data.List.Perm.Basic
import Mathlib.Logic.Function.Basic

/- Things that are each kept in exactly one place: in one of many places that hold at most
   one thing, or loose in a line. -/
namespace Custody

variable {Place Thing : Type}

structure Kept (place : Place → Option Thing) (loose : List Thing) (held : Thing → Prop) : Prop where
  once : ∀ l k p, place l = some p → place k = some p → l = k
  nodup : loose.Nodup
  apart : ∀ l p, place l = some p → p ∉ loose
  exact : ∀ p, held p ↔ (∃ l, place l = some p) ∨ p ∈ loose

variable {place : Place → Option Thing} {loose : List Thing} {held : Thing → Prop}

theorem Kept.placed (kept : Kept place loose held) {l : Place} {p : Thing} (here : place l = some p) :
    held p := (kept.exact p).mpr (Or.inl ⟨l, here⟩)

theorem Kept.is_loose (kept : Kept place loose held) {p : Thing} (member : p ∈ loose) : held p :=
  (kept.exact p).mpr (Or.inr member)

theorem Kept.congr {held' : Thing → Prop} (kept : Kept place loose held)
    (same : ∀ p, held' p ↔ held p) : Kept place loose held' :=
  ⟨kept.once, kept.nodup, kept.apart, fun p => (same p).trans (kept.exact p)⟩

theorem Kept.perm {other : List Thing} (kept : Kept place loose held) (same : loose.Perm other) :
    Kept place other held := by
  refine ⟨kept.once, same.nodup_iff.mp kept.nodup, fun l p here => ?_, fun p => ?_⟩
  · rw [← same.mem_iff]
    exact kept.apart l p here
  · rw [← same.mem_iff]
    exact kept.exact p

theorem kept_nothing (none : ∀ l, place l = none) (empty : ∀ p, ¬ held p) : Kept place [] held := by
  refine ⟨fun l k p here => ?_, List.nodup_nil, fun l p here => ?_, fun p => ?_⟩
  · rw [none l] at here
    cases here
  · rw [none l] at here
    cases here
  · simp [none, empty p]

section
variable [DecidableEq Place]

theorem update_some {l k : Place} {p : Option Thing} {q : Thing}
    (here : Function.update place l p k = some q) :
    (k = l ∧ p = some q) ∨ (k ≠ l ∧ place k = some q) := by
  by_cases same : k = l
  · subst same
    exact Or.inl ⟨rfl, by simpa using here⟩
  · exact Or.inr ⟨same, by simpa [Function.update_of_ne same] using here⟩

theorem once_with {l : Place} {p : Thing}
    (once : ∀ k m q, place k = some q → place m = some q → k = m) (nowhere : ∀ k, place k ≠ some p)
    (k m : Place) (q : Thing) (first : Function.update place l (some p) k = some q)
    (second : Function.update place l (some p) m = some q) : k = m := by
  rcases update_some first with ⟨here, same⟩ | ⟨_, found⟩
  · rcases update_some second with ⟨there, _⟩ | ⟨_, other⟩
    · rw [here, there]
    · cases same
      exact absurd other (nowhere m)
  · rcases update_some second with ⟨_, same⟩ | ⟨_, other⟩
    · cases same
      exact absurd found (nowhere k)
    · exact once k m q found other

theorem Kept.take (kept : Kept place loose held) {l : Place} {p : Thing} (empty : place l = none)
    (new : ¬ held p) : Kept (Function.update place l (some p)) loose fun q => held q ∨ q = p := by
  have nowhere : ∀ k, place k ≠ some p := fun k here => new (kept.placed here)
  refine ⟨once_with kept.once nowhere, kept.nodup, fun k q here => ?_, fun q => ?_⟩
  · rcases update_some here with ⟨_, same⟩ | ⟨_, here⟩
    · cases same
      exact fun member => new (kept.is_loose member)
    · exact kept.apart k q here
  · constructor
    · rintro (had | rfl)
      · rcases (kept.exact q).mp had with ⟨k, here⟩ | member
        · refine Or.inl ⟨k, ?_⟩
          rw [Function.update_of_ne fun same => ?_]
          · exact here
          · rw [same, empty] at here
            cases here
        · exact Or.inr member
      · exact Or.inl ⟨l, Function.update_self ..⟩
    · rintro (⟨k, here⟩ | member)
      · rcases update_some here with ⟨_, same⟩ | ⟨_, here⟩
        · exact Or.inr (Option.some.inj same).symm
        · exact Or.inl (kept.placed here)
      · exact Or.inl (kept.is_loose member)

theorem Kept.drop (kept : Kept place loose held) {l : Place} {p : Thing} (here : place l = some p) :
    Kept (Function.update place l none) loose fun q => held q ∧ q ≠ p := by
  have left : ∀ {k q}, Function.update place l none k = some q → k ≠ l ∧ place k = some q := by
    intro k q there
    rcases update_some there with ⟨_, impossible⟩ | found
    · cases impossible
    · exact found
  refine ⟨fun k m q first second => kept.once k m q (left first).2 (left second).2, kept.nodup,
    fun k q there => kept.apart k q (left there).2, fun q => ?_⟩
  constructor
  · rintro ⟨had, other⟩
    rcases (kept.exact q).mp had with ⟨k, there⟩ | member
    · refine Or.inl ⟨k, ?_⟩
      rw [Function.update_of_ne fun same => ?_]
      · exact there
      · rw [same, here] at there
        exact other (Option.some.inj there).symm
    · exact Or.inr member
  · rintro (⟨k, there⟩ | member)
    · obtain ⟨distinct, there⟩ := left there
      refine ⟨kept.placed there, fun same => ?_⟩
      subst same
      exact distinct (kept.once k l q there here)
    · refine ⟨kept.is_loose member, fun same => ?_⟩
      subst same
      exact kept.apart l q here member

theorem Kept.loosen (kept : Kept place loose held) {l : Place} {p : Thing} (here : place l = some p) :
    Kept (Function.update place l none) (loose ++ [p]) held := by
  have dropped := kept.drop here
  refine ⟨dropped.once, ?_, fun k q there => ?_, fun q => ?_⟩
  · exact (List.nodup_append_comm.mp (List.nodup_cons.mpr ⟨kept.apart l p here, kept.nodup⟩))
  · intro member
    rcases List.mem_append.mp member with old | last
    · exact dropped.apart k q there old
    · rw [List.mem_singleton] at last
      subst last
      exact (dropped.placed there).2 rfl
  · by_cases same : q = p
    · subst same
      exact iff_of_true (kept.placed here) (Or.inr (by simp))
    · have rest := dropped.exact q
      simp only [List.mem_append, List.mem_singleton, same, or_false]
      rw [← rest]
      exact ⟨fun had => ⟨had, same⟩, fun both => both.1⟩

theorem Kept.place_first {p : Thing} {rest : List Thing} (kept : Kept place (p :: rest) held)
    {l : Place} (empty : place l = none) : Kept (Function.update place l (some p)) rest held := by
  obtain ⟨out, nodup⟩ := List.nodup_cons.mp kept.nodup
  have nowhere : ∀ k, place k ≠ some p := fun k here => kept.apart k p here List.mem_cons_self
  refine ⟨once_with kept.once nowhere, nodup, fun k q here => ?_, fun q => ?_⟩
  · rcases update_some here with ⟨_, same⟩ | ⟨_, here⟩
    · cases same
      exact out
    · exact fun member => kept.apart k q here (List.mem_cons_of_mem p member)
  · rw [kept.exact q]
    constructor
    · rintro (⟨k, here⟩ | member)
      · refine Or.inl ⟨k, ?_⟩
        rw [Function.update_of_ne fun same => ?_]
        · exact here
        · rw [same, empty] at here
          cases here
      · rcases List.mem_cons.mp member with rfl | later
        · exact Or.inl ⟨l, Function.update_self ..⟩
        · exact Or.inr later
    · rintro (⟨k, here⟩ | member)
      · rcases update_some here with ⟨_, same⟩ | ⟨_, here⟩
        · exact Or.inr (List.mem_cons.mpr (Or.inl (Option.some.inj same).symm))
        · exact Or.inl ⟨k, here⟩
      · exact Or.inr (List.mem_cons_of_mem p member)

end

theorem Kept.drop_first {p : Thing} {rest : List Thing} (kept : Kept place (p :: rest) held) :
    Kept place rest fun q => held q ∧ q ≠ p := by
  obtain ⟨out, nodup⟩ := List.nodup_cons.mp kept.nodup
  refine ⟨kept.once, nodup, fun l q here member => kept.apart l q here (List.mem_cons_of_mem p member),
    fun q => ?_⟩
  rw [kept.exact q]
  constructor
  · rintro ⟨found | member, other⟩
    · exact Or.inl found
    · exact Or.inr ((List.mem_cons.mp member).resolve_left other)
  · rintro (⟨l, here⟩ | member)
    · refine ⟨Or.inl ⟨l, here⟩, fun same => ?_⟩
      subst same
      exact kept.apart l q here List.mem_cons_self
    · refine ⟨Or.inr (List.mem_cons_of_mem p member), fun same => ?_⟩
      subst same
      exact out member

end Custody
