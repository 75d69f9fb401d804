import FastSafeIO.Regex

/-! The words between separators, and the searches for a word that stands alone. -/
namespace WordSearch
open Regex

variable {α ν : Type} {p : α → Bool} {l w x y : List α}

/-- At both sides the text ends or a separator follows. -/
structure Bounded (p : α → Bool) (x y : List α) : Prop where
  before : ∀ c ∈ x.getLast?, p c = true
  after : ∀ c ∈ y.head?, p c = true

theorem split_first (p : α → Bool) (l : List α) : (∀ c ∈ l, p c = false) ∨
    ∃ x c y, l = x ++ c :: y ∧ (∀ d ∈ x, p d = false) ∧ p c = true := by
  induction l with
  | nil => exact Or.inl fun c member => absurd member List.not_mem_nil
  | cons d l ih =>
    cases sep : p d with
    | true => exact Or.inr ⟨[], d, l, rfl, fun e member => absurd member List.not_mem_nil, sep⟩
    | false =>
      rcases ih with none | ⟨x, c, y, same, solid, found⟩
      · exact Or.inl (List.forall_mem_cons.mpr ⟨sep, none⟩)
      · exact Or.inr ⟨d :: x, c, y, by rw [same, List.cons_append],
          List.forall_mem_cons.mpr ⟨sep, solid⟩, found⟩

theorem bounded_split (member : w ∈ l.splitOnP p) :
    (∀ c ∈ w, p c = false) ∧ ∃ x y, l = x ++ (w ++ y) ∧ Bounded p x y := by
  induction size : l.length using Nat.strong_induction_on generalizing l with
  | _ n ih =>
    rcases split_first p l with none | ⟨x, c, y, rfl, solid, sep⟩
    · rw [List.splitOnP_eq_singleton none] at member
      rw [List.mem_singleton.mp member]
      exact ⟨none, [], [], by simp, by simp, by simp⟩
    · rw [List.splitOnP_append_cons x y sep, List.splitOnP_eq_singleton solid] at member
      rcases List.mem_append.mp member with first | later
      · rw [List.mem_singleton.mp first]
        exact ⟨solid, [], c :: y, rfl, by simp, by simpa using sep⟩
      · have shorter : y.length < n := by
          rw [← size, List.length_append, List.length_cons]
          omega
        obtain ⟨alone, u, v, rfl, bounded⟩ := ih y.length shorter later rfl
        refine ⟨alone, x ++ c :: u, v, by simp, ?_, bounded.after⟩
        intro d last
        rw [List.getLast?_append_cons, List.getLast?_cons, Option.mem_some_iff] at last
        cases ends : u.getLast? with
        | none =>
          rw [ends] at last
          exact last ▸ sep
        | some e =>
          rw [ends] at last
          exact last ▸ bounded.before e ends

theorem split_bounded (solid : ∀ c ∈ w, p c = false) (bounded : Bounded p x y) :
    w ∈ (x ++ (w ++ y)).splitOnP p := by
  have after : w ∈ (w ++ y).splitOnP p := by
    cases y with
    | nil =>
      rw [List.append_nil, List.splitOnP_eq_singleton solid]
      exact List.mem_singleton_self w
    | cons c y =>
      rw [List.splitOnP_append_cons w y (bounded.after c rfl), List.splitOnP_eq_singleton solid]
      exact List.mem_append_left _ (List.mem_singleton_self w)
  rcases List.eq_nil_or_concat' x with rfl | ⟨u, c, rfl⟩
  · exact after
  · have sep : p c = true := bounded.before c (by simp)
    rw [List.append_assoc, List.singleton_append, List.splitOnP_append_cons u _ sep]
    exact List.mem_append_right _ after

def tokens (p : α → Bool) (l : List α) : List (List α) := (l.splitOnP p).filter (!·.isEmpty)

theorem token_solid (member : w ∈ tokens p l) : w ≠ [] ∧ ∀ c ∈ w, p c = false := by
  obtain ⟨part, some_char⟩ := List.mem_filter.mp member
  constructor
  · simpa using some_char
  · exact (bounded_split part).1

theorem tokens_snoc {c : α} (sep : p c = true) (l : List α) : tokens p (l ++ [c]) = tokens p l := by
  unfold tokens
  rw [List.splitOnP_append_cons l [] sep, List.splitOnP_nil, List.filter_append]
  simp

theorem tokens_space {c : α} (sep : p c = true) (l : List α) : tokens p (c :: l) = tokens p l := by
  unfold tokens
  rw [← List.nil_append (c :: l), List.splitOnP_append_cons [] l sep, List.splitOnP_nil]
  rfl

theorem tokens_blank (blank : ∀ c ∈ x, p c = true) (l : List α) : tokens p (x ++ l) = tokens p l := by
  induction x with
  | nil => rfl
  | cons c x ih =>
    rw [List.cons_append, tokens_space (blank c List.mem_cons_self),
      ih fun d member => blank d (List.mem_cons_of_mem c member)]

theorem tokens_word (solid : ∀ c ∈ w, p c = false) (some_char : w ≠ [])
    (ends : ∀ c ∈ l.head?, p c = true) : tokens p (w ++ l) = w :: tokens p l := by
  cases l with
  | nil =>
    unfold tokens
    rw [List.append_nil, List.splitOnP_eq_singleton solid, List.splitOnP_nil]
    simp [some_char]
  | cons c l =>
    have sep : p c = true := ends c rfl
    rw [tokens_space sep]
    unfold tokens
    rw [List.splitOnP_append_cons w l sep, List.splitOnP_eq_singleton solid]
    simp [some_char]

/-- (^|separator)core($|separator) -/
def alone (p : α → Bool) (core : Pattern α ν) : Pattern α ν :=
  .seq (.alt .start (.one p)) (.seq core (.alt .stop (.one p)))

theorem left_edge {first : Bool} {u t : List α} :
    Spans (.alt .start (.one p) : Pattern α ν) first u t ↔
      (u = [] ∧ first = true) ∨ ∃ c, p c = true ∧ u = [c] := Iff.rfl

theorem right_edge {first : Bool} {u t : List α} :
    Spans (.alt .stop (.one p) : Pattern α ν) first u t ↔
      (u = [] ∧ t = []) ∨ ∃ c, p c = true ∧ u = [c] := Iff.rfl

variable [DecidableEq α]

/-- A search for a word alone finds the tokens that the word's pattern spans. -/
theorem search_alone_iff {core : Pattern α ν} {Word : List α → Prop}
    (spans : ∀ first w t, Spans core first w t ↔ Word w)
    (solid : ∀ w, Word w → w ≠ [] ∧ ∀ c ∈ w, p c = false) (l : List α) :
    (search (alone p core) l).isSome = true ↔ ∃ w ∈ tokens p l, Word w := by
  rw [search_iff]
  constructor
  · intro found
    obtain ⟨x, w, t, same, u, v, rfl, left, v', z, rfl, middle, right⟩ := found
    have word := (spans _ v' _).mp middle
    obtain ⟨some_char, alone⟩ := solid v' word
    have bounded : Bounded p (x ++ u) (z ++ t) := by
      constructor
      · intro c last
        rcases left_edge.mp left with ⟨rfl, first⟩ | ⟨d, sep, rfl⟩
        · rw [List.isEmpty_iff.mp first] at last
          cases last
        · rw [List.getLast?_append, List.getLast?_singleton, Option.some_or,
            Option.mem_some_iff] at last
          exact last ▸ sep
      · intro c next
        rcases right_edge.mp right with ⟨rfl, rfl⟩ | ⟨d, sep, rfl⟩
        · cases next
        · rw [List.singleton_append, List.head?_cons, Option.mem_some_iff] at next
          exact next ▸ sep
    have split : l = (x ++ u) ++ (v' ++ (z ++ t)) := by
      rw [same]
      simp only [List.append_assoc]
    refine ⟨v', List.mem_filter.mpr ⟨?_, by simpa using some_char⟩, word⟩
    rw [split]
    exact split_bounded alone bounded
  · intro found
    obtain ⟨w, member, word⟩ := found
    obtain ⟨part, _⟩ := List.mem_filter.mp member
    obtain ⟨_, x, y, rfl, bounded⟩ := bounded_split part
    -- the separators around the word, where the text does not end
    obtain ⟨x', u, rfl, left⟩ : ∃ x' u, x = x' ++ u ∧
        ∀ t, Spans (.alt .start (.one p) : Pattern α ν) x'.isEmpty u t := by
      rcases List.eq_nil_or_concat' x with rfl | ⟨x', c, rfl⟩
      · exact ⟨[], [], rfl, fun t => left_edge.mpr (Or.inl ⟨rfl, rfl⟩)⟩
      · exact ⟨x', [c], rfl,
          fun t => left_edge.mpr (Or.inr ⟨c, bounded.before c (by simp), rfl⟩)⟩
    obtain ⟨z, t, rfl, right⟩ : ∃ z t, y = z ++ t ∧
        ∀ first, Spans (.alt .stop (.one p) : Pattern α ν) first z t := by
      cases y with
      | nil => exact ⟨[], [], rfl, fun first => right_edge.mpr (Or.inl ⟨rfl, rfl⟩)⟩
      | cons c y =>
        exact ⟨[c], y, rfl, fun first => right_edge.mpr (Or.inr ⟨c, bounded.after c rfl, rfl⟩)⟩
    exact ⟨x', u ++ (w ++ z), t, by simp only [List.append_assoc], u, w ++ z, rfl, left _, w, z, rfl,
      (spans _ w _).mpr word, right _⟩

end WordSearch
