import Mathlib.Data.List.Basic
import Mathlib.Data.List.Infix

/-! Basic regular expressions of characters, the point and the star, and the lines that grep
finds with them. -/
namespace Grep

inductive Atom where
  | char (c : Char)
  | any
  deriving DecidableEq, Repr

def Atom.fits : Atom → Char → Bool
  | .char c, d => c = d
  | .any, _ => true

structure Item where
  atom : Atom
  starred : Bool
  deriving DecidableEq, Repr

def atomOf (c : Char) : Atom := if c = '.' then .any else .char c

/-- A star after a character repeats it. -/
def parse : List Char → List Item
  | [] => []
  | [c] => [⟨atomOf c, false⟩]
  | c :: d :: rest =>
    if d = '*' then ⟨atomOf c, true⟩ :: parse rest else ⟨atomOf c, false⟩ :: parse (d :: rest)

/-- What is left after any number of characters that fit. -/
def skips (a : Atom) : List Char → List (List Char)
  | [] => [[]]
  | c :: l => (c :: l) :: if a.fits c then skips a l else []

/-- The items match at the start of the text. -/
def matchHere : List Item → List Char → Bool
  | [], _ => true
  | ⟨a, true⟩ :: items, l => (skips a l).any (matchHere items)
  | ⟨a, false⟩ :: items, c :: l => a.fits c && matchHere items l
  | ⟨_, false⟩ :: _, [] => false

/-- A line matches wherever the pattern is found in it. -/
def grep (pattern line : List Char) : Bool := line.tails.any (matchHere (parse pattern))

def literal (x : List Char) : List Item := x.map fun c => ⟨.char c, false⟩

/-- Neither a point nor a star. -/
def Ordinary (x : List Char) : Prop := ∀ c ∈ x, c ≠ '.' ∧ c ≠ '*'

variable {x y l m : List Char} {items : List Item}

theorem match_literal (x : List Char) :
    matchHere (literal x ++ items) l = true ↔ ∃ m, l = x ++ m ∧ matchHere items m = true := by
  induction x generalizing l with
  | nil => simp [literal]
  | cons c x ih =>
    have first : literal (c :: x) ++ items = ⟨.char c, false⟩ :: (literal x ++ items) := rfl
    rw [first]
    cases l with
    | nil => simp [matchHere]
    | cons d l =>
      rw [matchHere, Bool.and_eq_true, ih]
      constructor
      · intro both
        obtain ⟨same, m, rest, matched⟩ := both
        have equal : c = d := of_decide_eq_true same
        exact ⟨m, by rw [equal, rest, List.cons_append], matched⟩
      · intro found
        obtain ⟨m, rest, matched⟩ := found
        rw [List.cons_append, List.cons.injEq] at rest
        exact ⟨decide_eq_true rest.1.symm, m, rest.2, matched⟩

theorem skips_any : m ∈ skips .any l ↔ ∃ b, l = b ++ m := by
  induction l with
  | nil =>
    constructor
    · intro member
      exact ⟨[], (List.mem_singleton.mp member).symm⟩
    · intro split
      obtain ⟨b, same⟩ := split
      rw [(List.nil_eq_append_iff.mp same).2]
      exact List.mem_singleton_self []
  | cons c l ih =>
    have unfolded : skips .any (c :: l) = (c :: l) :: skips .any l := by
      rw [skips, Atom.fits, if_pos rfl]
    rw [unfolded, List.mem_cons, ih]
    constructor
    · intro member
      rcases member with rfl | later
      · exact ⟨[], rfl⟩
      · obtain ⟨b, same⟩ := later
        exact ⟨c :: b, by rw [same, List.cons_append]⟩
    · intro split
      obtain ⟨b, same⟩ := split
      cases b with
      | nil => exact Or.inl same.symm
      | cons d b => exact Or.inr ⟨b, (List.cons.inj same).2⟩

theorem match_any_star : matchHere (⟨.any, true⟩ :: items) l = true ↔
    ∃ b m, l = b ++ m ∧ matchHere items m = true := by
  rw [matchHere, List.any_eq_true]
  constructor
  · intro found
    obtain ⟨m, member, matched⟩ := found
    obtain ⟨b, same⟩ := skips_any.mp member
    exact ⟨b, m, same, matched⟩
  · intro found
    obtain ⟨b, m, same, matched⟩ := found
    exact ⟨m, skips_any.mpr ⟨b, same⟩, matched⟩

/-- Ordinary characters stand for themselves, up to a character that a star repeats. -/
theorem parse_plain {rest : List Char} (ordinary : Ordinary x) (next : rest.head? ≠ some '*') :
    parse (x ++ rest) = literal x ++ parse rest := by
  induction x with
  | nil => rfl
  | cons c x ih =>
    have others := ih fun d member => ordinary d (List.mem_cons_of_mem c member)
    have atom : atomOf c = .char c := if_neg (ordinary c List.mem_cons_self).1
    have head : (x ++ rest).head? ≠ some '*' := by
      cases x with
      | nil => exact next
      | cons d x =>
        intro star
        exact (ordinary d (List.mem_cons_of_mem c List.mem_cons_self)).2 (Option.some.inj star)
    have first : parse (c :: (x ++ rest)) = ⟨.char c, false⟩ :: parse (x ++ rest) := by
      cases tail : x ++ rest with
      | nil => simp [parse, atom]
      | cons d t =>
        rw [tail] at head
        have other : d ≠ '*' := fun star => head (congrArg some star)
        rw [parse, if_neg other, atom]
    rw [List.cons_append, first, others]
    rfl

theorem grep_between (first : Ordinary x) (second : Ordinary y) :
    grep (x ++ ('.' :: '*' :: (y ++ ['.', '*']))) l = true ↔
      ∃ a b c, l = a ++ (x ++ (b ++ (y ++ c))) := by
  have tail : parse (y ++ ['.', '*']) = literal y ++ [⟨.any, true⟩] :=
    parse_plain second (by decide)
  have items : parse (x ++ ('.' :: '*' :: (y ++ ['.', '*']))) =
      literal x ++ (⟨.any, true⟩ :: (literal y ++ [⟨.any, true⟩])) := by
    rw [parse_plain first (by simp), ← tail]
    rfl
  unfold grep
  rw [items, List.any_eq_true]
  constructor
  · intro found
    obtain ⟨s, suffix, matched⟩ := found
    obtain ⟨a, whole⟩ := List.mem_tails s l |>.mp suffix
    obtain ⟨m, rest, matched⟩ := (match_literal x).mp matched
    obtain ⟨b, t, between, matched⟩ := match_any_star.mp matched
    obtain ⟨c, last, _⟩ := (match_literal y).mp matched
    exact ⟨a, b, c, by rw [← whole, rest, between, last]⟩
  · intro found
    obtain ⟨a, b, c, whole⟩ := found
    refine ⟨x ++ (b ++ (y ++ c)), (List.mem_tails _ _).mpr ⟨a, whole.symm⟩, ?_⟩
    rw [match_literal]
    refine ⟨_, rfl, match_any_star.mpr ⟨b, y ++ c, rfl, ?_⟩⟩
    rw [match_literal]
    exact ⟨c, rfl, match_any_star.mpr ⟨c, [], (List.append_nil c).symm, rfl⟩⟩

/-- Where the second text starts with a character found once in the line, the first lies
    before it. -/
theorem between_at_sep {sep : Char} {before after : List Char} (once : sep ∉ before)
    (last : sep ∉ after) :
    (∃ a b c, before ++ sep :: after = a ++ (x ++ (b ++ (sep :: y ++ c)))) ↔
      x <:+: before ∧ y <+: after := by
  constructor
  · intro found
    obtain ⟨a, b, c, whole⟩ := found
    have parts : before ++ sep :: after = (a ++ x ++ b) ++ sep :: (y ++ c) := by
      rw [whole]
      simp
    obtain ⟨front, _, rest⟩ := (List.append_cons_inj_of_notMem once last).mp parts
    exact ⟨⟨a, b, front.symm⟩, ⟨c, rest.symm⟩⟩
  · intro both
    obtain ⟨⟨a, b, front⟩, ⟨c, rest⟩⟩ := both
    refine ⟨a, b, c, ?_⟩
    rw [← front, ← rest]
    simp

theorem infix_sep {sep : Char} {a b : List Char} (apart : sep ∉ x) :
    x <:+: a ++ sep :: b ↔ x <:+: a ∨ x <:+: b := by
  constructor
  · intro inside
    obtain ⟨p, q, whole⟩ := inside
    rw [List.append_assoc] at whole
    rcases List.append_eq_append_iff.mp whole with ⟨t, left, rest⟩ | ⟨t, left, rest⟩
    · rcases List.append_eq_append_iff.mp rest with ⟨u, front, _⟩ | ⟨u, front, back⟩
      · exact Or.inl ⟨p, u, by rw [left, front, List.append_assoc]⟩
      · cases u with
        | nil =>
          rw [List.append_nil] at front
          exact Or.inl ⟨p, [], by rw [left, front, List.append_nil]⟩
        | cons d u =>
          have same : sep = d := (List.cons.inj back).1
          rw [front, same] at apart
          exact absurd (List.mem_append_right t List.mem_cons_self) apart
    · cases t with
      | nil =>
        cases x with
        | nil => exact Or.inl (List.nil_infix)
        | cons d x =>
          have same : sep = d := (List.cons.inj rest).1
          rw [same] at apart
          exact absurd List.mem_cons_self apart
      | cons d t =>
        have back : b = t ++ (x ++ q) := (List.cons.inj rest).2
        exact Or.inr ⟨t, q, by rw [back, List.append_assoc]⟩
  · intro side
    rcases side with ⟨p, q, left⟩ | ⟨p, q, right⟩
    · exact ⟨p, q ++ sep :: b, by rw [← left]; simp⟩
    · exact ⟨a ++ sep :: p, q, by rw [← right]; simp⟩

theorem prefix_sep {sep : Char} {a b : List Char} (apart : sep ∉ x) :
    x <+: a ++ sep :: b ↔ x <+: a := by
  constructor
  · intro start
    obtain ⟨q, whole⟩ := start
    rcases List.append_eq_append_iff.mp whole with ⟨t, left, _⟩ | ⟨t, left, rest⟩
    · exact ⟨t, left.symm⟩
    · cases t with
      | nil => exact ⟨[], by rw [left]; simp⟩
      | cons d t =>
        have same : sep = d := (List.cons.inj rest).1
        rw [left, same] at apart
        exact absurd (List.mem_append_right a List.mem_cons_self) apart
  · intro start
    exact start.trans (List.prefix_append a _)

theorem infix_gap {a gap b : List Char} (apart : ∀ c ∈ gap, c ∉ x) (some_gap : gap ≠ []) :
    x <:+: a ++ (gap ++ b) ↔ x <:+: a ∨ x <:+: b := by
  induction gap generalizing a with
  | nil => exact absurd rfl some_gap
  | cons c gap ih =>
    rw [List.cons_append, infix_sep (apart c List.mem_cons_self)]
    cases gap with
    | nil => rw [List.nil_append]
    | cons d gap =>
      have later := ih (a := []) (fun e member => apart e (List.mem_cons_of_mem c member))
        (List.cons_ne_nil d gap)
      rw [List.nil_append] at later
      rw [later]
      constructor
      · intro side
        rcases side with left | empty | right
        · exact Or.inl left
        · rw [List.infix_nil.mp empty]
          exact Or.inl List.nil_infix
        · exact Or.inr right
      · intro side
        exact side.imp_right Or.inr

end Grep
