import Mathlib.Data.List.Basic
import Mathlib.Data.List.Infix

/-! Regular expressions with anchors and groups, whose repetitions are of one class of characters.
The ways to match come in the order in which a backtracking matcher tries them. -/
namespace Regex

inductive Pattern (α ν : Type) where
  | text (w : List α)
  | one (p : α → Bool)
  | many (p : α → Bool)
  | start
  | stop
  | seq (a b : Pattern α ν)
  | alt (a b : Pattern α ν)
  | maybe (a : Pattern α ν)
  | group (name : ν) (a : Pattern α ν)

/-- What the groups hold, and what is left of the text. -/
structure Way (α ν : Type) where
  groups : List (ν × List α)
  rest : List α
  deriving DecidableEq, Repr

variable {α ν : Type}

/-- The text of a group that has matched. -/
def Way.text [DecidableEq ν] (m : Way α ν) (name : ν) : List α :=
  ((m.groups.find? (·.1 = name)).map Prod.snd).getD []

/-- One or more characters of a class. -/
def someOf (p : α → Bool) : Pattern α ν := .seq (.one p) (.many p)

/-- What is left after characters of a class, as few as possible left first. -/
def rests (p : α → Bool) : List α → List (List α)
  | [] => [[]]
  | c :: l => if p c then rests p l ++ [c :: l] else [c :: l]

/-- The ways to match at the head of a text, which may be where the whole text starts. -/
def ways [DecidableEq α] : Pattern α ν → Bool → List α → List (Way α ν)
  | .text w, _, l => if w <+: l then [⟨[], l.drop w.length⟩] else []
  | .one _, _, [] => []
  | .one p, _, c :: l => if p c then [⟨[], l⟩] else []
  | .many p, _, l => (rests p l).map fun m => ⟨[], m⟩
  | .start, first, l => if first then [⟨[], l⟩] else []
  | .stop, _, l => if l = [] then [⟨[], l⟩] else []
  | .seq a b, first, l => (ways a first l).flatMap fun m =>
      (ways b (first && m.rest.length = l.length) m.rest).map fun n => ⟨m.groups ++ n.groups, n.rest⟩
  | .alt a b, first, l => ways a first l ++ ways b first l
  | .maybe a, first, l => ways a first l ++ [⟨[], l⟩]
  | .group name a, first, l => (ways a first l).map fun m =>
      ⟨(name, l.take (l.length - m.rest.length)) :: m.groups, m.rest⟩

/-- A match at the head of the text. -/
def matchHead [DecidableEq α] (r : Pattern α ν) (l : List α) : Option (Way α ν) :=
  (ways r true l).head?

def searchFrom [DecidableEq α] (r : Pattern α ν) (first : Bool) : List α → Option (Way α ν)
  | [] => (ways r first []).head?
  | c :: l => (ways r first (c :: l)).head?.orElse fun _ => searchFrom r false l

/-- The leftmost match. -/
def search [DecidableEq α] (r : Pattern α ν) (l : List α) : Option (Way α ν) := searchFrom r true l

/-- The pattern matches a word with this text after it. -/
def Spans : Pattern α ν → Bool → List α → List α → Prop
  | .text v, _, w, _ => w = v
  | .one p, _, w, _ => ∃ c, p c = true ∧ w = [c]
  | .many p, _, w, _ => ∀ c ∈ w, p c = true
  | .start, first, w, _ => w = [] ∧ first = true
  | .stop, _, w, t => w = [] ∧ t = []
  | .seq a b, first, w, t => ∃ u v, w = u ++ v ∧ Spans a first u (v ++ t) ∧
      Spans b (first && u.isEmpty) v t
  | .alt a b, first, w, t => Spans a first w t ∨ Spans b first w t
  | .maybe a, first, w, t => Spans a first w t ∨ w = []
  | .group _ a, first, w, t => Spans a first w t

theorem rests_cons {p : α → Bool} {c : α} {l : List α} :
    rests p (c :: l) = if p c then rests p l ++ [c :: l] else [c :: l] := rfl

theorem mem_rests {p : α → Bool} {l t : List α} :
    t ∈ rests p l ↔ ∃ w, l = w ++ t ∧ ∀ c ∈ w, p c = true := by
  induction l with
  | nil =>
    constructor
    · intro member
      exact ⟨[], (List.mem_singleton.mp member).symm, by simp⟩
    · intro split
      obtain ⟨w, same, _⟩ := split
      rw [(List.nil_eq_append_iff.mp same).2]
      exact List.mem_singleton_self []
  | cons c l ih =>
    rw [rests_cons]
    by_cases fits : p c = true
    · rw [if_pos fits, List.mem_append, List.mem_singleton, ih]
      constructor
      · intro found
        rcases found with ⟨w, same, all⟩ | rfl
        · exact ⟨c :: w, by rw [same, List.cons_append], by simpa [fits] using all⟩
        · exact ⟨[], rfl, by simp⟩
      · intro split
        obtain ⟨w, same, all⟩ := split
        cases w with
        | nil => exact Or.inr same.symm
        | cons d w =>
          exact Or.inl ⟨w, (List.cons.inj same).2, fun e member => all e (List.mem_cons_of_mem d member)⟩
    · rw [if_neg fits, List.mem_singleton]
      constructor
      · intro same
        exact ⟨[], same.symm, by simp⟩
      · intro split
        obtain ⟨w, same, all⟩ := split
        cases w with
        | nil => exact same.symm
        | cons d w =>
          have head : c = d := (List.cons.inj same).1
          exact absurd (head ▸ all d List.mem_cons_self) fits

theorem length_split {l w t : List α} (same : l = w ++ t) :
    decide (t.length = l.length) = w.isEmpty := by
  rw [same, List.length_append]
  cases w with
  | nil => simp
  | cons c w => simp

theorem rests_head {p : α → Bool} {w l : List α} (all : ∀ c ∈ w, p c = true)
    (last : ∀ c ∈ l.head?, p c = false) : (rests p (w ++ l)).head? = some l := by
  induction w with
  | nil =>
    cases l with
    | nil => rfl
    | cons c l => rw [List.nil_append, rests_cons, if_neg (by simp [last c rfl]), List.head?_singleton]
  | cons c w ih =>
    have later := ih fun d member => all d (List.mem_cons_of_mem c member)
    rw [List.cons_append, rests_cons, if_pos (all c List.mem_cons_self), List.head?_append, later]
    rfl

/-- What is true of a word is true of the first character of a text that begins with it. -/
theorem head_of_append {w : List α} (some_char : w ≠ []) {P : α → Prop} (all : ∀ c ∈ w, P c)
    (l : List α) : ∀ c ∈ (w ++ l).head?, P c := by
  obtain ⟨d, v, rfl⟩ := List.exists_cons_of_ne_nil some_char
  intro c first
  rw [List.cons_append, List.head?_cons, Option.mem_some_iff] at first
  exact first ▸ all d List.mem_cons_self

theorem spans_seq {a b : Pattern α ν} {first : Bool} {w t : List α} : Spans (.seq a b) first w t ↔
    ∃ u v, w = u ++ v ∧ Spans a first u (v ++ t) ∧ Spans b (first && u.isEmpty) v t := Iff.rfl

theorem spans_maybe {a : Pattern α ν} {first : Bool} {w t : List α} :
    Spans (.maybe a) first w t ↔ Spans a first w t ∨ w = [] := Iff.rfl

theorem some_of_spans {p : α → Bool} {first : Bool} {w t : List α}
    (spans : Spans (someOf p : Pattern α ν) first w t) : w ≠ [] ∧ ∀ c ∈ w, p c = true := by
  obtain ⟨u, v, rfl, ⟨c, fits, rfl⟩, more⟩ := spans
  constructor
  · exact List.cons_ne_nil c v
  · intro d member
    rcases List.mem_cons.mp member with rfl | inside
    · exact fits
    · exact more d inside

variable [DecidableEq α]

section
variable {a b : Pattern α ν} {first : Bool} {l : List α}

theorem ways_text {w : List α} : ways (.text w : Pattern α ν) first l =
    if w <+: l then [⟨[], l.drop w.length⟩] else [] := rfl

theorem ways_one {p : α → Bool} {c : α} : ways (.one p : Pattern α ν) first (c :: l) =
    if p c then [⟨[], l⟩] else [] := rfl

theorem ways_many {p : α → Bool} : ways (.many p : Pattern α ν) first l =
    (rests p l).map fun m => ⟨[], m⟩ := rfl

theorem ways_seq : ways (.seq a b) first l = (ways a first l).flatMap fun m =>
    (ways b (first && m.rest.length = l.length) m.rest).map fun n =>
      ⟨m.groups ++ n.groups, n.rest⟩ := rfl

theorem ways_alt : ways (.alt a b) first l = ways a first l ++ ways b first l := rfl

theorem ways_maybe : ways (.maybe a) first l = ways a first l ++ [⟨[], l⟩] := rfl

theorem ways_group {name : ν} : ways (.group name a) first l = (ways a first l).map fun m =>
    ⟨(name, l.take (l.length - m.rest.length)) :: m.groups, m.rest⟩ := rfl

end

/-- The texts left are those after the words that the pattern spans. -/
def Right (r : Pattern α ν) : Prop := ∀ first l t,
  (∃ m ∈ ways r first l, m.rest = t) ↔ ∃ w, l = w ++ t ∧ Spans r first w t

section
variable {a b : Pattern α ν} {first : Bool} {l : List α} {m : Way α ν}

theorem mem_ways_text {v : List α} :
    m ∈ ways (.text v) first l ↔ v <+: l ∧ m = ⟨[], l.drop v.length⟩ := by
  rw [ways_text]
  split <;> simp [*]

theorem mem_ways_one {p : α → Bool} {c : α} :
    m ∈ ways (.one p) first (c :: l) ↔ p c = true ∧ m = ⟨[], l⟩ := by
  rw [ways_one]
  split <;> simp [*]

theorem mem_ways_seq : m ∈ ways (.seq a b) first l ↔ ∃ x ∈ ways a first l,
    ∃ y ∈ ways b (first && x.rest.length = l.length) x.rest, ⟨x.groups ++ y.groups, y.rest⟩ = m := by
  rw [ways_seq]
  simp only [List.mem_flatMap, List.mem_map]

theorem mem_ways_maybe : m ∈ ways (.maybe a) first l ↔ m ∈ ways a first l ∨ m = ⟨[], l⟩ := by
  rw [ways_maybe, List.mem_append, List.mem_singleton]

theorem right_seq (iha : Right a) (ihb : Right b) : Right (.seq a b) := by
  intro first l t
  constructor
  · intro found
    obtain ⟨m, member, rfl⟩ := found
    obtain ⟨x, before, y, after, rfl⟩ := mem_ways_seq.mp member
    obtain ⟨u, split, left⟩ := (iha first l x.rest).mp ⟨x, before, rfl⟩
    obtain ⟨v, later, right⟩ := (ihb _ x.rest y.rest).mp ⟨y, after, rfl⟩
    rw [length_split split] at right
    rw [later] at split left
    exact ⟨u ++ v, by rw [split, List.append_assoc], spans_seq.mpr ⟨u, v, rfl, left, right⟩⟩
  · intro split
    obtain ⟨w, same, spans⟩ := split
    obtain ⟨u, v, rfl, left, right⟩ := spans_seq.mp spans
    rw [List.append_assoc] at same
    obtain ⟨x, before, rest⟩ := (iha first l (v ++ t)).mpr ⟨u, same, left⟩
    rw [← length_split same, ← rest] at right
    obtain ⟨y, after, last⟩ := (ihb _ x.rest t).mpr ⟨v, rest, right⟩
    exact ⟨⟨x.groups ++ y.groups, y.rest⟩, mem_ways_seq.mpr ⟨x, before, y, after, rfl⟩, last⟩

theorem right_maybe (ih : Right a) : Right (.maybe a) := by
  intro first l t
  simp only [mem_ways_maybe, spans_maybe, or_and_right, exists_or, and_or_left, ih first l t]
  apply or_congr_right
  constructor
  · intro found
    obtain ⟨m, rfl, rfl⟩ := found
    exact ⟨[], rfl, rfl⟩
  · intro split
    obtain ⟨w, same, rfl⟩ := split
    exact ⟨_, rfl, same⟩

theorem right_group (name : ν) (ih : Right a) : Right (.group name a) := by
  intro first l t
  refine Iff.trans ?_ (ih first l t)
  constructor
  · intro found
    obtain ⟨m, member, rfl⟩ := found
    obtain ⟨x, known, rfl⟩ := List.mem_map.mp member
    exact ⟨x, known, rfl⟩
  · intro found
    obtain ⟨x, known, rfl⟩ := found
    exact ⟨_, List.mem_map_of_mem known, rfl⟩

end

theorem right_text (v : List α) : Right (.text v : Pattern α ν) := by
  intro first l t
  constructor
  · intro found
    obtain ⟨m, member, rfl⟩ := found
    obtain ⟨prefixed, rfl⟩ := mem_ways_text.mp member
    exact ⟨v, (List.prefix_iff_eq_append.mp prefixed).symm, rfl⟩
  · intro split
    obtain ⟨w, same, spans⟩ := split
    obtain rfl : w = v := spans
    subst same
    exact ⟨_, mem_ways_text.mpr ⟨List.prefix_append w t, rfl⟩, List.drop_left⟩

theorem right_one (p : α → Bool) : Right (.one p : Pattern α ν) := by
  intro first l t
  constructor
  · intro found
    obtain ⟨m, member, rfl⟩ := found
    cases l with
    | nil => exact absurd member List.not_mem_nil
    | cons c l =>
      obtain ⟨fits, rfl⟩ := mem_ways_one.mp member
      exact ⟨[c], rfl, c, fits, rfl⟩
  · intro split
    obtain ⟨w, rfl, d, fits, rfl⟩ := split
    exact ⟨_, mem_ways_one.mpr ⟨fits, rfl⟩, rfl⟩

theorem right_many (p : α → Bool) : Right (.many p : Pattern α ν) := by
  intro first l t
  refine Iff.trans ?_ mem_rests
  simp [ways_many]

theorem right_start : Right (.start : Pattern α ν) := by
  intro first l t
  change (∃ m ∈ (if first then [⟨[], l⟩] else [] : List (Way α ν)), m.rest = t) ↔
    ∃ w, l = w ++ t ∧ w = [] ∧ first = true
  cases first <;> simp

theorem right_stop : Right (.stop : Pattern α ν) := by
  intro first l t
  change (∃ m ∈ (if l = [] then [⟨[], l⟩] else [] : List (Way α ν)), m.rest = t) ↔
    ∃ w, l = w ++ t ∧ w = [] ∧ t = []
  constructor
  · intro found
    obtain ⟨m, member, rfl⟩ := found
    split at member
    · rename_i empty
      rw [List.mem_singleton.mp member]
      exact ⟨[], rfl, rfl, empty⟩
    · cases member
  · intro split
    obtain ⟨w, rfl, rfl, rfl⟩ := split
    exact ⟨_, List.mem_singleton_self _, rfl⟩

theorem right_alt {a b : Pattern α ν} (iha : Right a) (ihb : Right b) : Right (.alt a b) := by
  intro first l t
  change _ ↔ ∃ w, l = w ++ t ∧ (Spans a first w t ∨ Spans b first w t)
  simp only [ways_alt, List.mem_append, or_and_right, exists_or, and_or_left, iha first l t,
    ihb first l t]

theorem ways_iff (r : Pattern α ν) : Right r := by
  induction r with
  | text v => exact right_text v
  | one p => exact right_one p
  | many p => exact right_many p
  | start => exact right_start
  | stop => exact right_stop
  | seq a b iha ihb => exact right_seq iha ihb
  | alt a b iha ihb => exact right_alt iha ihb
  | maybe a ih => exact right_maybe ih
  | group name a ih => exact right_group name ih

theorem head_some_iff (r : Pattern α ν) (first : Bool) (l : List α) :
    (ways r first l).head?.isSome = true ↔ ∃ w t, l = w ++ t ∧ Spans r first w t := by
  rw [List.isSome_head?]
  constructor
  · intro some_way
    obtain ⟨m, member⟩ := List.exists_mem_of_ne_nil _ some_way
    obtain ⟨w, split, spans⟩ := (ways_iff r first l m.rest).mp ⟨m, member, rfl⟩
    exact ⟨w, m.rest, split, spans⟩
  · intro split none
    obtain ⟨w, t, same, spans⟩ := split
    obtain ⟨m, member, _⟩ := (ways_iff r first l t).mpr ⟨w, same, spans⟩
    rw [none] at member
    cases member

theorem match_head_iff (r : Pattern α ν) (l : List α) :
    (matchHead r l).isSome = true ↔ ∃ w t, l = w ++ t ∧ Spans r true w t :=
  head_some_iff r true l

theorem or_else_is_some {β : Type} (x y : Option β) :
    (x.orElse fun _ => y).isSome = true ↔ x.isSome = true ∨ y.isSome = true := by
  cases x with
  | none => simp
  | some a => simp

theorem search_cons (r : Pattern α ν) (first : Bool) (c : α) (l : List α) :
    searchFrom r first (c :: l) =
      (ways r first (c :: l)).head?.orElse fun _ => searchFrom r false l := rfl

theorem search_from_iff (r : Pattern α ν) (first : Bool) (l : List α) :
    (searchFrom r first l).isSome = true ↔
      ∃ x w t, l = x ++ (w ++ t) ∧ Spans r (first && x.isEmpty) w t := by
  induction l generalizing first with
  | nil =>
    refine (head_some_iff r first []).trans ?_
    constructor
    · intro split
      obtain ⟨w, t, same, spans⟩ := split
      exact ⟨[], w, t, same, by simpa using spans⟩
    · intro split
      obtain ⟨x, w, t, same, spans⟩ := split
      obtain ⟨rfl, rest⟩ := List.append_eq_nil_iff.mp same.symm
      exact ⟨w, t, rest.symm, by simpa using spans⟩
  | cons c l ih =>
    rw [search_cons, or_else_is_some, head_some_iff, ih]
    constructor
    · intro found
      rcases found with ⟨w, t, same, spans⟩ | ⟨x, w, t, same, spans⟩
      · exact ⟨[], w, t, same, by simpa using spans⟩
      · exact ⟨c :: x, w, t, by rw [same, List.cons_append], by simpa using spans⟩
    · intro split
      obtain ⟨x, w, t, same, spans⟩ := split
      cases x with
      | nil => exact Or.inl ⟨w, t, same, by simpa using spans⟩
      | cons d x => exact Or.inr ⟨x, w, t, (List.cons.inj same).2, by simpa using spans⟩

theorem search_iff (r : Pattern α ν) (l : List α) :
    (search r l).isSome = true ↔ ∃ x w t, l = x ++ (w ++ t) ∧ Spans r x.isEmpty w t :=
  search_from_iff r true l

theorem search_next {r : Pattern α ν} {first : Bool} {c : α} {l : List α}
    (none : ways r first (c :: l) = []) : searchFrom r first (c :: l) = searchFrom r false l := by
  rw [search_cons, none]
  rfl

theorem search_here {r : Pattern α ν} {first : Bool} {l : List α} {m : Way α ν}
    (here : (ways r first l).head? = some m) : searchFrom r first l = some m := by
  cases l with
  | nil => exact here
  | cons c l =>
    rw [search_cons, here]
    rfl

/- The way that is tried first, when it succeeds. -/

theorem head_text (w l : List α) (first : Bool) :
    (ways (.text w : Pattern α ν) first (w ++ l)).head? = some ⟨[], l⟩ := by
  rw [ways_text, if_pos (List.prefix_append w l), List.drop_left]
  rfl

theorem head_many {p : α → Bool} {w l : List α} (all : ∀ c ∈ w, p c = true)
    (last : ∀ c ∈ l.head?, p c = false) (first : Bool) :
    (ways (.many p : Pattern α ν) first (w ++ l)).head? = some ⟨[], l⟩ := by
  rw [ways_many, List.head?_map, rests_head all last]
  rfl

theorem head_seq {a b : Pattern α ν} {first : Bool} {l m t : List α}
    {groups more : List (ν × List α)} (before : (ways a first l).head? = some ⟨groups, m⟩)
    (after : ∀ first, (ways b first m).head? = some ⟨more, t⟩) :
    (ways (.seq a b) first l).head? = some ⟨groups ++ more, t⟩ := by
  obtain ⟨others, left⟩ := List.head?_eq_some_iff.mp before
  rw [ways_seq, left, List.flatMap_cons, List.head?_append, List.head?_map, after]
  rfl

theorem head_some_of {p : α → Bool} {w l : List α} (some_char : w ≠ []) (all : ∀ c ∈ w, p c = true)
    (last : ∀ c ∈ l.head?, p c = false) (first : Bool) :
    (ways (someOf p : Pattern α ν) first (w ++ l)).head? = some ⟨[], l⟩ := by
  obtain ⟨c, v, rfl⟩ := List.exists_cons_of_ne_nil some_char
  have one : (ways (.one p : Pattern α ν) first (c :: (v ++ l))).head? = some ⟨[], v ++ l⟩ := by
    rw [ways_one, if_pos (all c List.mem_cons_self)]
    rfl
  exact head_seq one (head_many (fun d member => all d (List.mem_cons_of_mem c member)) last)

theorem head_group {a : Pattern α ν} {name : ν} {first : Bool} {w l : List α}
    {groups : List (ν × List α)} (inner : (ways a first (w ++ l)).head? = some ⟨groups, l⟩) :
    (ways (.group name a) first (w ++ l)).head? = some ⟨(name, w) :: groups, l⟩ := by
  rw [ways_group, List.head?_map, inner, Option.map_some, List.length_append, Nat.add_sub_cancel,
    List.take_left']
  rfl

theorem head_stop (first : Bool) : (ways (.stop : Pattern α ν) first []).head? = some ⟨[], []⟩ := rfl

end Regex
