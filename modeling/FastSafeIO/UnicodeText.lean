import FastSafeIO.TextTables

/-! Spaces, digits and numbers as Python's str has them, beyond ASCII as well. -/
namespace UnicodeText
open TextTables

/-- What the Unicode tables say of characters beyond ASCII: the spaces and the decimal digits. -/
structure Unicode where
  space : Char → Bool
  digit : Char → Option Nat
  apart : ∀ c, space c = true → digit c = none

/-- No spaces or digits beyond ASCII. -/
def ascii : Unicode := ⟨fun _ => false, fun _ => none, fun _ _ => rfl⟩

section
variable (u : Unicode)

/-- \s -/
def Unicode.isSpace (c : Char) : Bool := if c.toNat < 128 then TextTables.isSpace c else u.space c

def Unicode.digitValue (c : Char) : Option Nat :=
  if c.toNat < 128 then if c.isDigit then some (c.toNat - 48) else none else u.digit c

/-- \d -/
def Unicode.isDigit (c : Char) : Bool := (u.digitValue c).isSome

/-- [\d.] -/
def Unicode.inNumber (c : Char) : Bool := u.isDigit c || c = '.'

/-- int() of digits -/
def readInt (w : List Char) : Nat := w.foldl (fun n c => 10 * n + (u.digitValue c).getD 0) 0

/-- int() of digits, with single underscores between them. -/
def readDigits (w : List Char) : Option Nat :=
  let groups := w.splitOn '_'
  if groups.all fun g => !g.isEmpty && g.all u.isDigit then some (readInt u groups.flatten) else none

/-- float() of digits and points; other words are not read. -/
def readFloat (w : List Char) : Option ℚ :=
  if w.all u.inNumber then
    match w.splitOn '.' with
    | [whole] => if whole = [] then none else some (toDouble (readInt u whole))
    | [whole, fraction] =>
      if whole = [] ∧ fraction = [] then none
      else some (toDouble (readInt u whole + readInt u fraction / 10 ^ fraction.length))
    | _ => none
  else none

end

/-- Digits with a point among them, or none. -/
structure Number where
  text : List Char
  value : ℚ
  reads : readUnsigned text = some value

section
variable {u : Unicode} {w : List Char} {c : Char}

theorem digit_range (digit : c.isDigit = true) : 48 ≤ c.toNat ∧ c.toNat ≤ 57 :=
  Char.isDigit_iff_toNat.mp digit

theorem digit_value (u : Unicode) (digit : c.isDigit = true) :
    u.digitValue c = some (c.toNat - 48) := by
  have range := digit_range digit
  unfold Unicode.digitValue
  rw [if_pos (by omega), if_pos digit]

theorem digit_is_digit (u : Unicode) (digit : c.isDigit = true) : u.isDigit c = true := by
  unfold Unicode.isDigit
  rw [digit_value u digit]
  rfl

theorem digit_no_space (u : Unicode) (digit : c.isDigit = true) : u.isSpace c = false := by
  have range := digit_range digit
  unfold Unicode.isSpace
  rw [if_pos (by omega)]
  exact (numeric_char (by simp [isNumeric, digit])).2.2

theorem point_in_number (u : Unicode) : u.inNumber '.' = true := by
  simp [Unicode.inNumber]

theorem space_no_digit (space : u.isSpace c = true) : u.isDigit c = false := by
  unfold Unicode.isSpace at space
  unfold Unicode.isDigit Unicode.digitValue
  by_cases ascii : c.toNat < 128
  · rw [if_pos ascii] at space ⊢
    cases digit : c.isDigit with
    | true =>
      have solid := (numeric_char (c := c) (by simp [isNumeric, digit])).2.2
      rw [space] at solid
      cases solid
    | false => rfl
  · rw [if_neg ascii] at space ⊢
    rw [u.apart c space]
    rfl

theorem point_no_space (u : Unicode) : u.isSpace '.' = false := rfl

/-- The texts of numbers are digits and at most a point. -/
theorem unsigned_chars {x : ℚ} (reads : readUnsigned w = some x) :
    w ≠ [] ∧ ∀ c ∈ w, c.isDigit = true ∨ c = '.' := by
  unfold readUnsigned at reads
  dsimp only at reads
  split at reads
  · cases reads
  · rename_i some_digit
    constructor
    · intro empty
      rw [empty] at some_digit
      exact some_digit rfl
    · intro c member
      rw [← List.takeWhile_append_dropWhile (p := Char.isDigit) (l := w)] at member
      rcases List.mem_append.mp member with first | later
      · exact Or.inl (List.mem_takeWhile_imp first)
      · cases rest : w.dropWhile Char.isDigit with
        | nil =>
          rw [rest] at later
          cases later
        | cons d fraction =>
          rw [rest] at reads later
          dsimp only at reads
          split at reads
          · rename_i point
            rcases List.mem_cons.mp later with same | inside
            · exact Or.inr (same.trans point.1)
            · exact Or.inl (List.all_eq_true.mp point.2 c inside)
          · cases reads

theorem number_in_number (u : Unicode) (n : Number) : ∀ c ∈ n.text, u.inNumber c = true := by
  intro c member
  rcases (unsigned_chars n.reads).2 c member with digit | rfl
  · simp [Unicode.inNumber, digit_is_digit u digit]
  · exact point_in_number u

theorem number_no_space (u : Unicode) (n : Number) : ∀ c ∈ n.text, u.isSpace c = false := by
  intro c member
  rcases (unsigned_chars n.reads).2 c member with digit | rfl
  · exact digit_no_space u digit
  · exact point_no_space u

theorem read_int_digits (u : Unicode) (digits : ∀ c ∈ w, c.isDigit = true) :
    readInt u w = Nat.ofDigitChars 10 w 0 := by
  unfold readInt
  rw [Nat.ofDigitChars_eq_foldl]
  apply List.foldl_ext
  intro n c member
  rw [digit_value u (digits c member)]
  rfl

theorem read_int_print (u : Unicode) (n : Nat) : readInt u (printNat n) = n := by
  rw [read_int_digits u (print_nat_digits n)]
  have back := read_print_nat n
  unfold readNat at back
  split at back
  · exact Option.some.inj back
  · cases back

/-- float() reads a printed number as the double next to it. -/
theorem read_float_number (u : Unicode) (n : Number) :
    readFloat u n.text = some (toDouble n.value) := by
  have reads := n.reads
  unfold readUnsigned at reads
  dsimp only at reads
  have whole_digits : ∀ c ∈ n.text.takeWhile Char.isDigit, c.isDigit = true := fun c member =>
    List.mem_takeWhile_imp member
  have pointless : ∀ {v : List Char}, (∀ c ∈ v, c.isDigit = true) → ∀ c ∈ v, (c == '.') = false := by
    intro v digits c member
    have digit := digits c member
    have other : c ≠ '.' := by
      intro same
      rw [same] at digit
      exact absurd digit (by decide)
    simpa using other
  have text := List.takeWhile_append_dropWhile (p := Char.isDigit) (l := n.text)
  split at reads
  · cases reads
  · rename_i some_digit
    unfold readFloat
    rw [if_pos (List.all_eq_true.mpr (number_in_number u n)), ← text, List.splitOn_eq_splitOnP]
    cases rest : n.text.dropWhile Char.isDigit with
    | nil =>
      rw [rest] at reads
      rw [List.append_nil, List.splitOnP_eq_singleton (pointless whole_digits)]
      dsimp only
      rw [if_neg some_digit, read_int_digits u whole_digits]
      exact congrArg (some ∘ toDouble) (Option.some.inj reads)
    | cons d fraction =>
      rw [rest] at reads
      dsimp only at reads
      split at reads
      · rename_i point
        obtain ⟨rfl, fraction_digits⟩ := point
        have digits := List.all_eq_true.mp fraction_digits
        rw [List.splitOnP_append_cons _ _ (by rfl), List.splitOnP_eq_singleton (pointless whole_digits),
          List.splitOnP_eq_singleton (pointless digits)]
        dsimp only [List.singleton_append]
        rw [if_neg fun both => some_digit both.1, read_int_digits u whole_digits,
          read_int_digits u digits]
        exact congrArg (some ∘ toDouble) (Option.some.inj reads)
      · cases reads

end
end UnicodeText
