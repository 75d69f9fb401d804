import FastSafeIO.NearestFloat
import Mathlib.Data.List.DropRight
import Mathlib.Data.List.Basic

/-!
Text files as C programs write them and Python scripts read them: lines and stripping,
decimal numbers, comma separated fields.
-/
namespace TextTables
open NearestFloat

instance lawfulBEqText : LawfulBEq (List Char) := inferInstance

/-- What str.strip and str.split take for a space, among the ASCII characters. -/
def isSpace (c : Char) : Bool :=
  c.toNat = 32 || (9 ≤ c.toNat && c.toNat ≤ 13) || (28 ≤ c.toNat && c.toNat ≤ 31)

/-- A file of whole lines. -/
def writeLines (lines : List (List Char)) : List Char := lines.flatMap (· ++ ['\n'])

/-- The lines of a text, each with its end. -/
def readLines : List Char → List (List Char)
  | [] => []
  | c :: rest =>
    if c = '\n' then [c] :: readLines rest
    else
      match readLines rest with
      | [] => [[c]]
      | line :: lines => (c :: line) :: lines

def strip (l : List Char) : List Char := (l.dropWhile isSpace).rdropWhile isSpace

theorem solid_of_all {l : List Char} (all : l.all (!isSpace ·) = true) : ∀ c ∈ l, isSpace c = false := by
  intro c member
  have solid := List.all_eq_true.mp all c member
  simpa using solid

def chomp (l : List Char) : List Char := l.rdropWhile (· = '\n')

def joinLines (lines : List (List Char)) : List Char := List.intercalate ['\n'] lines

theorem read_lines_cons {line : List Char} (whole : '\n' ∉ line) (rest : List Char) :
    readLines (line ++ '\n' :: rest) = (line ++ ['\n']) :: readLines rest := by
  induction line with
  | nil => rfl
  | cons c line ih =>
    have other : c ≠ '\n' := fun same => whole (same ▸ List.mem_cons_self)
    have later := ih fun member => whole (List.mem_cons_of_mem _ member)
    simp [readLines, other, later]

theorem read_write_lines {lines : List (List Char)} (whole : ∀ l ∈ lines, '\n' ∉ l) :
    readLines (writeLines lines) = lines.map (· ++ ['\n']) := by
  induction lines with
  | nil => rfl
  | cons l rest ih =>
    have first := read_lines_cons (whole l List.mem_cons_self) (writeLines rest)
    have later := ih fun m member => whole m (List.mem_cons_of_mem _ member)
    calc readLines (writeLines (l :: rest)) = readLines (l ++ '\n' :: writeLines rest) := by
          simp [writeLines]
      _ = (l :: rest).map (· ++ ['\n']) := by rw [first, later, List.map_cons]

theorem read_last_line {line : List Char} (whole : '\n' ∉ line) (some_char : line ≠ []) :
    readLines line = [line] := by
  induction line with
  | nil => exact absurd rfl some_char
  | cons c line ih =>
    have other : c ≠ '\n' := fun same => whole (same ▸ List.mem_cons_self)
    cases line with
    | nil => simp [readLines, other]
    | cons d line =>
      have later := ih (fun member => whole (List.mem_cons_of_mem _ member)) (by simp)
      rw [readLines, if_neg other, later]

theorem chomp_line {line : List Char} (whole : '\n' ∉ line) : chomp (line ++ ['\n']) = line := by
  unfold chomp
  rw [List.rdropWhile_concat_pos _ _ _ (by simp), List.rdropWhile_eq_self_iff]
  intro some_char last
  exact whole (of_decide_eq_true last ▸ List.getLast_mem some_char)

theorem chomp_last_line {line : List Char} (whole : '\n' ∉ line) : chomp line = line := by
  unfold chomp
  rw [List.rdropWhile_eq_self_iff]
  intro some_char last
  exact whole (of_decide_eq_true last ▸ List.getLast_mem some_char)

theorem join_lines_cons (l m : List Char) (rest : List (List Char)) :
    joinLines (l :: m :: rest) = l ++ '\n' :: joinLines (m :: rest) := by
  simp [joinLines, List.intercalate_cons_cons]

theorem read_join_lines {lines : List (List Char)} (whole : ∀ l ∈ lines, '\n' ∉ l ∧ l ≠ []) :
    (readLines (joinLines lines)).map chomp = lines := by
  induction lines with
  | nil => rfl
  | cons l rest ih =>
    obtain ⟨first, some_char⟩ := whole l List.mem_cons_self
    cases rest with
    | nil =>
      have one : joinLines [l] = l := List.intercalate_singleton
      rw [one, read_last_line first some_char, List.map_singleton, chomp_last_line first]
    | cons m rest =>
      have later := ih fun k member => whole k (List.mem_cons_of_mem _ member)
      rw [join_lines_cons, read_lines_cons first, List.map_cons, chomp_line first, later]

theorem strip_line {line : List Char} (solid : ∀ c ∈ line, isSpace c = false) :
    strip (line ++ ['\n']) = line := by
  have front : (line ++ ['\n']).dropWhile isSpace = line ++ ['\n'] ∨ line = [] := by
    cases line with
    | nil => exact Or.inr rfl
    | cons c rest =>
      have head := solid c List.mem_cons_self
      exact Or.inl (by simp [head])
  unfold strip
  cases front with
  | inl front =>
    rw [front, List.rdropWhile_concat_pos _ _ _ (by decide), List.rdropWhile_eq_self_iff]
    intro some_char last
    rw [solid _ (List.getLast_mem some_char)] at last
    cases last
  | inr empty =>
    rw [empty]
    decide

/-- str.split, with the word that is being read. -/
def wordsFrom (carry : List Char) : List Char → List (List Char)
  | [] => if carry = [] then [] else [carry]
  | c :: rest =>
    if isSpace c then
      if carry = [] then wordsFrom [] rest else carry :: wordsFrom [] rest
    else wordsFrom (carry ++ [c]) rest

def words (l : List Char) : List (List Char) := wordsFrom [] l

theorem words_from_solid {word : List Char} (solid : ∀ c ∈ word, isSpace c = false)
    (carry rest : List Char) : wordsFrom carry (word ++ rest) = wordsFrom (carry ++ word) rest := by
  induction word generalizing carry with
  | nil => rw [List.nil_append, List.append_nil]
  | cons c word ih =>
    have later := ih (fun d member => solid d (List.mem_cons_of_mem _ member)) (carry ++ [c])
    rw [List.cons_append, wordsFrom, solid c List.mem_cons_self, if_neg Bool.false_ne_true, later]
    simp

theorem words_cons {word : List Char} {sep : Char} (solid : ∀ c ∈ word, isSpace c = false)
    (some_char : word ≠ []) (space : isSpace sep = true) (rest : List Char) :
    words (word ++ sep :: rest) = word :: words rest := by
  unfold words
  rw [words_from_solid solid, List.nil_append, wordsFrom, space, if_pos rfl, if_neg some_char]

theorem words_space {sep : Char} (space : isSpace sep = true) (rest : List Char) :
    words (sep :: rest) = words rest := by
  unfold words
  rw [wordsFrom, space, if_pos rfl, if_pos rfl]

/-- printf %llu -/
def printNat (n : Nat) : List Char := Nat.toDigits 10 n

/-- int(), of digits alone. -/
def readNat (l : List Char) : Option Nat :=
  if l ≠ [] ∧ l.all Char.isDigit then some (Nat.ofDigitChars 10 l 0) else none

def padded (places n : Nat) : List Char :=
  List.replicate (places - (printNat n).length) '0' ++ printNat n

/-- printf %.<places>f of a number that has been rounded to n units of the last place. -/
def printFixed (places : Nat) (negative : Bool) (n : Nat) : List Char :=
  (if negative then ['-'] else []) ++
    (printNat (n / 10 ^ places) ++ '.' :: padded places (n % 10 ^ places))

def readUnsigned (l : List Char) : Option ℚ :=
  let whole := l.takeWhile Char.isDigit
  if whole = [] then none
  else
    match l.dropWhile Char.isDigit with
    | [] => some (Nat.ofDigitChars 10 whole 0 : ℚ)
    | c :: fraction =>
      if c = '.' ∧ fraction.all Char.isDigit then
        some ((Nat.ofDigitChars 10 whole 0 : ℚ) +
          (Nat.ofDigitChars 10 fraction 0 : ℚ) / 10 ^ fraction.length)
      else none

/-- float(), of digits with a sign and a point at most. -/
def readDecimal : List Char → Option ℚ
  | [] => none
  | c :: rest => if c = '-' then (readUnsigned rest).map (- ·) else readUnsigned (c :: rest)

theorem print_nat_digits (n : Nat) : ∀ c ∈ printNat n, c.isDigit = true :=
  fun _ member => Nat.isDigit_of_mem_toDigits (by decide) (by decide) member

theorem print_nat_ne_nil (n : Nat) : printNat n ≠ [] := Nat.toDigits_ne_nil

theorem read_print_nat (n : Nat) : readNat (printNat n) = some n := by
  have digits : (printNat n).all Char.isDigit = true := List.all_eq_true.mpr (print_nat_digits n)
  unfold readNat
  rw [if_pos ⟨print_nat_ne_nil n, digits⟩]
  exact congrArg some Nat.ofDigitChars_ten_toDigits

theorem padded_digits (places n : Nat) : ∀ c ∈ padded places n, c.isDigit = true := by
  intro c member
  cases List.mem_append.mp member with
  | inl zero =>
    rw [List.eq_of_mem_replicate zero]
    decide
  | inr digit => exact print_nat_digits n c digit

theorem read_padded (places n : Nat) : Nat.ofDigitChars 10 (padded places n) 0 = n := by
  unfold padded printNat
  rw [Nat.ofDigitChars_append, Nat.ofDigitChars_replicate_zero, Nat.mul_zero,
    Nat.ofDigitChars_ten_toDigits]

theorem length_padded {places n : Nat} (positive : 0 < places) (small : n < 10 ^ places) :
    (padded places n).length = places := by
  have fits : (printNat n).length ≤ places :=
    (Nat.length_toDigits_le_iff (by decide) positive).mpr small
  unfold padded
  rw [List.length_append, List.length_replicate]
  omega

theorem read_unsigned_fixed {places : Nat} (positive : 0 < places) (n : Nat) :
    readUnsigned (printNat (n / 10 ^ places) ++ '.' :: padded places (n % 10 ^ places)) =
      some ((n : ℚ) / 10 ^ places) := by
  have digits := print_nat_digits (n / 10 ^ places)
  have point : ('.').isDigit = false := by decide
  have size := length_padded positive (Nat.mod_lt n (Nat.pow_pos (by decide : 0 < 10)))
  have fraction : (padded places (n % 10 ^ places)).all Char.isDigit = true :=
    List.all_eq_true.mpr (padded_digits _ _)
  unfold readUnsigned
  dsimp only
  rw [List.takeWhile_append_of_pos digits, List.dropWhile_append_of_pos digits,
    List.takeWhile_cons_of_neg (by simp [point]), List.dropWhile_cons_of_neg (by simp [point]),
    List.append_nil, if_neg (print_nat_ne_nil _)]
  dsimp only
  rw [if_pos ⟨rfl, fraction⟩, size, read_padded]
  unfold printNat
  rw [Nat.ofDigitChars_ten_toDigits]
  have split : (n : ℚ) = (10 : ℚ) ^ places * (n / 10 ^ places : ℕ) + (n % 10 ^ places : ℕ) := by
    exact_mod_cast (Nat.div_add_mod n (10 ^ places)).symm
  have nonzero : (10 : ℚ) ^ places ≠ 0 := pow_ne_zero _ (by norm_num)
  congr 1
  rw [eq_div_iff nonzero, add_mul, div_mul_cancel₀ _ nonzero]
  linarith

/-- What is printed with a number of decimal places is read back as that number. -/
theorem read_print_fixed {places : Nat} (positive : 0 < places) (negative : Bool) (n : Nat) :
    readDecimal (printFixed places negative n) =
      some (if negative then - ((n : ℚ) / 10 ^ places) else (n : ℚ) / 10 ^ places) := by
  have unsigned := read_unsigned_fixed positive n
  unfold printFixed
  cases negative with
  | true =>
    rw [if_pos rfl, if_pos rfl, List.singleton_append]
    rw [readDecimal, if_pos rfl, unsigned]
    rfl
  | false =>
    rw [if_neg Bool.false_ne_true, if_neg Bool.false_ne_true, List.nil_append]
    have digits := print_nat_digits (n / 10 ^ places)
    cases whole : printNat (n / 10 ^ places) with
    | nil => exact absurd whole (print_nat_ne_nil _)
    | cons c rest =>
      have digit := digits c (whole ▸ List.mem_cons_self)
      have other : c ≠ '-' := by
        intro same
        rw [same] at digit
        exact absurd digit (by decide)
      rw [whole] at unsigned
      exact (if_neg other).trans unsigned

/-- The nearest double, of a number far from the ends of the exponent range. -/
def toDouble (x : ℚ) : ℚ := roundTo 52 x

theorem to_double_int {n : ℤ} (small : |n| < 2 ^ 53) : toDouble n = n :=
  round_to_keeps (representable_int small)

/-- float() of an int; none is an OverflowError. -/
def toFloat (n : ℤ) : Option ℚ := if |toDouble n| < 2 ^ 1024 then some (toDouble n) else none

theorem to_float_of_lt {n : ℤ} (small : |n| < 2 ^ 65) : toFloat n = some (toDouble n) := by
  have size : |(n : ℚ)| < 2 ^ 65 := by exact_mod_cast small
  have error : |toDouble n - n| ≤ |(n : ℚ)| / 2 ^ 53 := round_to_error 52 n
  have half : |(n : ℚ)| / 2 ^ 53 ≤ |(n : ℚ)| := div_le_self (abs_nonneg _) (one_le_pow₀ one_le_two)
  have near := abs_sub_abs_le_abs_sub (toDouble n) n
  have double : |toDouble n| < 2 ^ 1024 :=
    calc |toDouble n| ≤ |(n : ℚ)| * 2 := by linarith
      _ < 2 ^ 65 * 2 := mul_lt_mul_of_pos_right size two_pos
      _ = 2 ^ 66 := (pow_succ 2 65).symm
      _ < 2 ^ 1024 := pow_lt_pow_right₀ one_lt_two (by decide)
  unfold toFloat
  rw [if_pos double]

/-- printf %.<places>f -/
def printRounded (places : Nat) (x : ℚ) : List Char :=
  printFixed places (x < 0) (roundEven (|x| * 10 ^ places)).toNat

theorem read_print_rounded {places : Nat} (positive : 0 < places) (x : ℚ) :
    readDecimal (printRounded places x) = some (rounded places x) := by
  unfold printRounded rounded
  rw [read_print_fixed positive]
  by_cases negative : x < 0 <;> simp [negative]

/-- A character of a printed number. -/
def isNumeric (c : Char) : Bool := c.isDigit || c = '.' || c = '-'

theorem print_nat_numeric (n : Nat) : ∀ c ∈ printNat n, isNumeric c = true := by
  intro c member
  simp [isNumeric, print_nat_digits n c member]

theorem print_fixed_numeric (places : Nat) (negative : Bool) (n : Nat) :
    ∀ c ∈ printFixed places negative n, isNumeric c = true := by
  intro c member
  unfold printFixed at member
  simp only [List.mem_append, List.mem_cons] at member
  rcases member with sign | whole | point | fraction
  · cases negative with
    | false => cases sign
    | true =>
      rw [List.mem_singleton.mp sign]
      decide
  · exact print_nat_numeric _ c whole
  · rw [point]
    decide
  · simp [isNumeric, padded_digits _ _ c fraction]

theorem print_fixed_ne_nil (places : Nat) (negative : Bool) (n : Nat) :
    printFixed places negative n ≠ [] := by
  simp [printFixed]

theorem numeric_char {c : Char} (numeric : isNumeric c = true) :
    c ≠ ',' ∧ c ≠ '"' ∧ isSpace c = false := by
  simp only [isNumeric, Bool.or_eq_true, decide_eq_true_eq] at numeric
  rcases numeric with (digit | rfl) | rfl
  · have range : 48 ≤ c.toNat ∧ c.toNat ≤ 57 := Char.isDigit_iff_toNat.mp digit
    have space : isSpace c = false := by
      unfold isSpace
      simp only [Bool.or_eq_false_iff, Bool.and_eq_false_iff, decide_eq_false_iff_not]
      omega
    refine ⟨?_, ?_, space⟩
    · intro comma
      rw [comma] at digit
      exact absurd digit (by decide)
    · intro quote
      rw [quote] at digit
      exact absurd digit (by decide)
  · decide
  · decide

theorem print_nat_solid (n : Nat) : ∀ c ∈ printNat n, isSpace c = false := by
  intro c member
  exact (numeric_char (print_nat_numeric n c member)).2.2

/-- Where the csv module is in a line: at the start of a field, in one, between quotes, or
    after a quote that may end the field. -/
inductive CsvState where
  | start
  | inField
  | quoted
  | quote
  deriving DecidableEq

def ontoFirst (c : Char) : List (List Char) → List (List Char)
  | [] => [[c]]
  | field :: fields => (c :: field) :: fields

/-- The fields of a line in the excel dialect. -/
def csvFields : CsvState → List Char → List (List Char)
  | _, [] => [[]]
  | .start, c :: rest =>
    if c = '"' then csvFields .quoted rest
    else if c = ',' then [] :: csvFields .start rest
    else ontoFirst c (csvFields .inField rest)
  | .inField, c :: rest =>
    if c = ',' then [] :: csvFields .start rest else ontoFirst c (csvFields .inField rest)
  | .quoted, c :: rest =>
    if c = '"' then csvFields .quote rest else ontoFirst c (csvFields .quoted rest)
  | .quote, c :: rest =>
    if c = '"' then ontoFirst c (csvFields .quoted rest)
    else if c = ',' then [] :: csvFields .start rest
    else ontoFirst c (csvFields .inField rest)

def csvLine (fields : List (List Char)) : List Char := List.intercalate [','] fields

/-- csv.DictReader: the first line names the fields of the others, blank lines are left out. -/
def dictReader (content : List Char) : List (List (List Char × List Char)) :=
  match ((readLines content).map chomp).filter (· ≠ []) with
  | [] => []
  | header :: rows => rows.map fun row => (csvFields .start header).zip (csvFields .start row)

/-- A field that needs no quotes and that strip leaves alone. -/
structure Plain (field : List Char) : Prop where
  some_char : field ≠ []
  chars : ∀ c ∈ field, c ≠ ',' ∧ c ≠ '"' ∧ isSpace c = false

theorem csv_field_end {field : List Char} (chars : ∀ c ∈ field, c ≠ ',') :
    csvFields .inField field = [field] := by
  induction field with
  | nil => rfl
  | cons c rest ih =>
    rw [csvFields, if_neg (chars c List.mem_cons_self),
      ih fun d member => chars d (List.mem_cons_of_mem _ member)]
    rfl

theorem csv_field_next {field : List Char} (chars : ∀ c ∈ field, c ≠ ',') (rest : List Char) :
    csvFields .inField (field ++ ',' :: rest) = field :: csvFields .start rest := by
  induction field with
  | nil => rfl
  | cons c field ih =>
    have later := ih fun d member => chars d (List.mem_cons_of_mem _ member)
    rw [List.cons_append, csvFields, if_neg (chars c List.mem_cons_self), later]
    rfl

theorem csv_start {c : Char} (comma : c ≠ ',') (quote : c ≠ '"') (rest : List Char) :
    csvFields .start (c :: rest) = csvFields .inField (c :: rest) := by
  rw [csvFields, csvFields, if_neg quote, if_neg comma]

/-- Fields that need no quotes are read back from their line. -/
theorem csv_fields_line {fields : List (List Char)} (plain : ∀ f ∈ fields, Plain f)
    (some_field : fields ≠ []) : csvFields .start (csvLine fields) = fields := by
  induction fields with
  | nil => exact absurd rfl some_field
  | cons field rest ih =>
    have first := plain field List.mem_cons_self
    have commas : ∀ c ∈ field, c ≠ ',' := fun c member => (first.chars c member).1
    obtain ⟨c, chars, rfl⟩ := List.exists_cons_of_ne_nil first.some_char
    obtain ⟨comma, quote, _⟩ := first.chars c List.mem_cons_self
    cases rest with
    | nil =>
      have one : csvLine [c :: chars] = c :: chars := List.intercalate_singleton
      rw [one, csv_start comma quote, csv_field_end commas]
    | cons next rest =>
      have later := ih (fun f member => plain f (List.mem_cons_of_mem _ member)) (by simp)
      have line : csvLine ((c :: chars) :: next :: rest) =
          (c :: chars) ++ ',' :: csvLine (next :: rest) := by
        simp [csvLine, List.intercalate_cons_cons]
      calc csvFields .start (csvLine ((c :: chars) :: next :: rest))
          = csvFields .inField ((c :: chars) ++ ',' :: csvLine (next :: rest)) := by
            rw [line]
            exact csv_start comma quote _
        _ = (c :: chars) :: next :: rest := by rw [csv_field_next commas, later]

theorem csv_line_chars {fields : List (List Char)} (plain : ∀ f ∈ fields, Plain f) :
    ∀ c ∈ csvLine fields, isSpace c = false := by
  induction fields with
  | nil =>
    intro c member
    cases member
  | cons field rest ih =>
    intro c member
    have first := plain field List.mem_cons_self
    cases rest with
    | nil =>
      rw [csvLine, List.intercalate_singleton] at member
      exact (first.chars c member).2.2
    | cons next rest =>
      rw [csvLine, List.intercalate_cons_cons, List.append_assoc, List.singleton_append,
        List.mem_append, List.mem_cons] at member
      rcases member with mine | comma | later
      · exact (first.chars c mine).2.2
      · rw [comma]
        decide
      · exact ih (fun f member => plain f (List.mem_cons_of_mem _ member)) c later

theorem csv_line_ne_nil {fields : List (List Char)} (plain : ∀ f ∈ fields, Plain f)
    (some_field : fields ≠ []) : csvLine fields ≠ [] := by
  intro empty
  have back := csv_fields_line plain some_field
  rw [empty] at back
  have first := plain [] (back ▸ List.mem_cons_self)
  exact first.some_char rfl

/-- A table of plain fields, a line for each row under the header. -/
structure PlainTable (header : List (List Char)) (rows : List (List (List Char))) : Prop where
  columns : header ≠ []
  names : ∀ f ∈ header, Plain f
  width : ∀ row ∈ rows, row.length = header.length
  rows : ∀ row ∈ rows, ∀ f ∈ row, Plain f

section
variable {header : List (List Char)} {rows : List (List (List Char))} (table : PlainTable header rows)
include table

theorem table_row_ne_nil : ∀ row ∈ rows, row ≠ [] := by
  intro row member empty
  have width := table.width row member
  rw [empty] at width
  exact table.columns (List.length_eq_zero_iff.mp width.symm)

theorem table_lines : ∀ line ∈ csvLine header :: rows.map csvLine, '\n' ∉ line ∧ line ≠ [] := by
  have whole : ∀ fields : List (List Char), (∀ f ∈ fields, Plain f) → '\n' ∉ csvLine fields := by
    intro fields plain member
    exact absurd (csv_line_chars plain '\n' member) (by decide)
  intro line member
  rcases List.mem_cons.mp member with rfl | later
  · exact ⟨whole header table.names, csv_line_ne_nil table.names table.columns⟩
  · obtain ⟨row, from_row, rfl⟩ := List.mem_map.mp later
    exact ⟨whole row (table.rows row from_row),
      csv_line_ne_nil (table.rows row from_row) (table_row_ne_nil table row from_row)⟩

/-- A file that has the lines of a table, however the last one ends. -/
theorem dict_reader_lines {content : List Char}
    (lines : (readLines content).map chomp = csvLine header :: rows.map csvLine) :
    dictReader content = rows.map fun row => header.zip row := by
  have kept : (csvLine header :: rows.map csvLine).filter (· ≠ []) =
      csvLine header :: rows.map csvLine :=
    List.filter_eq_self.mpr fun line member => decide_eq_true (table_lines table line member).2
  unfold dictReader
  rw [lines, kept]
  dsimp only
  rw [List.map_map]
  apply List.map_congr_left
  intro row member
  rw [Function.comp_apply, csv_fields_line table.names table.columns,
    csv_fields_line (table.rows row member) (table_row_ne_nil table row member)]

theorem dict_reader_table :
    dictReader (csvLine header ++ '\n' :: joinLines (rows.map csvLine)) =
      rows.map fun row => header.zip row := by
  have first := (table_lines table _ List.mem_cons_self).1
  have later : ∀ line ∈ rows.map csvLine, '\n' ∉ line ∧ line ≠ [] := fun line member =>
    table_lines table line (List.mem_cons_of_mem _ member)
  apply dict_reader_lines table
  rw [read_lines_cons first, List.map_cons, chomp_line first, read_join_lines later]

theorem dict_reader_written :
    dictReader (writeLines (csvLine header :: rows.map csvLine)) = rows.map fun row => header.zip row := by
  have whole := table_lines table
  have chomped : ∀ line ∈ csvLine header :: rows.map csvLine,
      (chomp ∘ (· ++ ['\n'])) line = id line := fun line member => chomp_line (whole line member).1
  apply dict_reader_lines table
  rw [read_write_lines fun line member => (whole line member).1, List.map_map,
    List.map_congr_left chomped, List.map_id]

end

end TextTables
