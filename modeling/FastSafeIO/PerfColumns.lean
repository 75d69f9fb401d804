import FastSafeIO.PerfReport

/-! How the regular expressions read the lines that perf prints. -/
namespace PerfColumns
open Regex TextTables UnicodeText PerfReport

section
variable {u : Unicode} {w gap : List Char} {c : Char}

/-- A column in its place: its value ends where the unit or the next gap begins. -/
structure Placed (u : Unicode) (p : Char → Bool) (gap value unit rest : List Char) : Prop where
  some_gap : gap ≠ []
  blank : ∀ c ∈ gap, u.isSpace c = true
  some_char : value ≠ []
  fits : ∀ c ∈ value, p c = true
  solid : ∀ c ∈ value, u.isSpace c = false
  ends : ∀ c ∈ (unit ++ rest).head?, p c = false

theorem head_column {name : Column} {p : Char → Bool} {value rest t : List Char} {unit : String}
    {r : Pattern Char Column} {groups : List (Column × List Char)}
    (placed : Placed u p gap value unit.toList rest)
    (later : ∀ first, (ways r first rest).head? = some ⟨groups, t⟩) (first : Bool) :
    (ways (column u name p unit r) first (gap ++ (value ++ (unit.toList ++ rest)))).head? =
      some ⟨(name, value) :: groups, t⟩ := by
  have spaces := head_some_of (ν := Column) placed.some_gap placed.blank
    (head_of_append placed.some_char placed.solid (unit.toList ++ rest)) first
  have inner := head_some_of (ν := Column) placed.some_char placed.fits placed.ends
  unfold column
  apply head_seq spaces
  intro first
  apply head_seq (head_group (inner first))
  intro first
  exact head_seq (head_text unit.toList rest first) later

theorem row_end (rest : List Char) (whole : Unbroken rest) (first : Bool) :
    (ways (.seq (.many (· ≠ '\n')) .stop : Pattern Char Column) first rest).head? =
      some ⟨[], []⟩ := by
  have inline : ∀ c ∈ rest, decide (c ≠ '\n') = true := by
    intro c member
    apply decide_eq_true
    intro newline
    have boundary := whole c member
    rw [newline] at boundary
    exact absurd boundary (by decide)
  have all := head_many (ν := Column) inline (l := []) (by simp) first
  rw [List.append_nil] at all
  exact head_seq all head_stop

end

section
variable {u : Unicode} (r : Row u)

theorem number_placed {gap rest : List Char} (blank : gap ≠ [] ∧ Blank u gap) (n : Number)
    {unit : String} (ends : ∀ c ∈ (unit.toList ++ rest).head?, u.inNumber c = false) :
    Placed u u.inNumber gap n.text unit.toList rest where
  some_gap := blank.1
  blank := fun c member => (blank.2 c member).1
  some_char := (unsigned_chars n.reads).1
  fits := number_in_number u n
  solid := number_no_space u n
  ends := ends

theorem unit_ends (u : Unicode) {unit : String} (known : unit = "%" ∨ unit = "us") (rest : List Char) :
    ∀ c ∈ (unit.toList ++ rest).head?, u.inNumber c = false := by
  intro c first
  rcases known with rfl | rfl
  · have percent : '%' = c := by simpa using first
    rw [← percent]
    rfl
  · have letter : 'u' = c := by simpa using first
    rw [← letter]
    rfl

theorem samples_placed {rest : List Char} (ends : ∀ c ∈ rest.head?, u.isDigit c = false) :
    Placed u u.isDigit (r.gap .samples) (printNat r.samples) "".toList rest where
  some_gap := (r.gapBlank .samples).1
  blank := fun c member => ((r.gapBlank .samples).2 c member).1
  some_char := print_nat_ne_nil r.samples
  fits := fun c member => digit_is_digit u (print_nat_digits r.samples c member)
  solid := fun c member => digit_no_space u (print_nat_digits r.samples c member)
  ends := ends

/-- What the groups hold after a printed row. -/
def rowGroups : List (Column × List Char) :=
  [(.exitReason, r.exitReason), (.samples, printNat r.samples), (.samplesPct, r.samplesPct.text),
    (.timePct, r.timePct.text), (.minTime, r.minTime.text), (.maxTime, r.maxTime.text),
    (.avgTime, r.avgTime.text)]

theorem gap_space (c : Column) (l : List Char) : ∀ d ∈ (r.gap c ++ l).head?, u.isSpace d = true :=
  head_of_append (r.gapBlank c).1 (fun d member => ((r.gapBlank c).2 d member).1) l

theorem samples_column {rest t : List Char} {next : Pattern Char Column}
    {groups : List (Column × List Char)} (ends : ∀ c ∈ rest.head?, u.isDigit c = false)
    (later : ∀ first, (ways next first rest).head? = some ⟨groups, t⟩) (first : Bool) :
    (ways (column u .samples u.isDigit "" next) first
      (r.gap .samples ++ (printNat r.samples ++ rest))).head? =
      some ⟨(.samples, printNat r.samples) :: groups, t⟩ :=
  head_column (samples_placed r ends) later first

theorem number_column {name : Column} {n : Number} {unit : String} {rest t : List Char}
    {next : Pattern Char Column} {groups : List (Column × List Char)} (known : unit = "%" ∨ unit = "us")
    (later : ∀ first, (ways next first rest).head? = some ⟨groups, t⟩) (first : Bool) :
    (ways (column u name u.inNumber unit next) first
      (r.gap name ++ (n.text ++ (unit.toList ++ rest)))).head? =
      some ⟨(name, n.text) :: groups, t⟩ :=
  head_column (number_placed (r.gapBlank name) n (unit_ends u known rest)) later first

theorem row_matches : matchHead (rowRe u) r.text = some ⟨rowGroups r, []⟩ := by
  have reason_solid : ∀ c ∈ r.exitReason, (!u.isSpace c) = true := by
    intro c member
    simp [(r.solid c member).1]
  have start : (ways (.start : Pattern Char Column) true r.text).head? = some ⟨[], r.text⟩ := rfl
  unfold matchHead rowRe
  apply head_seq start
  intro first
  apply head_seq (head_many (fun c member => (r.leadBlank c member).1)
    (head_of_append r.some_char (fun c member => (r.solid c member).1) _) first)
  intro first
  apply head_seq (head_group (head_some_of r.some_char reason_solid
    (fun c next => by simp [gap_space r .samples _ c next]) first))
  apply samples_column r fun c next => space_no_digit (gap_space r .samplesPct _ c next)
  apply number_column r (Or.inl rfl)
  apply number_column r (Or.inl rfl)
  apply number_column r (Or.inr rfl)
  apply number_column r (Or.inr rfl)
  apply number_column r (Or.inr rfl)
  exact row_end r.rest r.whole

theorem read_row : readRow u ⟨rowGroups r, []⟩ = some r.exit := by
  have count : toFloat (r.samples : ℤ) = some (toDouble r.samples) := by
    rw [to_float_of_lt]
    · rw [Int.cast_natCast]
    · have small : (r.samples : ℤ) < 2 ^ 64 := by exact_mod_cast r.fits
      rw [Nat.abs_cast]
      exact small.trans (pow_lt_pow_right₀ one_lt_two (by decide))
  simp [readRow, count, Way.text, rowGroups, read_float_number, read_int_print, Row.exit]

theorem digit_no_boundary (digit : c.isDigit = true) : isBoundary c = false := by
  have range := digit_range digit
  unfold isBoundary
  rw [List.contains_eq_mem]
  apply decide_eq_false
  intro member
  simp at member
  omega

theorem number_no_boundary (n : Number) : Unbroken n.text := by
  intro c member
  rcases (unsigned_chars n.reads).2 c member with digit | rfl
  · exact digit_no_boundary digit
  · rfl

theorem unbroken_append {l m : List Char} (left : Unbroken l) (right : Unbroken m) :
    Unbroken (l ++ m) :=
  List.forall_mem_append.mpr ⟨left, right⟩

theorem unbroken_blank (blank : Blank u gap) : Unbroken gap := fun c member => (blank c member).2

theorem unbroken_nat (n : Nat) : Unbroken (printNat n) := fun c member =>
  digit_no_boundary (print_nat_digits n c member)

theorem unbroken_all {l : List Char} (all : l.all (!isBoundary ·) = true) : Unbroken l := by
  simpa [Unbroken] using all

theorem unbroken_unit {unit : String} (known : unit = "%" ∨ unit = "us") : Unbroken unit.toList := by
  rcases known with rfl | rfl
  · exact unbroken_all (by decide)
  · exact unbroken_all (by decide)

theorem row_unbroken : Unbroken r.text := by
  have gap := fun c => unbroken_blank (r.gapBlank c).2
  have number := number_no_boundary
  have percent := unbroken_unit (Or.inl rfl)
  have unit := unbroken_unit (Or.inr rfl)
  unfold Row.text
  apply unbroken_append (unbroken_blank r.leadBlank)
  apply unbroken_append fun c member => (r.solid c member).2
  apply unbroken_append (gap _)
  apply unbroken_append (unbroken_nat _)
  apply unbroken_append (gap _)
  apply unbroken_append (number _)
  apply unbroken_append percent
  apply unbroken_append (gap _)
  apply unbroken_append (number _)
  apply unbroken_append percent
  apply unbroken_append (gap _)
  apply unbroken_append (number _)
  apply unbroken_append unit
  apply unbroken_append (gap _)
  apply unbroken_append (number _)
  apply unbroken_append unit
  apply unbroken_append (gap _)
  apply unbroken_append (number _)
  exact unbroken_append unit r.whole

end

section
variable {u : Unicode} (t : TotalLine u)

/-- What stands after the first word of a line. -/
def afterName (u : Unicode) (line : List Char) : List Char :=
  ((line.dropWhile u.isSpace).dropWhile (!u.isSpace ·)).dropWhile u.isSpace

theorem drop_class {p : Char → Bool} {w l : List Char} (all : ∀ c ∈ w, p c = true)
    (last : ∀ c ∈ l.head?, p c = false) : (w ++ l).dropWhile p = l := by
  rw [List.dropWhile_append_of_pos all]
  cases l with
  | nil => rfl
  | cons c l => rw [List.dropWhile_cons_of_neg (by simp [last c rfl])]

theorem row_digit {line : List Char} (row : (matchHead (rowRe u) line).isSome = true) :
    ∃ d ∈ (afterName u line).head?, u.isDigit d = true := by
  obtain ⟨w, after, same, spans⟩ := (match_head_iff _ _).mp row
  obtain ⟨none, w, rfl, ⟨rfl, _⟩, spans⟩ := spans
  obtain ⟨lead, w, rfl, blank, spans⟩ := spans
  obtain ⟨name, w, rfl, word, spans⟩ := spans
  obtain ⟨gap, w, rfl, space, spans⟩ := spans
  obtain ⟨digits, w, rfl, count, _⟩ := spans
  obtain ⟨some_char, solid⟩ := some_of_spans word
  obtain ⟨some_gap, spaces⟩ := some_of_spans space
  obtain ⟨some_digit, all_digits⟩ := some_of_spans count
  have no_space : ∀ c ∈ name, u.isSpace c = false := by
    intro c member
    simpa using solid c member
  have digit_solid : ∀ c ∈ digits, u.isSpace c = false := by
    intro c member
    cases space : u.isSpace c with
    | false => rfl
    | true => exact absurd (all_digits c member) (by simp [space_no_digit space])
  have text : afterName u line = digits ++ (w ++ after) := by
    unfold afterName
    rw [same]
    simp only [List.nil_append, List.append_assoc]
    rw [drop_class blank (head_of_append some_char no_space _),
      drop_class solid (head_of_append some_gap (fun c member => by simp [spaces c member]) _),
      drop_class spaces (head_of_append some_digit digit_solid _)]
  obtain ⟨d, rest, rfl⟩ := List.exists_cons_of_ne_nil some_digit
  rw [text]
  exact ⟨d, rfl, all_digits d List.mem_cons_self⟩

theorem after_total : ∃ rest, afterName u t.text = 'S' :: rest := by
  let count := printNat t.samples ++ (",".toList ++ (t.gap ++
    ("Total events handled time:".toList ++ (t.time.text ++ (t.unit.text ++ ".".toList)))))
  have text : t.text = t.lead ++ ("Total".toList ++ (" ".toList ++ ("Samples:".toList ++ count))) := rfl
  have blank : ∀ c ∈ t.lead, u.isSpace c = true := fun c member => (t.leadBlank c member).1
  have word : ∀ c ∈ "Total".toList, (!u.isSpace c) = true := by
    intro c member
    have letter : c = 'T' ∨ c = 'o' ∨ c = 't' ∨ c = 'a' ∨ c = 'l' := by simpa using member
    rcases letter with rfl | rfl | rfl | rfl | rfl <;> rfl
  have gap : ∀ c ∈ " ".toList, u.isSpace c = true := by
    intro c member
    have blank : c = ' ' := by simpa using member
    rw [blank]
    rfl
  have next : ∀ c ∈ ("Samples:".toList ++ count).head?, u.isSpace c = false := by
    intro c first
    have letter : 'S' = c := by simpa using first
    rw [← letter]
    rfl
  unfold afterName
  rw [text, drop_class blank (head_of_append (by decide) (fun c member => by simpa using word c member) _),
    drop_class word (head_of_append (by decide) (fun c member => by simp [gap c member]) _), drop_class gap next]
  exact ⟨_, rfl⟩

theorem total_no_row : matchHead (rowRe u) t.text = none := by
  cases found : matchHead (rowRe u) t.text with
  | none => rfl
  | some m =>
    have row : (matchHead (rowRe u) t.text).isSome = true := by
      rw [found]
      rfl
    obtain ⟨d, first, digit⟩ := row_digit row
    obtain ⟨rest, after⟩ := after_total t
    rw [after] at first
    have same : 'S' = d := by simpa using first
    have letter : u.isDigit 'S' = false := rfl
    rw [← same, letter] at digit
    cases digit

theorem total_unbroken : Unbroken t.text := by
  have unit : Unbroken t.unit.text := by
    cases t.unit with
    | us => exact unbroken_unit (Or.inr rfl)
    | ms => exact unbroken_all (by decide)
  have label : Unbroken "Total Samples:".toList := unbroken_all (by decide)
  have comma : Unbroken ",".toList := unbroken_all (by decide)
  have handled : Unbroken "Total events handled time:".toList := unbroken_all (by decide)
  have stop : Unbroken ".".toList := unbroken_all (by decide)
  unfold TotalLine.text
  apply unbroken_append (unbroken_blank t.leadBlank)
  apply unbroken_append label
  apply unbroken_append (unbroken_nat _)
  apply unbroken_append comma
  apply unbroken_append (unbroken_blank t.gapBlank)
  apply unbroken_append handled
  apply unbroken_append (number_no_boundary _)
  exact unbroken_append unit stop

/-- What the groups hold after a total line in us. -/
def totalGroups : List (Column × List Char) :=
  [(.totalSamples, printNat t.samples), (.totalTimeUs, t.time.text)]

theorem total_head (us : t.unit = .us) (first : Bool) :
    (ways (totalRe u) first ("Total Samples:".toList ++ (printNat t.samples ++ (",".toList ++ (t.gap ++
      ("Total events handled time:".toList ++ (t.time.text ++ (t.unit.text ++ ".".toList)))))))).head? =
      some ⟨totalGroups t, ".".toList⟩ := by
  have comma : ∀ c ∈ (",".toList ++ (t.gap ++ ("Total events handled time:".toList ++
      (t.time.text ++ (t.unit.text ++ ".".toList))))).head?, u.isDigit c = false := by
    intro c next
    have mark : ',' = c := by simpa using next
    rw [← mark]
    rfl
  have letter : ∀ c ∈ ("Total events handled time:".toList ++
      (t.time.text ++ (t.unit.text ++ ".".toList))).head?, u.isSpace c = false := by
    intro c next
    have mark : 'T' = c := by simpa using next
    rw [← mark]
    rfl
  have count := head_some_of (ν := Column) (print_nat_ne_nil t.samples)
    (fun c member => digit_is_digit u (print_nat_digits t.samples c member)) comma
  have blank := head_many (ν := Column) (fun c member => (t.gapBlank c member).1) letter
  have ends : ∀ c ∈ (t.unit.text ++ ".".toList).head?, u.inNumber c = false := by
    rw [us]
    exact unit_ends u (Or.inr rfl) _
  have time := head_some_of (ν := Column) (unsigned_chars t.time.reads).1
    (number_in_number u t.time) ends
  unfold totalRe
  apply head_seq (head_text _ _ first)
  intro first
  apply head_seq (head_group (count first))
  intro first
  apply head_seq (head_text _ _ first)
  intro first
  apply head_seq (blank first)
  intro first
  apply head_seq (head_text _ _ first)
  intro first
  apply head_seq (head_group (time first))
  rw [us]
  exact head_text _ _

theorem search_skips {lead l : List Char} (blank : ∀ c ∈ lead, u.isSpace c = true) (first : Bool) :
    ∃ first', searchFrom (totalRe u) first (lead ++ l) = searchFrom (totalRe u) first' l := by
  induction lead generalizing first with
  | nil => exact ⟨first, rfl⟩
  | cons c lead ih =>
    obtain ⟨first', rest⟩ := ih (fun d member => blank d (List.mem_cons_of_mem c member)) false
    have other : c ≠ 'T' := by
      intro same
      have space := blank c List.mem_cons_self
      rw [same] at space
      cases space
    have unlike : ¬ "Total Samples:".toList <+: c :: (lead ++ l) := by
      intro starts
      exact other (List.cons_prefix_cons.mp starts).1.symm
    have none : ways (totalRe u) first (c :: (lead ++ l)) = [] := by
      unfold totalRe
      rw [ways_seq, ways_text, if_neg unlike, List.flatMap_nil]
    exact ⟨first', by rw [List.cons_append, search_next none, rest]⟩

theorem total_found (us : t.unit = .us) :
    search (totalRe u) t.text = some ⟨totalGroups t, ".".toList⟩ := by
  obtain ⟨first, skip⟩ := search_skips (u := u) (l := _) (fun c member => (t.leadBlank c member).1) true
  unfold search TotalLine.text
  rw [skip]
  exact search_here (total_head t us first)

theorem total_letter {line : List Char} (found : (search (totalRe u) line).isSome = true) :
    'u' ∈ line := by
  obtain ⟨x, w, after, rfl, spans⟩ := (search_iff _ _).mp found
  obtain ⟨label, w, rfl, _, spans⟩ := spans
  obtain ⟨count, w, rfl, _, spans⟩ := spans
  obtain ⟨comma, w, rfl, _, spans⟩ := spans
  obtain ⟨gap, w, rfl, _, spans⟩ := spans
  obtain ⟨handled, w, rfl, _, spans⟩ := spans
  obtain ⟨time, w, rfl, _, unit⟩ := spans
  have text : w = "us".toList := unit
  simp [text]

theorem ms_letters (ms : t.unit = .ms) : 'u' ∉ t.text := by
  intro member
  have blank : ∀ {gap : List Char}, Blank u gap → 'u' ∉ gap := by
    intro gap spaces inside
    have space := (spaces _ inside).1
    cases space
  simp [TotalLine.text, ms, TimeUnit.text] at member
  rcases member with lead | count | gap | time
  · exact blank t.leadBlank lead
  · exact absurd (print_nat_digits t.samples _ count) (by decide)
  · exact blank t.gapBlank gap
  · exact absurd ((unsigned_chars t.time.reads).2 _ time) (by decide)

theorem total_unseen (ms : t.unit = .ms) : search (totalRe u) t.text = none := by
  cases found : search (totalRe u) t.text with
  | none => rfl
  | some m => exact absurd (total_letter (u := u) (by rw [found]; rfl)) (ms_letters t ms)

theorem read_total : readTotal u ⟨totalGroups t, ".".toList⟩ =
    some (t.samples, times (toDouble t.time.value) 1000) := by
  simp [readTotal, Way.text, totalGroups, read_float_number, read_int_print]

end

end PerfColumns
