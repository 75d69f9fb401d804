import FastSafeIO.PerfColumns

/-! What parse_perf_output recovers of a report: its rows and its total line. -/
namespace PerfReadBack
open Regex TextTables UnicodeText PerfReport PerfColumns

theorem splitlines_char {c : Char} (inside : isBoundary c = false) (rest : List Char) :
    splitlines (c :: rest) =
      match splitlines rest with
      | [] => [[c]]
      | line :: lines => (c :: line) :: lines := by
  have other : c ≠ '\r' := by
    intro same
    rw [same] at inside
    exact absurd inside (by decide)
  have step := splitlines.eq_3 c rest fun _ same => absurd same other
  exact step.trans (if_neg (by simp [inside]))

theorem splitlines_line {line : List Char} (whole : Unbroken line) (rest : List Char) :
    splitlines (line ++ '\n' :: rest) = line :: splitlines rest := by
  induction line with
  | nil => rfl
  | cons c line ih =>
    rw [List.cons_append, splitlines_char (whole c List.mem_cons_self),
      ih fun d member => whole d (List.mem_cons_of_mem c member)]

theorem splitlines_write {lines : List (List Char)} (whole : ∀ l ∈ lines, Unbroken l) :
    splitlines (writeLines lines) = lines := by
  induction lines with
  | nil => rfl
  | cons l lines ih =>
    calc splitlines (writeLines (l :: lines)) = splitlines (l ++ '\n' :: writeLines lines) := by
          simp [writeLines]
      _ = l :: splitlines (writeLines lines) :=
          splitlines_line (whole l List.mem_cons_self) _
      _ = l :: lines := by rw [ih fun m member => whole m (List.mem_cons_of_mem l member)]

/-- What a line says: the exits it adds and the totals it sets. -/
structure Said where
  exits : List Exit
  totals : List (Nat × ℚ)

section
variable (u : Unicode)

def lineSays (line : List Char) : Option Said :=
  match matchHead (rowRe u) line with
  | some m => (readRow u m).map fun e => ⟨[e], []⟩
  | none =>
    match search (totalRe u) line with
    | some m => (readTotal u m).map fun t => ⟨[], [t]⟩
    | none => some ⟨[], []⟩

/-- What the lines say together. -/
def linesSay : List (List Char) → Option Said
  | [] => some ⟨[], []⟩
  | line :: lines => do
    let first ← lineSays u line
    let later ← linesSay lines
    pure ⟨first.exits ++ later.exits, first.totals ++ later.totals⟩

def reportOf (exits : List Exit) (total : Option (Nat × ℚ)) : Report :=
  ⟨exits, total.map Prod.fst, total.map Prod.snd⟩

theorem read_line (exits : List Exit) (total : Option (Nat × ℚ)) (line : List Char) :
    readLine u (reportOf exits total) line =
      (lineSays u line).map fun said =>
        reportOf (exits ++ said.exits) (said.totals.getLast?.or total) := by
  unfold readLine lineSays
  cases row : matchHead (rowRe u) line with
  | some m =>
    dsimp only
    rw [Option.map_map]
    rfl
  | none =>
    cases found : search (totalRe u) line with
    | some m =>
      dsimp only
      rw [Option.map_map]
      apply congrFun
      apply congrArg
      funext t
      simp [reportOf]
    | none => simp [reportOf]

theorem last_or {α : Type} (first later : List α) (x : Option α) :
    later.getLast?.or (first.getLast?.or x) = (first ++ later).getLast?.or x := by
  rw [List.getLast?_append, Option.or_assoc]

theorem read_lines (lines : List (List Char)) (exits : List Exit) (total : Option (Nat × ℚ)) :
    lines.foldlM (readLine u) (reportOf exits total) =
      (linesSay u lines).map fun said =>
        reportOf (exits ++ said.exits) (said.totals.getLast?.or total) := by
  induction lines generalizing exits total with
  | nil => simp [linesSay]
  | cons line lines ih =>
    rw [List.foldlM_cons, read_line, linesSay]
    cases first : lineSays u line with
    | none => rfl
    | some said =>
      simp only [Option.map_some, Option.bind_eq_bind, Option.bind_some, ih]
      cases rest : linesSay u lines with
      | none => rfl
      | some later =>
        simp only [Option.map_some, Option.bind_some, Option.pure_def, List.append_assoc, last_or]

theorem say_cons {u : Unicode} {line : List Char} {lines : List (List Char)} {said : Said}
    (spoken : linesSay u (line :: lines) = some said) :
    ∃ first later, lineSays u line = some first ∧ linesSay u lines = some later ∧
      said = ⟨first.exits ++ later.exits, first.totals ++ later.totals⟩ := by
  obtain ⟨first, one, spoken⟩ := Option.bind_eq_some_iff.mp spoken
  obtain ⟨later, rest, spoken⟩ := Option.bind_eq_some_iff.mp spoken
  exact ⟨first, later, one, rest, (Option.some.inj spoken).symm⟩

theorem say_append (before after : List (List Char)) :
    linesSay u (before ++ after) = (do
      let first ← linesSay u before
      let later ← linesSay u after
      pure ⟨first.exits ++ later.exits, first.totals ++ later.totals⟩) := by
  induction before with
  | nil =>
    cases rest : linesSay u after with
    | none => simp [linesSay, rest]
    | some later => simp [linesSay, rest]
  | cons line before ih =>
    rw [List.cons_append, linesSay, linesSay, ih]
    simp [Option.bind_assoc, List.append_assoc]

end

section
variable {u : Unicode}

def othersOf (pieces : List (Piece u)) : List (List Char) :=
  pieces.filterMap fun
    | .row _ => none
    | .other line _ => some line

/-- The total that a line of another shape is taken for. -/
def stated (u : Unicode) (line : List Char) : Option (Nat × ℚ) :=
  (search (totalRe u) line).bind (readTotal u)

/-- A line that is not taken for a row, and whose time is a number if it is taken for a total. -/
structure Harmless (u : Unicode) (line : List Char) : Prop where
  notRow : matchHead (rowRe u) line = none
  reads : ∀ m, search (totalRe u) line = some m → readTotal u m ≠ none

/-- What a printed total line says to _TOTAL_RE: the time is in us there. -/
def saidBy (t : TotalLine u) : List (Nat × ℚ) :=
  match t.unit with
  | .us => [t.printed]
  | .ms => []

/-- The totals that the lines of a report state, in order. -/
def statedTotals (p : Printed u) : List (Nat × ℚ) :=
  (othersOf p.before).filterMap (stated u) ++
    (saidBy p.total ++ (othersOf p.after).filterMap (stated u))

theorem say_row (r : Row u) : lineSays u r.text = some ⟨[r.exit], []⟩ := by
  unfold lineSays
  rw [row_matches]
  dsimp only
  rw [read_row]
  rfl

theorem say_total (t : TotalLine u) : lineSays u t.text = some ⟨[], saidBy t⟩ := by
  unfold lineSays saidBy
  rw [total_no_row]
  dsimp only
  cases unit : t.unit with
  | us =>
    rw [total_found t unit]
    dsimp only
    rw [read_total, TotalLine.printed, unit]
    rfl
  | ms =>
    rw [total_unseen t unit]

theorem say_harmless {line : List Char} (harmless : Harmless u line) :
    lineSays u line = some ⟨[], (stated u line).toList⟩ := by
  unfold lineSays stated
  rw [harmless.notRow]
  dsimp only
  cases found : search (totalRe u) line with
  | none => rfl
  | some m =>
    dsimp only [Option.bind_some]
    cases reads : readTotal u m with
    | none => exact absurd reads (harmless.reads m found)
    | some t => rfl

/-- A line that adds no exit and does not raise is harmless. -/
theorem harmless_of_silent {line : List Char} {said : Said} (spoken : lineSays u line = some said)
    (silent : said.exits = []) : Harmless u line := by
  unfold lineSays at spoken
  cases row : matchHead (rowRe u) line with
  | some m =>
    rw [row] at spoken
    obtain ⟨e, _, rfl⟩ := Option.map_eq_some_iff.mp spoken
    cases silent
  | none =>
    constructor
    · exact row
    · intro m found fails
      rw [row] at spoken
      dsimp only at spoken
      rw [found] at spoken
      dsimp only at spoken
      rw [fails] at spoken
      cases spoken

theorem say_pieces (pieces : List (Piece u)) (harmless : ∀ line ∈ othersOf pieces, Harmless u line) :
    linesSay u (pieces.map Piece.text) =
      some ⟨exitsOf pieces, (othersOf pieces).filterMap (stated u)⟩ := by
  induction pieces with
  | nil => rfl
  | cons piece pieces ih =>
    cases piece with
    | row r =>
      have later := ih harmless
      rw [List.map_cons, Piece.text, linesSay, say_row, later]
      rfl
    | other line whole =>
      have first : Harmless u line := harmless line List.mem_cons_self
      have later := ih fun l member => harmless l (List.mem_cons_of_mem line member)
      rw [List.map_cons, Piece.text, linesSay, say_harmless first, later]
      have others : othersOf (.other line whole :: pieces) = line :: othersOf pieces := rfl
      rw [others, List.filterMap_cons]
      cases stated u line with
      | none => rfl
      | some t => rfl

/-- The lines add the exits of the rows at least, and no others only if they are harmless. -/
theorem exits_at_least (pieces : List (Piece u)) {said : Said}
    (spoken : linesSay u (pieces.map Piece.text) = some said) :
    (exitsOf pieces).length ≤ said.exits.length ∧
      (said.exits.length ≤ (exitsOf pieces).length → ∀ line ∈ othersOf pieces, Harmless u line) := by
  induction pieces generalizing said with
  | nil =>
    constructor
    · exact Nat.zero_le _
    · intro _ line member
      cases member
  | cons piece pieces ih =>
    obtain ⟨first, later, one, rest, rfl⟩ := say_cons spoken
    obtain ⟨fewer, silent⟩ := ih rest
    rw [List.length_append]
    cases piece with
    | row r =>
      rw [Piece.text, say_row] at one
      obtain rfl := Option.some.inj one
      have count : (exitsOf (.row r :: pieces)).length = (exitsOf pieces).length + 1 := rfl
      rw [count, List.length_singleton]
      constructor
      · omega
      · intro most
        exact silent (by omega)
    | other line whole =>
      have count : (exitsOf (.other line whole :: pieces)).length = (exitsOf pieces).length := rfl
      rw [count]
      constructor
      · omega
      · intro most l member
        rcases List.mem_cons.mp member with rfl | inside
        · exact harmless_of_silent one (List.length_eq_zero_iff.mp (by omega))
        · exact silent (by omega) l inside

theorem piece_unbroken (piece : Piece u) : Unbroken piece.text := by
  cases piece with
  | row r => exact row_unbroken r
  | other line whole => exact whole

theorem parse_printed (p : Printed u) :
    parsePerfOutput u p.text = (linesSay u (p.before.map Piece.text ++
      p.total.text :: p.after.map Piece.text)).map fun said => reportOf said.exits said.totals.getLast? := by
  have whole : ∀ l ∈ p.before.map Piece.text ++ p.total.text :: p.after.map Piece.text, Unbroken l := by
    intro l member
    rcases List.mem_append.mp member with before | after
    · obtain ⟨piece, _, rfl⟩ := List.mem_map.mp before
      exact piece_unbroken piece
    · rcases List.mem_cons.mp after with rfl | after
      · exact total_unbroken p.total
      · obtain ⟨piece, _, rfl⟩ := List.mem_map.mp after
        exact piece_unbroken piece
  have start := read_lines u (p.before.map Piece.text ++ p.total.text :: p.after.map Piece.text) [] none
  simp only [List.nil_append, Option.or_none] at start
  unfold parsePerfOutput Printed.text
  rw [splitlines_write whole]
  exact start

theorem say_parts {p : Printed u} {said : Said}
    (spoken : linesSay u (p.before.map Piece.text ++ p.total.text :: p.after.map Piece.text) = some said) :
    ∃ before after, linesSay u (p.before.map Piece.text) = some before ∧
      linesSay u (p.after.map Piece.text) = some after ∧
      said = ⟨before.exits ++ after.exits, before.totals ++ (saidBy p.total ++ after.totals)⟩ := by
  rw [say_append] at spoken
  obtain ⟨before, first, spoken⟩ := Option.bind_eq_some_iff.mp spoken
  obtain ⟨later, rest, same⟩ := Option.bind_eq_some_iff.mp spoken
  obtain ⟨total, after, one, last, rfl⟩ := say_cons rest
  rw [say_total] at one
  obtain rfl := Option.some.inj one
  exact ⟨before, after, first, last, (Option.some.inj same).symm⟩

theorem say_printed {p : Printed u}
    (harmless : ∀ line ∈ othersOf p.before ++ othersOf p.after, Harmless u line) :
    linesSay u (p.before.map Piece.text ++ p.total.text :: p.after.map Piece.text) =
      some ⟨exitsOf p.before ++ exitsOf p.after, statedTotals p⟩ := by
  have before := say_pieces p.before fun line member => harmless line (List.mem_append_left _ member)
  have after := say_pieces p.after fun line member => harmless line (List.mem_append_right _ member)
  rw [say_append, before, linesSay, say_total, after]
  rfl

/-- A report is read back exactly where no other line is taken for a row, the times of those taken
for totals are numbers, and the last total that any line states is the one printed. -/
theorem report_recovered_iff (u : Unicode) (p : Printed u) :
    parsePerfOutput u p.text = some p.report ↔
      (∀ line ∈ othersOf p.before ++ othersOf p.after, Harmless u line) ∧
        (statedTotals p).getLast? = some p.total.printed := by
  rw [parse_printed]
  constructor
  · intro parsed
    obtain ⟨said, spoken, same⟩ := Option.map_eq_some_iff.mp parsed
    obtain ⟨before, after, first, last, parts⟩ := say_parts spoken
    obtain ⟨fewer, silent⟩ := exits_at_least p.before first
    obtain ⟨fewer', silent'⟩ := exits_at_least p.after last
    have exits : said.exits = exitsOf p.before ++ exitsOf p.after := congrArg Report.exits same
    have count := congrArg List.length exits
    rw [parts, List.length_append, List.length_append] at count
    have harmless : ∀ line ∈ othersOf p.before ++ othersOf p.after, Harmless u line := by
      intro line member
      rcases List.mem_append.mp member with inside | inside
      · exact silent (by omega) line inside
      · exact silent' (by omega) line inside
    constructor
    · exact harmless
    · rw [say_printed harmless] at spoken
      obtain rfl := Option.some.inj spoken
      have samples : ((statedTotals p).getLast?).map Prod.fst = some p.total.printed.1 :=
        congrArg Report.totalSamples same
      have time : ((statedTotals p).getLast?).map Prod.snd = some p.total.printed.2 :=
        congrArg Report.totalTimeNs same
      obtain ⟨t, stands, left⟩ := Option.map_eq_some_iff.mp samples
      rw [stands, Option.map_some, Option.some.injEq] at time
      rw [stands, Prod.ext left time]
  · intro known
    obtain ⟨harmless, stands⟩ := known
    rw [say_printed harmless, Option.map_some, stands]
    rfl

/-- With no other line that either expression takes, the unit alone decides. -/
theorem plain_report_iff {p : Printed u}
    (plain : ∀ line ∈ othersOf p.before ++ othersOf p.after,
      matchHead (rowRe u) line = none ∧ search (totalRe u) line = none) :
    ((∀ line ∈ othersOf p.before ++ othersOf p.after, Harmless u line) ∧
      (statedTotals p).getLast? = some p.total.printed) ↔ p.total.unit = .us := by
  have harmless : ∀ line ∈ othersOf p.before ++ othersOf p.after, Harmless u line := by
    intro line member
    constructor
    · exact (plain line member).1
    · intro m found
      rw [(plain line member).2] at found
      cases found
  have silent : ∀ lines, lines ⊆ othersOf p.before ++ othersOf p.after →
      lines.filterMap (stated u) = [] := by
    intro lines inside
    apply List.filterMap_eq_nil_iff.mpr
    intro line member
    rw [stated, (plain line (inside member)).2]
    rfl
  have totals : statedTotals p = saidBy p.total := by
    unfold statedTotals
    rw [silent _ (List.subset_append_left _ _), silent _ (List.subset_append_right _ _)]
    simp
  rw [and_iff_right harmless, totals, saidBy]
  cases unit : p.total.unit with
  | us => simp
  | ms => simp

end

theorem blank_all {u : Unicode} {gap : List Char}
    (all : gap.all (fun c => u.isSpace c && !isBoundary c) = true) : Blank u gap := by
  simpa [Blank] using all

/-- HLT     17628    85.72%    97.06%    0.27us   281.62us    55.74us ( +- 0.37%) -/
def hltRow : Row ascii where
  lead := "  ".toList
  exitReason := "HLT".toList
  samples := 17628
  samplesPct := ⟨"85.72".toList, 8572 / 100, by decide +kernel⟩
  timePct := ⟨"97.06".toList, 9706 / 100, by decide +kernel⟩
  minTime := ⟨"0.27".toList, 27 / 100, by decide +kernel⟩
  maxTime := ⟨"281.62".toList, 28162 / 100, by decide +kernel⟩
  avgTime := ⟨"55.74".toList, 5574 / 100, by decide +kernel⟩
  gap := fun _ => "   ".toList
  rest := " ( +- 0.37%)".toList
  fits := by decide
  leadBlank := blank_all (by decide)
  gapBlank := fun _ => ⟨by decide, blank_all (by decide)⟩
  some_char := by decide
  solid := by
    have all : "HLT".toList.all (fun c => !ascii.isSpace c && !isBoundary c) = true := by decide
    intro c member
    simpa using List.all_eq_true.mp all c member
  whole := unbroken_all (by decide)

/-- Total Samples:20563, Total events handled time:1142.17ms. -/
def msTotal : TotalLine ascii where
  lead := []
  samples := 20563
  gap := " ".toList
  time := ⟨"1142.17".toList, 114217 / 100, by decide +kernel⟩
  unit := .ms
  leadBlank := blank_all (by decide)
  gapBlank := blank_all (by decide)

/-- The row and the total line that the comments give. -/
def commentReport : Printed ascii := ⟨[.row hltRow], msTotal, []⟩

/-- The total in ms is not read. -/
theorem comment_total_missed :
    parsePerfOutput ascii commentReport.text = some ⟨[hltRow.exit], none, none⟩ ∧
      parsePerfOutput ascii commentReport.text ≠ some commentReport.report := by
  have parsed : parsePerfOutput ascii commentReport.text = some ⟨[hltRow.exit], none, none⟩ := by
    have none : ∀ line ∈ othersOf commentReport.before ++ othersOf commentReport.after,
        Harmless ascii line := by
      intro line member
      cases member
    rw [parse_printed, say_printed none]
    rfl
  constructor
  · exact parsed
  · rw [parsed]
    intro same
    cases congrArg Report.totalSamples (Option.some.inj same)

end PerfReadBack
