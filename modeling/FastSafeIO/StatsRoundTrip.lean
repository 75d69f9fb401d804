import FastSafeIO.StatsReaders
import Mathlib.Algebra.Order.BigOperators.Group.List
import Mathlib.Data.List.Nodup

/- What the loader writes both readers read back. -/
namespace StatsRoundTrip
open TracingUtils GuestTracer GuestLoader NearestFloat TextTables StatsReaders

variable {numCpus : Nat} {m : Maps}

theorem totals_exact (cpus : List Nat) (fn : Nat) (start : LatencyStats)
    (calls : start.count + (cpus.map fun cpu => (m.funcLatencyStats cpu fn).count).sum < 2 ^ 64)
    (time : start.totalDurationNs +
      (cpus.map fun cpu => (m.funcLatencyStats cpu fn).totalDurationNs).sum < 2 ^ 64) :
    let t := cpus.foldl (fun t cpu =>
      let s := m.funcLatencyStats cpu fn
      if s.count = 0 then t
      else
        { count := add64 t.count s.count
          totalDurationNs := add64 t.totalDurationNs s.totalDurationNs
          sumSqDurationUs := add64 t.sumSqDurationUs s.sumSqDurationUs }) start
    t.count = start.count + (cpus.map fun cpu => (m.funcLatencyStats cpu fn).count).sum ∧
      t.totalDurationNs = start.totalDurationNs + (cpus.map fun cpu =>
        let s := m.funcLatencyStats cpu fn
        if s.count = 0 then 0 else s.totalDurationNs).sum := by
  induction cpus generalizing start with
  | nil => exact ⟨rfl, rfl⟩
  | cons cpu rest ih =>
    simp only [List.map_cons, List.sum_cons, List.foldl_cons] at calls time ih ⊢
    by_cases idle : (m.funcLatencyStats cpu fn).count = 0
    · have later := ih start (by omega) (by omega)
      simp only [if_pos idle]
      rw [idle, Nat.zero_add, Nat.zero_add]
      exact later
    · have count : add64 start.count (m.funcLatencyStats cpu fn).count =
          start.count + (m.funcLatencyStats cpu fn).count := Nat.mod_eq_of_lt (by omega)
      have total : add64 start.totalDurationNs (m.funcLatencyStats cpu fn).totalDurationNs =
          start.totalDurationNs + (m.funcLatencyStats cpu fn).totalDurationNs :=
        Nat.mod_eq_of_lt (by omega)
      simp only [if_neg idle]
      rw [count, total]
      obtain ⟨more_calls, more_time⟩ := ih
        ⟨start.count + (m.funcLatencyStats cpu fn).count,
          start.totalDurationNs + (m.funcLatencyStats cpu fn).totalDurationNs,
          add64 start.sumSqDurationUs (m.funcLatencyStats cpu fn).sumSqDurationUs⟩
        (by dsimp only; omega) (by dsimp only; omega)
      exact ⟨more_calls.trans (Nat.add_assoc ..), more_time.trans (Nat.add_assoc ..)⟩

theorem latency_totals {fn : Nat} (noWrap : NoWrap numCpus m) (latency : fn < TRACE_FUNCS_END) :
    (latencyTotals numCpus m fn).count = callsOf numCpus m fn ∧
      (latencyTotals numCpus m fn).totalDurationNs = countedDurationOf numCpus m fn := by
  obtain ⟨calls, time⟩ := noWrap fn latency
  have exact_sums := totals_exact (m := m) (List.range numCpus) fn noStats
    (by rw [show noStats.count = 0 from rfl, Nat.zero_add]; exact calls)
    (by rw [show noStats.totalDurationNs = 0 from rfl, Nat.zero_add]; exact time)
  obtain ⟨count, total⟩ := exact_sums
  exact ⟨count.trans (Nat.zero_add _), total.trans (Nat.zero_add _)⟩

/-- A line of a table: it starts with a function's name and has no spaces. -/
structure Entry (line : List Char) : Prop where
  some_char : line ≠ []
  name : line.head? ≠ some '#'
  solid : ∀ c ∈ line, isSpace c = false

theorem entry_line {fn : Nat} {fields : List (List Char)} (plain : ∀ f ∈ fields, Plain f) :
    Entry (csvLine (fnName fn :: fields)) := by
  have all : ∀ f ∈ fnName fn :: fields, Plain f := by
    intro f member
    cases List.mem_cons.mp member with
    | inl same => exact same ▸ (fn_name_plain fn).1
    | inr later => exact plain f later
  constructor
  · exact csv_line_ne_nil all (by simp)
  · have name := fn_name_head fn
    have some_char := (fn_name_plain fn).1.some_char
    cases fields with
    | nil =>
      rw [csvLine, List.intercalate_singleton]
      exact name
    | cons next rest =>
      rw [csvLine, List.intercalate_cons_cons, List.append_assoc, List.head?_append_of_ne_nil _ some_char]
      exact name
  · exact csv_line_chars all

theorem latency_row_plain (numCpus : Nat) (m : Maps) (fn : Nat) :
    ∀ f ∈ latencyRow numCpus m fn, Plain f ∧ f ∉ naValues := by
  intro f member
  simp only [latencyRow, List.mem_cons, List.not_mem_nil, or_false] at member
  rcases member with name | kind | count | total | mean | variance
  · exact name ▸ fn_name_plain fn
  · exact kind ▸ minus_one_plain
  · exact count ▸ print_nat_plain _
  · exact total ▸ print_nat_plain _
  · exact mean ▸ print_rounded_plain _ _
  · exact variance ▸ print_rounded_plain _ _

theorem latency_entry (numCpus : Nat) (m : Maps) (fn : Nat) : Entry (csvLine (latencyRow numCpus m fn)) := by
  apply entry_line
  intro f member
  exact (latency_row_plain numCpus m fn f (List.mem_cons_of_mem _ member)).1

theorem per_cpu_entry (fn cpu : Nat) : Entry (csvLine (perCpuLatencyRow m fn cpu)) := by
  apply entry_line
  intro f member
  simp only [List.mem_cons, List.not_mem_nil, or_false] at member
  rcases member with cpu | count | total | mean | variance
  · exact cpu ▸ (print_nat_plain _).1
  · exact count ▸ (print_nat_plain _).1
  · exact total ▸ (print_nat_plain _).1
  · exact mean ▸ (print_rounded_plain _ _).1
  · exact variance ▸ (print_rounded_plain _ _).1

theorem entry_whole {line : List Char} (entry : Entry line) : '\n' ∉ line := by
  intro member
  exact absurd (entry.solid '\n' member) (by decide)

theorem entry_no_comment {line title : List Char} (entry : Entry line) :
    startsWith ('#' :: title) (line ++ ['\n']) = false := by
  unfold startsWith
  rw [strip_line entry.solid]
  obtain ⟨c, rest, rfl⟩ := List.exists_cons_of_ne_nil entry.some_char
  have other : c ≠ '#' := fun same => entry.name (congrArg some same)
  simp [List.isPrefixOf, Ne.symm other]

/-- A line that starts neither section. -/
abbrev Inside (line : List Char) : Prop :=
  startsWith latencyTitle line = false ∧ startsWith perCpuCountsTitle line = false

theorem entry_inside {line : List Char} (entry : Entry line) : Inside (line ++ ['\n']) :=
  ⟨entry_no_comment entry, entry_no_comment entry⟩

/-- A search that goes on from the next index at every one of these lines. -/
theorem search_skip {α : Type} {f : Nat → List (List Char) → α} {lines : List (List Char)}
    (next : ∀ l ∈ lines, ∀ i rest, f i (l :: rest) = f (i + 1) rest) (i : Nat)
    (rest : List (List Char)) : f i (lines ++ rest) = f (i + lines.length) rest := by
  induction lines generalizing i with
  | nil => rfl
  | cons l lines ih =>
    have later := ih (fun k member => next k (List.mem_cons_of_mem _ member)) (i + 1)
    have length : i + (l :: lines).length = i + 1 + lines.length := by
      rw [List.length_cons]
      omega
    rw [List.cons_append, next l List.mem_cons_self, later, length]

theorem find_section_skip {lines : List (List Char)} (inside : ∀ l ∈ lines, Inside l) (i : Nat)
    (start : Option Nat) (rest : List (List Char)) :
    findSection i start (lines ++ rest) = findSection (i + lines.length) start rest := by
  apply search_skip (f := (findSection · start))
  intro l member i rest
  obtain ⟨no_title, no_counts⟩ := inside l member
  rw [findSection, no_title, no_counts, if_neg Bool.false_ne_true, if_neg Bool.false_ne_true]

theorem find_aggregate_skip {lines : List (List Char)} {start : Option Nat}
    (inside : ∀ l ∈ lines, startsWith latencyTitle l = false ∧
      (start.isSome && startsWith ['#'] l) = false) (i : Nat) (rest : List (List Char)) :
    findAggregate i start (lines ++ rest) = findAggregate (i + lines.length) start rest := by
  apply search_skip (f := (findAggregate · start))
  intro l member i rest
  obtain ⟨no_title, no_end⟩ := inside l member
  rw [findAggregate, no_title, if_neg Bool.false_ne_true, no_end, if_neg Bool.false_ne_true]

/-- A file of lines with a latency section in it, as both readers see it. -/
structure Section (lines before rows after : List (List Char)) (title header stop : List Char) :
    Prop where
  lines : lines = before ++ title :: header :: (rows ++ stop :: after)
  before : ∀ l ∈ before, Inside l
  title : startsWith latencyTitle title = true ∧ startsWith perCpuCountsTitle title = false
  header : Inside header ∧ startsWith ['#'] header = false
  rows : ∀ l ∈ rows, Inside l ∧ startsWith ['#'] l = false
  stop : startsWith latencyTitle stop = false ∧ startsWith perCpuCountsTitle stop = true ∧
    startsWith ['#'] stop = true

section
variable {lines before rows after : List (List Char)} {title header stop : List Char}

theorem section_found (found : Section lines before rows after title header stop) :
    findSection 0 none lines = (some (before.length + 1), some (before.length + 2 + rows.length)) := by
  have body : ∀ l ∈ header :: rows, Inside l := by
    intro l member
    cases List.mem_cons.mp member with
    | inl same => exact same ▸ found.header.1
    | inr later => exact (found.rows l later).1
  rw [found.lines, find_section_skip found.before, findSection, found.title.1, found.title.2,
    if_pos rfl, if_neg Bool.false_ne_true, ← List.cons_append, find_section_skip body, findSection,
    found.stop.1, found.stop.2.1, if_neg Bool.false_ne_true, if_pos rfl, List.length_cons]
  congr 2 <;> omega

theorem aggregate_found (found : Section lines before rows after title header stop) :
    findAggregate 0 none lines =
      (some (before.length + 1), some (before.length + 2 + rows.length)) := by
  have body : ∀ l ∈ header :: rows, startsWith latencyTitle l = false ∧ startsWith ['#'] l = false := by
    intro l member
    cases List.mem_cons.mp member with
    | inl same => exact same ▸ ⟨found.header.1.1, found.header.2⟩
    | inr later => exact ⟨(found.rows l later).1.1, (found.rows l later).2⟩
  rw [found.lines, find_aggregate_skip fun l member => ⟨(found.before l member).1, rfl⟩, findAggregate,
    found.title.1, if_pos rfl, ← List.cons_append, find_aggregate_skip body, findAggregate,
    found.stop.1, if_neg Bool.false_ne_true, found.stop.2.2, Option.isSome_some, Bool.and_self,
    if_pos rfl, List.length_cons]
  congr 2 <;> omega

theorem section_header (found : Section lines before rows after title header stop) :
    lines[before.length + 1]? = some header := by
  rw [found.lines, List.getElem?_append_right (by omega)]
  simp

theorem section_rows (found : Section lines before rows after title header stop) :
    (lines.drop (before.length + 1 + 1)).take
      (before.length + 2 + rows.length - (before.length + 1 + 1)) = rows := by
  have size : before.length + 2 + rows.length - (before.length + 1 + 1) = rows.length := by omega
  have front : before ++ title :: header :: (rows ++ stop :: after) =
      (before ++ [title, header]) ++ (rows ++ stop :: after) := by simp
  have length : before.length + 1 + 1 = (before ++ [title, header]).length := by simp
  rw [size, found.lines, front, length, List.drop_left, List.take_left]

end

theorem per_cpu_section_lines : ∀ l ∈ perCpuSection numCpus m, '\n' ∉ l ∧ Inside (l ++ ['\n']) := by
  intro l member
  cases List.mem_append.mp member with
  | inl titles =>
    have fixed : ∀ t ∈ ["# Per-Function Per-CPU Latency Statistics".toList,
        "function,cpu,count,total_duration_ns,mean_ns,variance_us".toList],
        '\n' ∉ t ∧ startsWith latencyTitle (t ++ ['\n']) = false ∧
          startsWith perCpuCountsTitle (t ++ ['\n']) = false := by decide +kernel
    exact fixed l titles
  | inr rows =>
    obtain ⟨fn, _, row⟩ := List.mem_flatMap.mp rows
    obtain ⟨cpu, _, rfl⟩ := List.mem_map.mp row
    have entry := per_cpu_entry (m := m) fn cpu
    exact ⟨entry_whole entry, entry_inside entry⟩

theorem count_entry {fields : List (List Char)} (fn : Nat)
    (numeric : ∀ f ∈ fields, f = "-1".toList ∨ ∃ n, f = printNat n) :
    '\n' ∉ csvLine (fnName fn :: fields) := by
  apply entry_whole
  apply entry_line
  intro f member
  cases numeric f member with
  | inl minus => exact minus ▸ minus_one_plain.1
  | inr number =>
    obtain ⟨n, rfl⟩ := number
    exact (print_nat_plain n).1

theorem plain_whole {field : List Char} (plain : Plain field) : '\n' ∉ field := fun member =>
  absurd (plain.chars '\n' member).2.2 (by decide)

theorem histogram_whole (l : HistogramLine) : '\n' ∉ l.print := by
  have name := plain_whole (fn_name_plain l.fn).1
  have number : ∀ n, '\n' ∉ printNat n := fun n => plain_whole (print_nat_plain n).1
  simp [HistogramLine.print, name, number]

theorem later_sections_whole : ∀ l ∈ laterSections numCpus m, '\n' ∉ l := by
  intro l member
  simp only [laterSections, List.mem_append] at member
  rcases member with ((((header | counts) | titles) | totals) | titles) | histograms
  · have fixed : ∀ t ∈ ["function,cpu,count".toList], '\n' ∉ t := by decide
    exact fixed l header
  · obtain ⟨fn, _, row⟩ := List.mem_flatMap.mp counts
    obtain ⟨cpu, _, rfl⟩ := List.mem_map.mp row
    apply count_entry
    intro f field
    simp only [List.mem_cons, List.not_mem_nil, or_false] at field
    cases field with
    | inl cpu => exact Or.inr ⟨_, cpu⟩
    | inr count => exact Or.inr ⟨_, count⟩
  · have fixed : ∀ t ∈ ["# Per-Function Counts".toList, "function,type,count".toList], '\n' ∉ t := by
      decide
    exact fixed l titles
  · obtain ⟨fn, _, rfl⟩ := List.mem_map.mp totals
    apply count_entry
    intro f field
    simp only [List.mem_cons, List.not_mem_nil, or_false] at field
    cases field with
    | inl kind => exact Or.inl kind
    | inr count => exact Or.inr ⟨_, count⟩
  · have fixed : ∀ t ∈ [[], "# Per-Function Latency Histograms".toList,
        "function,bucket,latency_range_ns,count".toList], '\n' ∉ t := by decide
    exact fixed l titles
  · obtain ⟨fn, _, line⟩ := List.mem_flatMap.mp histograms
    unfold printHistogram at line
    split at line
    · cases line
    · rename_i lines _
      cases List.mem_append.mp line with
      | inl printed =>
        obtain ⟨h, _, rfl⟩ := List.mem_map.mp printed
        exact histogram_whole h
      | inr blank =>
        rw [List.mem_singleton.mp blank]
        exact List.not_mem_nil

theorem titles_check : '\n' ∉ latencyTitle ∧ '\n' ∉ perCpuCountsTitle ∧
    startsWith latencyTitle (latencyTitle ++ ['\n']) = true ∧
    startsWith perCpuCountsTitle (latencyTitle ++ ['\n']) = false ∧
    startsWith latencyTitle (perCpuCountsTitle ++ ['\n']) = false ∧
    startsWith perCpuCountsTitle (perCpuCountsTitle ++ ['\n']) = true ∧
    startsWith ['#'] (perCpuCountsTitle ++ ['\n']) = true := by decide +kernel

/-- The header of the latency section has plain fields of different names. -/
theorem latency_header_check : (∀ f ∈ latencyHeader, f ≠ [] ∧ f.all isNameChar = true) ∧
    latencyHeader.Nodup := by decide +kernel

theorem latency_header_plain : ∀ f ∈ latencyHeader, Plain f := by
  intro f member
  obtain ⟨some_char, chars⟩ := latency_header_check.1 f member
  exact ⟨some_char, fun c inside => (name_char (List.all_eq_true.mp chars c inside)).2⟩

theorem latency_header_inside : '\n' ∉ csvLine latencyHeader ∧
    Inside (csvLine latencyHeader ++ ['\n']) ∧
    startsWith ['#'] (csvLine latencyHeader ++ ['\n']) = false := by decide +kernel

/-- The dump has one latency section, and its rows are those of the functions with calls. -/
theorem dump_section (some_cpu : 0 < numCpus) :
    Section (readLines (dumpAggregateToFile numCpus m))
      ((perCpuSection numCpus m).map (· ++ ['\n']))
      ((latencyFunctions numCpus m).map fun fn => csvLine (latencyRow numCpus m fn) ++ ['\n'])
      ((laterSections numCpus m).map (· ++ ['\n']))
      (latencyTitle ++ ['\n']) (csvLine latencyHeader ++ ['\n']) (perCpuCountsTitle ++ ['\n']) := by
  obtain ⟨title_whole, counts_whole, title, no_counts, no_title, counts, comment⟩ := titles_check
  have whole : ∀ l ∈ dumpLines numCpus m, '\n' ∉ l := by
    intro l member
    simp only [dumpLines, List.mem_append, List.mem_cons] at member
    rcases member with (before | rfl | rfl | rows) | rfl | later
    · exact (per_cpu_section_lines l before).1
    · exact title_whole
    · exact latency_header_inside.1
    · obtain ⟨fn, _, rfl⟩ := List.mem_map.mp rows
      exact entry_whole (latency_entry numCpus m fn)
    · exact counts_whole
    · exact later_sections_whole l later
  constructor
  · unfold dumpAggregateToFile
    rw [if_neg (Nat.ne_of_gt some_cpu), read_write_lines whole]
    simp [dumpLines, Function.comp_def]
  · intro l member
    obtain ⟨line, before, rfl⟩ := List.mem_map.mp member
    exact (per_cpu_section_lines line before).2
  · exact ⟨title, no_counts⟩
  · exact ⟨latency_header_inside.2.1, latency_header_inside.2.2⟩
  · intro l member
    obtain ⟨fn, _, rfl⟩ := List.mem_map.mp member
    have entry := latency_entry numCpus m fn
    exact ⟨entry_inside entry, entry_no_comment entry⟩
  · exact ⟨no_title, counts, comment⟩

theorem data_lines_entries {lines : List (List Char)} (entries : ∀ l ∈ lines, Entry l) :
    dataLines (lines.map (· ++ ['\n'])) = lines := by
  have stripped : (lines.map (· ++ ['\n'])).map strip = lines := by
    rw [List.map_map]
    have same : ∀ l ∈ lines, (strip ∘ (· ++ ['\n'])) l = id l := fun l member =>
      strip_line (entries l member).solid
    rw [List.map_congr_left same, List.map_id]
  unfold dataLines
  rw [stripped, List.filter_eq_self]
  intro l member
  obtain ⟨some_char, name, _⟩ := entries l member
  obtain ⟨c, rest, rfl⟩ := List.exists_cons_of_ne_nil some_char
  have other : c ≠ '#' := fun same => name (congrArg some same)
  simp [List.isPrefixOf, Ne.symm other]

/-- The rows of the latency section. -/
def latencyTable (numCpus : Nat) (m : Maps) : List (List (List Char)) :=
  (latencyFunctions numCpus m).map (latencyRow numCpus m)

theorem latency_table_plain (numCpus : Nat) (m : Maps) :
    PlainTable latencyHeader (latencyTable numCpus m) := by
  constructor
  · decide
  · exact latency_header_plain
  · intro row member
    obtain ⟨fn, _, rfl⟩ := List.mem_map.mp member
    rfl
  · intro row member f field
    obtain ⟨fn, _, rfl⟩ := List.mem_map.mp member
    exact (latency_row_plain numCpus m fn f field).1

theorem row_columns (numCpus : Nat) (m : Maps) (fn : Nat) :
    column "function" (latencyHeader.zip (latencyRow numCpus m fn)) = some (fnName fn) ∧
    column "count" (latencyHeader.zip (latencyRow numCpus m fn)) =
      some (printNat (latencyTotals numCpus m fn).count) ∧
    column "total_duration_ns" (latencyHeader.zip (latencyRow numCpus m fn)) =
      some (printNat (latencyTotals numCpus m fn).totalDurationNs) ∧
    column "mean_ns" (latencyHeader.zip (latencyRow numCpus m fn)) =
      some (printRounded 2 (quotient (latencyTotals numCpus m fn).totalDurationNs
        (latencyTotals numCpus m fn).count)) :=
  ⟨rfl, rfl, rfl, rfl⟩

/-- The mean of a function in the table. -/
def printedMean (numCpus : Nat) (m : Maps) (fn : Nat) : ℚ :=
  meanOf (latencyTotals numCpus m fn).totalDurationNs (latencyTotals numCpus m fn).count

theorem latency_columns (numCpus : Nat) (m : Maps) (fits : ∀ fn ∈ latencyFunctions numCpus m,
    (latencyTotals numCpus m fn).count < 2 ^ 64 ∧
      (latencyTotals numCpus m fn).totalDurationNs < 2 ^ 64) :
    ColumnIs latencyHeader (latencyTable numCpus m) "function".toList .word ∧
    ColumnIs latencyHeader (latencyTable numCpus m) "count".toList .count ∧
    ColumnIs latencyHeader (latencyTable numCpus m) "total_duration_ns".toList .count ∧
    ColumnIs latencyHeader (latencyTable numCpus m) "mean_ns".toList .decimal := by
  refine ⟨?_, ?_, ?_, ?_⟩
  all_goals
    intro row member
    obtain ⟨fn, kept, rfl⟩ := List.mem_map.mp member
    obtain ⟨count, total⟩ := fits fn kept
  · exact ⟨_, rfl, fn_name_word fn⟩
  · exact ⟨_, rfl, _, count, rfl⟩
  · exact ⟨_, rfl, _, total, rfl⟩
  · exact ⟨_, rfl, _, _, rfl⟩

theorem quotient_nonneg (a b : Nat) : 0 ≤ quotient a b := by
  unfold quotient
  apply round_to_nonneg
  apply div_nonneg
  · exact round_to_nonneg 52 (Nat.cast_nonneg a)
  · exact round_to_nonneg 52 (Nat.cast_nonneg b)

theorem mean_digits (time calls : Nat) : ∃ n : Nat,
    printRounded 2 (quotient time calls) = printFixed 2 false n ∧ meanOf time calls = n / 10 ^ 2 := by
  have sign : ¬ quotient time calls < 0 := not_lt.mpr (quotient_nonneg time calls)
  refine ⟨(roundEven (|quotient time calls| * 10 ^ 2)).toNat, ?_, ?_⟩
  · unfold printRounded
    rw [decide_eq_false sign]
  · unfold meanOf rounded
    exact if_neg sign

theorem row_tells {fn : Nat} {out : FrameRow} (fits : ∀ fn ∈ latencyFunctions numCpus m,
      (latencyTotals numCpus m fn).count < 2 ^ 64 ∧
        (latencyTotals numCpus m fn).totalDurationNs < 2 ^ 64)
    (kept : fn ∈ latencyFunctions numCpus m)
    (reads : ∀ name kind, ColumnIs latencyHeader (latencyTable numCpus m) name kind →
      ∃ f c, field latencyHeader (latencyRow numCpus m fn) name = some f ∧ out.lookup name = some c ∧
        kind.Reads f c) :
    RowTells (fnName fn) (latencyTotals numCpus m fn).count
      (latencyTotals numCpus m fn).totalDurationNs out := by
  obtain ⟨words, counts, totals, means⟩ := latency_columns numCpus m fits
  obtain ⟨name, count, total, mean⟩ := row_columns numCpus m fn
  obtain ⟨small_count, small_total⟩ := fits fn kept
  constructor
  · obtain ⟨f, c, here, there, same⟩ := reads _ _ words
    cases Option.some.inj (here.symm.trans name)
    exact there.trans (congrArg some same)
  · obtain ⟨f, c, here, there, same⟩ := reads _ _ counts
    cases Option.some.inj (here.symm.trans count)
    exact there.trans (congrArg some (same _ small_count rfl))
  · obtain ⟨f, c, here, there, same⟩ := reads _ _ totals
    cases Option.some.inj (here.symm.trans total)
    exact there.trans (congrArg some (same _ small_total rfl))
  · intro small
    obtain ⟨f, c, here, there, same⟩ := reads _ _ means
    cases Option.some.inj (here.symm.trans mean)
    obtain ⟨n, digits, value⟩ := mean_digits (latencyTotals numCpus m fn).totalDurationNs
      (latencyTotals numCpus m fn).count
    have few : n < 2 ^ 53 := by
      rw [value] at small
      have scaled : (n : ℚ) < 2 ^ 53 := by linarith
      exact_mod_cast scaled
    rw [value]
    exact there.trans (congrArg some (same n few digits))

theorem read_means (fns : List Nat) (stats : List (List Char × ℚ))
    (fresh : (stats.map Prod.fst ++ fns.map fnName).Nodup) :
    (fns.map fun fn => latencyHeader.zip (latencyRow numCpus m fn)).foldlM addMean stats =
      some (stats ++ fns.map fun fn => (fnName fn, toDouble (printedMean numCpus m fn))) := by
  induction fns generalizing stats with
  | nil => simp
  | cons fn rest ih =>
    have absent : fnName fn ∉ stats.map Prod.fst := by
      intro present
      exact (List.nodup_append.mp fresh).2.2 _ present (fnName fn) (by simp) rfl
    have added : addMean stats (latencyHeader.zip (latencyRow numCpus m fn)) =
        some (stats ++ [(fnName fn, toDouble (printedMean numCpus m fn))]) := by
      obtain ⟨name, _, _, mean⟩ := row_columns numCpus m fn
      unfold addMean
      rw [name, mean]
      simp [read_print_rounded, setItem, absent, printedMean, meanOf]
    rw [List.map_cons, List.foldlM_cons, added]
    have later := ih (stats ++ [(fnName fn, toDouble (printedMean numCpus m fn))]) (by simpa using fresh)
    simpa using later

/-- What both readers hand to the csv parser. -/
theorem section_content : csvContent (strip (csvLine latencyHeader ++ ['\n']))
    (dataLines ((latencyFunctions numCpus m).map fun fn =>
      csvLine (latencyRow numCpus m fn) ++ ['\n'])) =
    csvContent (csvLine latencyHeader) ((latencyTable numCpus m).map csvLine) := by
  have header := strip_line (csv_line_chars latency_header_plain)
  have rows : dataLines (((latencyTable numCpus m).map csvLine).map (· ++ ['\n'])) =
      (latencyTable numCpus m).map csvLine := by
    apply data_lines_entries
    intro l member
    obtain ⟨row, from_row, rfl⟩ := List.mem_map.mp member
    obtain ⟨fn, _, rfl⟩ := List.mem_map.mp from_row
    exact latency_entry numCpus m fn
  rw [header]
  congr 1
  rw [← rows]
  simp [latencyTable, Function.comp_def]

theorem stats_read {readCsv : List Char → Option (List FrameRow)} (documented : ReadsTables readCsv)
    (some_cpu : 0 < numCpus) (fits : ∀ fn ∈ latencyFunctions numCpus m,
      (latencyTotals numCpus m fn).count < 2 ^ 64 ∧
        (latencyTotals numCpus m fn).totalDurationNs < 2 ^ 64) :
    ∃ frame, __getEbpfStats readCsv (dumpAggregateToFile numCpus m) = some frame ∧
      List.Forall₂ (fun fn row => RowTells (fnName fn) (latencyTotals numCpus m fn).count
        (latencyTotals numCpus m fn).totalDurationNs row) (latencyFunctions numCpus m) frame := by
  have found := dump_section (m := m) some_cpu
  have present : ∀ row ∈ latencyTable numCpus m, ∀ f ∈ row, f ∉ naValues := by
    intro row member f inside
    obtain ⟨fn, _, rfl⟩ := List.mem_map.mp member
    exact (latency_row_plain numCpus m fn f inside).2
  obtain ⟨frame, table, rows⟩ :=
    documented _ _ (latency_table_plain numCpus m) latency_header_check.2 present
  refine ⟨frame, ?_, ?_⟩
  · unfold __getEbpfStats
    dsimp only
    rw [section_found found]
    dsimp only
    rw [if_neg (by omega), section_header found]
    dsimp only
    rw [section_rows found, section_content, table]
  · rw [latencyTable, List.forall₂_map_left_iff, List.forall₂_iff_zip] at rows
    obtain ⟨length, each⟩ := rows
    apply List.forall₂_iff_zip.mpr ⟨length, _⟩
    intro fn out member
    exact row_tells fits (List.of_mem_zip member).1 (each member)

theorem means_read (some_cpu : 0 < numCpus) (distinct : ((latencyFunctions numCpus m).map fnName).Nodup) :
    parseAggregateStats (dumpAggregateToFile numCpus m) =
      some ((latencyFunctions numCpus m).map fun fn =>
        (fnName fn, toDouble (printedMean numCpus m fn))) := by
  have found := dump_section (m := m) some_cpu
  have table := dict_reader_table (latency_table_plain numCpus m)
  unfold parseAggregateStats
  dsimp only
  rw [aggregate_found found]
  dsimp only
  rw [section_header found]
  dsimp only
  rw [Option.getD_some, section_rows found, section_content]
  unfold csvContent
  rw [table, latencyTable, List.map_map]
  exact read_means _ [] (by simpa using distinct)

theorem attached_names : (probesToAttach.map funcNameToString).Nodup := by
  decide +kernel

theorem attached_inj {f g : FunctionName} (first : f ∈ probesToAttach) (second : g ∈ probesToAttach)
    (same : fnName f.value = fnName g.value) : f = g := by
  unfold fnName at same
  rw [FunctionName.ofNat_ctorIdx, FunctionName.ofNat_ctorIdx, String.toList_inj] at same
  exact List.inj_on_of_nodup_map attached_names first second same

theorem latency_functions_eq (noWrap : NoWrap numCpus m) :
    latencyFunctions numCpus m = functionsOf numCpus m := by
  apply List.filter_congr
  intro fn member
  rw [(latency_totals noWrap (List.mem_range.mp member)).1]

theorem functions_totals (noWrap : NoWrap numCpus m) {fn : Nat}
    (kept : fn ∈ functionsOf numCpus m) :
    (latencyTotals numCpus m fn).count = callsOf numCpus m fn ∧
      (latencyTotals numCpus m fn).totalDurationNs = countedDurationOf numCpus m fn :=
  latency_totals noWrap (List.mem_range.mp (List.mem_of_mem_filter kept))

theorem counted_le (fn : Nat) : countedDurationOf numCpus m fn ≤ durationOf numCpus m fn := by
  unfold countedDurationOf durationOf sumOver
  apply List.sum_le_sum
  intro cpu member
  dsimp only
  split
  · exact Nat.zero_le _
  · exact le_rfl

theorem totals_fit (noWrap : NoWrap numCpus m) : ∀ fn ∈ latencyFunctions numCpus m,
    (latencyTotals numCpus m fn).count < 2 ^ 64 ∧
      (latencyTotals numCpus m fn).totalDurationNs < 2 ^ 64 := by
  intro fn kept
  rw [latency_functions_eq noWrap] at kept
  obtain ⟨calls, time⟩ := noWrap fn (List.mem_range.mp (List.mem_of_mem_filter kept))
  obtain ⟨count, total⟩ := functions_totals noWrap kept
  rw [count, total]
  exact ⟨calls, lt_of_le_of_lt (counted_le fn) time⟩

theorem names_distinct (noWrap : NoWrap numCpus m) (only : OnlyAttached m) :
    ((latencyFunctions numCpus m).map fnName).Nodup := by
  have attached : ∀ fn ∈ latencyFunctions numCpus m, fn ∈ probesToAttach.map FunctionName.value := by
    intro fn member
    rw [latency_functions_eq noWrap, functionsOf, List.mem_filter] at member
    by_contra loose
    have idle : callsOf numCpus m fn = 0 := by
      apply List.sum_eq_zero
      intro n cell
      obtain ⟨cpu, _, rfl⟩ := List.mem_map.mp cell
      rw [(only fn loose cpu).1]
      rfl
    simp [idle] at member
  have functions : (latencyFunctions numCpus m).Nodup := List.nodup_range.filter _
  apply List.Nodup.map_on _ functions
  intro f first g second same
  obtain ⟨a, a_attached, rfl⟩ := List.mem_map.mp (attached f first)
  obtain ⟨b, b_attached, rfl⟩ := List.mem_map.mp (attached g second)
  rw [attached_inj a_attached b_attached same]

theorem frame_read {readCsv : List Char → Option (List FrameRow)} (documented : ReadsTables readCsv)
    (some_cpu : 0 < numCpus) (noWrap : NoWrap numCpus m) :
    ∃ frame, __getEbpfStats readCsv (dumpAggregateToFile numCpus m) = some frame ∧
      List.Forall₂ (fun fn row =>
        RowTells (fnName fn) (callsOf numCpus m fn) (countedDurationOf numCpus m fn) row)
        (functionsOf numCpus m) frame := by
  obtain ⟨frame, read, rows⟩ := stats_read documented some_cpu (totals_fit noWrap)
  rw [latency_functions_eq noWrap, List.forall₂_iff_zip] at rows
  obtain ⟨length, each⟩ := rows
  refine ⟨frame, read, List.forall₂_iff_zip.mpr ⟨length, ?_⟩⟩
  intro fn row member
  obtain ⟨count, total⟩ := functions_totals noWrap (List.of_mem_zip member).1
  have tells := each member
  rwa [count, total] at tells

/-- Both readers read what the loader printed. -/
theorem dump_read_back {readCsv : List Char → Option (List FrameRow)}
    (documented : ReadsTables readCsv) (some_cpu : 0 < numCpus) (only : OnlyAttached m)
    (noWrap : NoWrap numCpus m) : ReadBack readCsv numCpus m (countedDurationOf numCpus m) := by
  have distinct := names_distinct noWrap only
  have functions := latency_functions_eq noWrap
  constructor
  · exact frame_read documented some_cpu noWrap
  · rw [means_read some_cpu distinct, functions]
    congr 1
    apply List.map_congr_left
    intro fn kept
    obtain ⟨count, total⟩ := functions_totals noWrap kept
    unfold printedMean
    rw [count, total]
  · exact functions ▸ distinct

/-- CPU 0 holds a duration but has counted no call; CPU 1 has counted one. -/
def strayDuration : Maps :=
  { Maps.empty with
    funcLatencyStats := fun cpu fn =>
      if fn = FunctionName.qiSubmitSync.value then
        if cpu = 0 then ⟨0, 5, 0⟩ else if cpu = 1 then ⟨1, 7, 0⟩ else noStats
      else noStats }

theorem stray_duration_attached : OnlyAttached strayDuration := by
  intro fn loose cpu
  have other : fn ≠ FunctionName.qiSubmitSync.value := by
    intro same
    rw [same] at loose
    exact loose (by decide)
  refine ⟨?_, rfl, fun _ _ => rfl⟩
  exact if_neg other

theorem stray_duration_fits : NoWrap 2 strayDuration := by
  unfold NoWrap
  decide

/-- int() of digits with a sign. -/
def wholeOf : List Char → Option Int
  | [] => none
  | c :: w => if c = '-' then (readNat w).map fun n : Nat => -(n : Int) else (readNat (c :: w)).map Int.ofNat

/-- A field of a column: an integer if they all are, else a decimal if they all are. -/
def cellOf (fields : List (List Char)) (f : List Char) : Cell :=
  if fields.all fun g => (wholeOf g).isSome then .int ((wholeOf f).getD 0)
  else if fields.all fun g => (readDecimal g).isSome then .float (toDouble ((readDecimal f).getD 0))
  else .text f

def frameReader (content : List Char) : Option (List FrameRow) :=
  let records := dictReader content
  some (records.map fun r => r.map fun p => (p.1, cellOf (records.filterMap (·.lookup p.1)) p.2))

theorem word_unread {w : List Char} (word : IsWord w) : wholeOf w = none ∧ readDecimal w = none := by
  obtain ⟨long, chars, first⟩ := word
  cases w with
  | nil => cases long
  | cons c w =>
    have letter : c.isDigit = false := first c rfl
    have other : c ≠ '-' := by
      intro same
      rw [same] at chars
      simp [isNameChar] at chars
    constructor
    · unfold wholeOf readNat
      simp [other, letter]
    · unfold readDecimal readUnsigned
      simp [other, letter]

theorem whole_print_nat (n : Nat) : wholeOf (printNat n) = some (n : Int) := by
  have digits := print_nat_digits n
  have back := read_print_nat n
  cases text : printNat n with
  | nil => exact absurd text (print_nat_ne_nil n)
  | cons c w =>
    have digit := digits c (text ▸ List.mem_cons_self)
    have other : c ≠ '-' := by
      intro same
      rw [same] at digit
      exact absurd digit (by decide)
    rw [text] at back
    unfold wholeOf
    dsimp only
    rw [if_neg other, back]
    rfl

theorem point_unread {w : List Char} (point : '.' ∈ w) : readNat w = none := by
  have digits : w.all Char.isDigit ≠ true := by
    intro all
    exact absurd (List.all_eq_true.mp all '.' point) (by decide)
  unfold readNat
  exact if_neg fun both => digits both.2

theorem fixed_unread (negative : Bool) (n : Nat) : wholeOf (printFixed 2 negative n) = none := by
  have point : ∀ l k : List Char, '.' ∈ l ++ '.' :: k := fun l k => by simp
  cases negative with
  | true =>
    have unread := point_unread (point (printNat (n / 10 ^ 2)) (padded 2 (n % 10 ^ 2)))
    exact congrArg (Option.map fun k : Nat => -(k : Int)) unread
  | false =>
    unfold wholeOf printFixed
    rw [if_neg Bool.false_ne_true, List.nil_append]
    cases text : printNat (n / 10 ^ 2) ++ '.' :: padded 2 (n % 10 ^ 2) with
    | nil => rfl
    | cons c w =>
      have inside : '.' ∈ c :: w := text ▸ point _ _
      dsimp only
      split
      · rename_i minus
        have later : '.' ∈ w := by
          rcases List.mem_cons.mp inside with same | later
          · exact absurd (same.trans minus) (by decide)
          · exact later
        rw [point_unread later]
        rfl
      · rw [point_unread inside]
        rfl

theorem cell_reads {kind : Kind} {fields : List (List Char)} {f : List Char}
    (all : ∀ g ∈ fields, kind.Has g) (member : f ∈ fields) : kind.Reads f (cellOf fields f) := by
  cases kind with
  | word =>
    obtain ⟨whole, decimal⟩ := word_unread (all f member)
    have no_wholes : ¬ (fields.all fun g => (wholeOf g).isSome) = true := by
      intro wholes
      have mine := List.all_eq_true.mp wholes f member
      rw [whole] at mine
      cases mine
    have no_decimals : ¬ (fields.all fun g => (readDecimal g).isSome) = true := by
      intro decimals
      have mine := List.all_eq_true.mp decimals f member
      rw [decimal] at mine
      cases mine
    unfold cellOf
    rw [if_neg no_wholes, if_neg no_decimals]
    rfl
  | count =>
    intro n _ text
    have wholes : (fields.all fun g => (wholeOf g).isSome) = true := by
      apply List.all_eq_true.mpr
      intro g inside
      obtain ⟨k, _, rfl⟩ := all g inside
      rw [whole_print_nat]
      rfl
    unfold cellOf
    rw [if_pos wholes, text, whole_print_nat]
    rfl
  | decimal =>
    intro n _ text
    have no_wholes : ¬ (fields.all fun g => (wholeOf g).isSome) = true := by
      intro wholes
      have mine := List.all_eq_true.mp wholes f member
      rw [text, fixed_unread] at mine
      cases mine
    have decimals : (fields.all fun g => (readDecimal g).isSome) = true := by
      apply List.all_eq_true.mpr
      intro g inside
      obtain ⟨negative, k, rfl⟩ := all g inside
      rw [read_print_fixed two_pos]
      rfl
    unfold cellOf
    rw [if_neg no_wholes, if_pos decimals, text, read_print_fixed two_pos]
    rfl

theorem lookup_map_values {α β γ : Type} [BEq α] [LawfulBEq α] (g : α → β → γ) (l : List (α × β))
    (key : α) : (l.map fun p => (p.1, g p.1 p.2)).lookup key = (l.lookup key).map (g key) := by
  induction l with
  | nil => rfl
  | cons p l ih =>
    obtain ⟨k, v⟩ := p
    by_cases same : key = k
    · subst same
      simp
    · have other : (key == k) = false := beq_false_of_ne same
      simp [List.lookup_cons, other, ih]

/-- A reader that does what is asked of pandas. -/
theorem frame_reader_reads : ReadsTables frameReader := by
  intro header rows table _ _
  refine ⟨_, rfl, ?_⟩
  have records : dictReader (csvContent (csvLine header) (rows.map csvLine)) =
      rows.map fun row => header.zip row := dict_reader_table table
  rw [records, List.map_map, List.forall₂_map_right_iff, List.forall₂_same]
  intro row member name kind column
  obtain ⟨f, found, _⟩ := column row member
  let fields := (rows.map fun row => header.zip row).filterMap (·.lookup name)
  have mine : f ∈ fields :=
    List.mem_filterMap.mpr ⟨header.zip row, List.mem_map_of_mem member, found⟩
  have all : ∀ g ∈ fields, kind.Has g := by
    intro g inside
    obtain ⟨r, from_row, here⟩ := List.mem_filterMap.mp inside
    obtain ⟨other, known, rfl⟩ := List.mem_map.mp from_row
    obtain ⟨h, there, has⟩ := column other known
    exact Option.some.inj (there.symm.trans here) ▸ has
  refine ⟨f, cellOf fields f, found, ?_, cell_reads all mine⟩
  dsimp only [Function.comp_apply]
  rw [lookup_map_values fun name f =>
    cellOf ((rows.map fun row => header.zip row).filterMap (·.lookup name)) f]
  exact congrArg (Option.map _) found

/-- The duration of the CPU without a call is left out. -/
theorem duration_left_out : OnlyAttached strayDuration ∧ NoWrap 2 strayDuration ∧
    ∀ readCsv, ReadsTables readCsv →
      ¬ ReadBack readCsv 2 strayDuration (durationOf 2 strayDuration) := by
  refine ⟨stray_duration_attached, stray_duration_fits, ?_⟩
  intro readCsv documented claimed
  obtain ⟨frame, read, rows⟩ := frame_read documented (by decide) stray_duration_fits
  obtain ⟨claimedFrame, again, claimedRows⟩ := claimed.stats
  cases Option.some.inj (read.symm.trans again)
  have functions : functionsOf 2 strayDuration = [FunctionName.qiSubmitSync.value] := by decide +kernel
  rw [functions] at rows claimedRows
  cases rows with
  | cons first _ =>
    cases claimedRows with
    | cons other _ =>
      have totals := first.total.symm.trans other.total
      exact absurd totals (by decide)

theorem two_cpus_read_back :
    ReadBack frameReader 2 strayDuration (countedDurationOf 2 strayDuration) :=
  dump_read_back frame_reader_reads (by decide) stray_duration_attached stray_duration_fits

end StatsRoundTrip
