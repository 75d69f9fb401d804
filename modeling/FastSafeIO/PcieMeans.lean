import FastSafeIO.PcieReport

/-! From the counters of pcm-iio to the lists of the collector: each statistic of a run is the mean
of its own column. -/
namespace PcieMeans
open TextTables NearestFloat PcieLists PcieReport

/-- The column of a statistic, and whether it is a rate. -/
def columnOf : Statistic → Nat × Bool
  | .pcieWrTput => (6, true)
  | .iotlbFirstLookup => (10, false)
  | .iotlbAllLookup => (11, false)
  | .iotlbMiss => (15, false)
  | .iommuMemAccess => (24, false)
  | .iotlbInv => (26, false)
  | .pwtOccupancy => (28, false)

/-- A counter in a row. -/
def counter (k : Nat) (row : List Char) : Nat := (readNat (fieldOf k row)).getD 0

def total (rows : List (List Char)) (k : Nat) : Nat := (rows.map (counter k)).sum

/-- The mean over the rows, in Gbps for a rate; 0 without rows. -/
def mean (rows : List (List Char)) (column : Nat × Bool) : ℚ :=
  let counts : ℚ := total rows column.1 / rows.length
  if column.2 then counts * 8 / 10 ^ 9 else counts

/-- The seven columns hold counters, and their sums are exact in a double. -/
structure Counted (csv : Option (List Char)) : Prop where
  numbers : ∀ s, ∀ row ∈ rowsOf csv, ∃ n, fieldOf (columnOf s).1 row = printNat n
  small : ∀ s, total (rowsOf csv) (columnOf s).1 < 2 ^ 53

theorem digits_only {word : List Char} (digits : ∀ c ∈ word, c.isDigit = true) :
    word.takeWhile Char.isDigit = word ∧ word.dropWhile Char.isDigit = [] := by
  constructor
  · exact List.takeWhile_eq_self_iff.mpr digits
  · exact List.dropWhile_eq_nil_iff.mpr digits

theorem awk_print_nat (n : Nat) : awkNumber (printNat n) = toDouble n := by
  have digits := print_nat_digits n
  have some_digit := print_nat_ne_nil n
  obtain ⟨whole, none⟩ := digits_only digits
  have read : Nat.ofDigitChars 10 (printNat n) 0 = n := Nat.ofDigitChars_ten_toDigits
  have space : (printNat n).dropWhile isSpace = printNat n := by
    cases word : printNat n with
    | nil => rfl
    | cons c rest =>
      have solid := (numeric_char (print_nat_numeric n c (word ▸ List.mem_cons_self))).2.2
      rw [List.dropWhile_cons_of_neg (by simp [solid])]
  have sign : ∀ c, c.isDigit = false → (printNat n).head? ≠ some c := by
    intro c other first
    have digit := digits c (List.mem_of_mem_head? first)
    rw [other] at digit
    cases digit
  have minus := sign '-' (by decide)
  have plus := sign '+' (by decide)
  simp [awkNumber, space, minus, plus, whole, none, some_digit, read, exponentOf]

theorem sum_exact {k : Nat} {rows : List (List Char)}
    (numbers : ∀ row ∈ rows, ∃ n, fieldOf k row = printNat n) (before : Nat)
    (small : before + total rows k < 2 ^ 53) :
    rows.foldl (fun sum row => toDouble (sum + awkNumber (fieldOf k row))) (before : ℚ) =
      (before + total rows k : ℕ) := by
  induction rows generalizing before with
  | nil => simp [total]
  | cons row rows ih =>
    obtain ⟨n, field⟩ := numbers row List.mem_cons_self
    have here : counter k row = n := by
      unfold counter
      rw [field, read_print_nat]
      rfl
    have next : total (row :: rows) k = n + total rows k := by
      unfold total
      rw [List.map_cons, List.sum_cons, here]
    rw [next] at small ⊢
    have exact_here : toDouble n = n := by
      have kept := to_double_int (n := n) (by rw [Nat.abs_cast]; omega)
      exact_mod_cast kept
    have exact_sum : toDouble ((before : ℚ) + n) = (before + n : ℕ) := by
      have kept := to_double_int (n := (before + n : ℕ)) (by rw [Nat.abs_cast]; omega)
      exact_mod_cast kept
    rw [List.foldl_cons, field, awk_print_nat, exact_here, exact_sum,
      ih (fun r member => numbers r (List.mem_cons_of_mem row member)) (before + n) (by omega),
      Nat.add_assoc]

theorem column_sum_exact {csv : Option (List Char)} (counted : Counted csv) (s : Statistic) :
    columnSum (rowsOf csv) (columnOf s).1 = total (rowsOf csv) (columnOf s).1 := by
  have sum := sum_exact (counted.numbers s) 0 (by rw [Nat.zero_add]; exact counted.small s)
  rw [Nat.zero_add, Nat.cast_zero] at sum
  exact sum

theorem printed_solid (places : Nat) (x : ℚ) : ∀ c ∈ printRounded places x, isSpace c = false :=
  fun c member => (numeric_char (print_fixed_numeric places _ _ c member)).2.2

theorem read_output (rows : List (List Char)) :
    words (awkOutput rows) = awkFields.map fun field => printRounded 6 (awkValue rows field) := by
  unfold awkOutput
  generalize awkFields = fields
  induction fields with
  | nil => rfl
  | cons field fields ih =>
    rw [List.flatMap_cons, List.append_assoc, List.singleton_append,
      words_cons (printed_solid _ _) (print_fixed_ne_nil _ _ _) (by decide), ih, List.map_cons]

theorem report_eq (csv : Option (List Char)) : parsePciebw csv = (labels.zip awkFields).flatMap
    fun line => reportLine line.1 (printRounded 6 (awkValue (rowsOf csv) line.2)) := by
  unfold parsePciebw
  dsimp only
  rw [read_output]
  rfl

theorem bash_printed (v : ℚ) : bashNumber (printRounded 6 v) = roundTo 63 (rounded 6 v) := by
  unfold bashNumber
  rw [read_print_rounded (by decide)]

/-- A line of the report as it is read: its label, and the number with three places. -/
theorem split_line {label : String} (solid : ∀ c ∈ label.toList, isSpace c = false)
    (some_char : label.toList ≠ []) (v : ℚ) :
    words (reportLine label (printRounded 6 v)) =
      [label.toList, printRounded 3 (roundTo 63 (rounded 6 v))] := by
  unfold reportLine
  rw [bash_printed, words_cons solid some_char (by decide),
    words_cons (printed_solid _ _) (print_fixed_ne_nil _ _ _) (by decide)]
  rfl

theorem float_last (first : List Char) (v : ℚ) :
    pythonText.float ([printRounded 3 (roundTo 63 (rounded 6 v))].getLastD first) =
      some (readBack v) := by
  have read := read_print_rounded (by decide : 0 < 3) (roundTo 63 (rounded 6 v))
  exact congrArg (Option.map toDouble) read

section
variable {label : String} (solid : ∀ c ∈ label.toList, isSpace c = false)
  (some_char : label.toList ≠ [])
include solid some_char

theorem line_good (v : ℚ) : raises pythonText (reportLine label (printRounded 6 v)) = false := by
  have split : pythonText.split (reportLine label (printRounded 6 v)) = _ := split_line solid some_char v
  unfold raises
  rw [split]
  dsimp only
  rw [float_last]
  simp

theorem line_number (s : Statistic) {v : ℚ}
    (positive : labelOf label.toList = some s → 0 ≤ readBack v) :
    numberFor pythonText s (reportLine label (printRounded 6 v)) =
      if labelOf label.toList = some s then some (readBack v) else none := by
  have split : pythonText.split (reportLine label (printRounded 6 v)) = _ := split_line solid some_char v
  unfold numberFor
  rw [split]
  dsimp only
  rw [float_last]
  by_cases own : labelOf label.toList = some s
  · have kept : pythonText.notNegative (readBack v) = true := decide_eq_true (positive own)
    simp [own, kept]
  · rw [if_neg own, if_neg own]

end

theorem report_line_whole {label : String} (plain : '\n' ∉ label.toList) (v : ℚ) :
    ∃ line, '\n' ∉ line ∧ reportLine label (printRounded 6 v) = line ++ ['\n'] := by
  refine ⟨label.toList ++ ' ' :: printRounded 3 (bashNumber (printRounded 6 v)), ?_, ?_⟩
  · intro newline
    rw [List.mem_append, List.mem_cons] at newline
    rcases newline with label | space | number
    · exact plain label
    · exact absurd space (by decide)
    · exact absurd (printed_solid _ _ _ number) (by decide)
  · unfold reportLine
    simp

theorem read_report {lines : List (String × (Nat × Bool))} (rows : List (List Char))
    (plain : ∀ line ∈ lines, '\n' ∉ line.1.toList) :
    readLines (lines.flatMap fun line => reportLine line.1 (printRounded 6 (awkValue rows line.2))) =
      lines.map fun line => reportLine line.1 (printRounded 6 (awkValue rows line.2)) := by
  induction lines with
  | nil => rfl
  | cons line lines ih =>
    obtain ⟨text, whole, same⟩ := report_line_whole (plain line List.mem_cons_self)
      (awkValue rows line.2)
    rw [List.flatMap_cons, List.map_cons, same, List.append_assoc, List.singleton_append,
      read_lines_cons whole, ih fun l member => plain l (List.mem_cons_of_mem line member)]

theorem read_back_near {v : ℚ} (positive : 0 ≤ v) :
    |readBack v - v| ≤ 505 / 10 ^ 6 + v / 2 ^ 52 := by
  have six := rounded_error 6 v
  have long := round_to_error 63 (rounded 6 v)
  have three := rounded_error 3 (roundTo 63 (rounded 6 v))
  have last : |toDouble _ - _| ≤ _ := round_to_error 52 (rounded 3 (roundTo 63 (rounded 6 v)))
  unfold readBack
  generalize rounded 6 v = a at *
  generalize roundTo 63 a = l at *
  generalize rounded 3 l = b at *
  generalize toDouble b = c at *
  have a_size : |a| ≤ v + 1 / 2 / 10 ^ 6 := by
    have parts := abs_sub_abs_le_abs_sub a v
    rw [abs_of_nonneg positive] at parts
    linarith
  have l_size : |l| ≤ |a| + |a| / 2 ^ (63 + 1) := by
    have parts := abs_sub_abs_le_abs_sub l a
    linarith
  have b_size : |b| ≤ |l| + 1 / 2 / 10 ^ 3 := by
    have parts := abs_sub_abs_le_abs_sub b l
    linarith
  have path : |c - v| ≤ |c - b| + (|b - l| + (|l - a| + |a - v|)) := by
    have first := abs_sub_le c b v
    have second := abs_sub_le b l v
    have third := abs_sub_le l a v
    linarith
  norm_num at *
  linarith

theorem read_back_nonneg {v : ℚ} (positive : 0 ≤ v) : 0 ≤ readBack v :=
  round_to_nonneg 52 (rounded_nonneg 3 (round_to_nonneg 63 (rounded_nonneg 6 positive)))

theorem double_near {x : ℚ} (positive : 0 ≤ x) : |toDouble x - x| ≤ x / 2 ^ 53 := by
  have error := round_to_error 52 x
  rw [abs_of_nonneg positive] at error
  exact error

theorem mean_nonneg (rows : List (List Char)) (column : Nat × Bool) : 0 ≤ mean rows column := by
  unfold mean
  dsimp only
  split <;> positivity

theorem awk_value_near {csv : Option (List Char)} (counted : Counted csv) (s : Statistic) :
    0 ≤ awkValue (rowsOf csv) (columnOf s) ∧
    |awkValue (rowsOf csv) (columnOf s) - mean (rowsOf csv) (columnOf s)| ≤
      mean (rowsOf csv) (columnOf s) * (2 / 2 ^ 52) := by
  have sum := column_sum_exact counted s
  generalize rowsOf csv = rows at *
  generalize columnOf s = column at *
  have quotient : (total rows column.1 : ℚ) / (if rows.length = 0 then 1 else rows.length : ℕ) =
      total rows column.1 / rows.length := by
    by_cases none : rows.length = 0
    · have empty := List.length_eq_zero_iff.mp none
      simp [empty, total]
    · rw [if_neg none]
  have counts : 0 ≤ (total rows column.1 : ℚ) / rows.length := by positivity
  have averaged : average rows column.1 = toDouble (total rows column.1 / rows.length) := by
    unfold average
    rw [sum]
    exact congrArg toDouble quotient
  have near := double_near counts
  have positive : 0 ≤ toDouble _ := round_to_nonneg 52 counts
  unfold awkValue mean
  dsimp only
  rw [averaged]
  generalize toDouble ((total rows column.1 : ℚ) / rows.length) = m at *
  generalize (total rows column.1 : ℚ) / rows.length = x at *
  cases column.2 with
  | false =>
    simp only [Bool.false_eq_true, if_false]
    refine ⟨positive, near.trans ?_⟩
    norm_num
    linarith
  | true =>
    simp only [if_true]
    unfold gbps
    have eight : 0 ≤ m * 8 := by positivity
    have bits := double_near eight
    have bits_positive : 0 ≤ toDouble _ := round_to_nonneg 52 eight
    generalize toDouble (m * 8) = b at *
    have rate : 0 ≤ b / 10 ^ 9 := by positivity
    have last := double_near rate
    have last_positive : 0 ≤ toDouble _ := round_to_nonneg 52 rate
    generalize toDouble (b / 10 ^ 9) = g at *
    refine ⟨last_positive, ?_⟩
    rw [abs_le] at *
    norm_num at *
    constructor <;> linarith

theorem own_line (s : Statistic) :
    (labels.zip awkFields).filter (fun line => labelOf line.1.toList = some s) =
      [(s.label, columnOf s)] := by
  cases s <;> decide

theorem labels_check : ∀ line ∈ labels.zip awkFields, line.1.toList ≠ [] ∧
    line.1.toList.all (!isSpace ·) = true := by decide

theorem labels_plain : ∀ line ∈ labels.zip awkFields, '\n' ∉ line.1.toList ∧ line.1.toList ≠ [] ∧
    ∀ c ∈ line.1.toList, isSpace c = false := by
  intro line member
  obtain ⟨some_char, all⟩ := labels_check line member
  have solid := solid_of_all all
  exact ⟨fun newline => absurd (solid '\n' newline) (by decide), some_char, solid⟩

theorem filter_map_if {α β : Type} (p : α → Prop) [DecidablePred p] (f : α → β) (l : List α) :
    (l.filterMap fun a => if p a then some (f a) else none) = (l.filter fun a => p a).map f := by
  induction l with
  | nil => rfl
  | cons a l ih =>
    by_cases kept : p a
    · simp [kept, ih]
    · simp [kept, ih]

section
variable {csv : Option (List Char)}

theorem report_lines (csv : Option (List Char)) : (reportOf csv).lines = (labels.zip awkFields).map
    fun line => reportLine line.1 (printRounded 6 (awkValue (rowsOf csv) line.2)) := by
  unfold reportOf
  dsimp only
  rw [report_eq]
  exact read_report (rowsOf csv) fun line member => (labels_plain line member).1

theorem report_good (csv : Option (List Char)) :
    ∀ line ∈ (reportOf csv).lines, raises pythonText line = false := by
  rw [report_lines]
  intro text member
  obtain ⟨line, inside, rfl⟩ := List.mem_map.mp member
  obtain ⟨_, some_char, solid⟩ := labels_plain line inside
  exact line_good solid some_char _

theorem report_whole (csv : Option (List Char)) : ¬ Broken pythonText (reportOf csv) := by
  intro broken
  rcases broken with raised | ⟨line, member, bad⟩
  · cases raised
  · rw [report_good csv line member] at bad
    cases bad

theorem report_numbers (counted : Counted csv) (s : Statistic) :
    numbers pythonText (reportOf csv).lines s =
      [readBack (awkValue (rowsOf csv) (columnOf s))] := by
  have positive := (awk_value_near counted s).1
  have all : (reportOf csv).lines.takeWhile (!raises pythonText ·) = (reportOf csv).lines := by
    apply List.takeWhile_eq_self_iff.mpr
    intro line member
    rw [report_good csv line member]
    rfl
  have each : ∀ line ∈ labels.zip awkFields,
      (numberFor pythonText s ∘ fun line =>
        reportLine line.1 (printRounded 6 (awkValue (rowsOf csv) line.2))) line =
      if labelOf line.1.toList = some s then some (readBack (awkValue (rowsOf csv) line.2)) else none := by
    intro line member
    obtain ⟨_, some_char, solid⟩ := labels_plain line member
    apply line_number solid some_char s
    intro own
    have here : line ∈ (labels.zip awkFields).filter fun line => labelOf line.1.toList = some s :=
      List.mem_filter.mpr ⟨member, decide_eq_true own⟩
    rw [own_line, List.mem_singleton] at here
    rw [here]
    exact read_back_nonneg positive
  unfold numbers
  rw [all, report_lines, List.filterMap_map, List.filterMap_congr each, filter_map_if, own_line]
  rfl

theorem report_all_or_nothing (counted : Counted csv) : AllOrNothing pythonText (reportOf csv) := by
  right
  constructor
  · exact report_whole csv
  · intro s
    rw [report_numbers counted s]
    rfl

theorem report_sample (counted : Counted csv) (s : Statistic) :
    sampleOf pythonText (reportOf csv) s = readBack (awkValue (rowsOf csv) (columnOf s)) := by
  unfold sampleOf
  rw [report_numbers counted s]
  rfl

/-- From a counter to a statistic, all roundings together. -/
theorem sample_near (counted : Counted csv) (s : Statistic) :
    |sampleOf pythonText (reportOf csv) s - mean (rowsOf csv) (columnOf s)| ≤
      51 / 10 ^ 5 + mean (rowsOf csv) (columnOf s) / 2 ^ 50 := by
  have positive := mean_nonneg (rowsOf csv) (columnOf s)
  obtain ⟨value_positive, averaged⟩ := awk_value_near counted s
  have through := read_back_near value_positive
  rw [report_sample counted s]
  generalize awkValue (rowsOf csv) (columnOf s) = v at *
  generalize readBack v = c at *
  generalize mean (rowsOf csv) (columnOf s) = x at *
  have path := abs_sub_le c v x
  have size := (abs_le.mp averaged).2
  norm_num at *
  linarith

end

/-- The list of a statistic after all runs. -/
def samplesOf (runs : List (Option (List Char))) (s : Statistic) : List ℚ :=
  collect pythonText (runs.map reportOf) s

/-- Whatever the runs left in their pcie.csv, or left out: the collector has one number for each run
in each of its lists, and it is the mean of the statistic's own column over the rows of the filtered
stack, 0 without rows, up to the places of the report. -/
theorem samples_are_means {runs : List (Option (List Char))} (counted : ∀ csv ∈ runs, Counted csv)
    (s : Statistic) :
    (samplesOf runs s).length = runs.length ∧
    ∀ (r : Nat) (csv : Option (List Char)), runs[r]? = some csv → ∃ v, (samplesOf runs s)[r]? = some v ∧
      |v - mean (rowsOf csv) (columnOf s)| ≤ 51 / 10 ^ 5 + mean (rowsOf csv) (columnOf s) / 2 ^ 50 := by
  have whole : ∀ file ∈ runs.map reportOf, AllOrNothing pythonText file := by
    intro file member
    obtain ⟨csv, inside, rfl⟩ := List.mem_map.mp member
    exact report_all_or_nothing (counted csv inside)
  have listed : samplesOf runs s = runs.map fun csv => sampleOf pythonText (reportOf csv) s := by
    unfold samplesOf
    rw [collect_samples whole, List.map_map]
    rfl
  constructor
  · rw [listed, List.length_map]
  · intro r csv run
    refine ⟨sampleOf pythonText (reportOf csv) s, ?_, ?_⟩
    · rw [listed, List.getElem?_map, run]
      rfl
    · exact sample_near (counted csv (List.mem_of_getElem? run)) s

def twoParts : List String :=
  ["D,T,Socket1,IIO Stack 1 - PCIe3,Part0,800,90,0,0,70,71,72,73,74,5,1,2,3,4,5,6,7,8,31,0,9,0,2",
    "D,T,Socket1,IIO Stack 1 - PCIe3,Part1,1,1,0,0,1,1,1,1,1,1,1,1,1,1,1,1,1,1,1,0,1,0,1"]

def oneSecond : List Char := writeLines (twoParts.map String.toList)

theorem one_second_rows : rowsOf (some oneSecond) = [(twoParts.headD "").toList] := by decide +kernel

/-- A run without a file, and one with a row of the filtered part and one of another. -/
theorem one_second_counted :
    let samples := samplesOf [none, some oneSecond] .iotlbMiss
    samples.length = 2 ∧ ∃ v, samples[1]? = some v ∧
      |v - mean (rowsOf (some oneSecond)) (15, false)| ≤
        51 / 10 ^ 5 + mean (rowsOf (some oneSecond)) (15, false) / 2 ^ 50 := by
  have counted : ∀ csv ∈ [none, some oneSecond], Counted csv := by
    intro csv member
    rw [List.mem_cons, List.mem_singleton] at member
    rcases member with rfl | rfl
    · exact ⟨fun s row none => absurd none List.not_mem_nil, fun s => by cases s <;> decide⟩
    · constructor
      · intro s row inside
        rw [one_second_rows, List.mem_singleton] at inside
        rw [inside]
        cases s with
        | pcieWrTput => exact ⟨800, by decide⟩
        | iotlbFirstLookup => exact ⟨70, by decide⟩
        | iotlbAllLookup => exact ⟨71, by decide⟩
        | iotlbMiss => exact ⟨5, by decide⟩
        | iommuMemAccess => exact ⟨31, by decide⟩
        | iotlbInv => exact ⟨9, by decide⟩
        | pwtOccupancy => exact ⟨2, by decide⟩
      · intro s
        rw [one_second_rows]
        cases s <;> decide
  obtain ⟨two, each⟩ := samples_are_means counted .iotlbMiss
  exact ⟨two, each 1 (some oneSecond) rfl⟩

end PcieMeans
