import FastSafeIO.GuestLoader

/-! The two scripts that read the loader's file. -/
namespace StatsReaders
set_option linter.style.nameCheck false
open TracingUtils GuestTracer GuestLoader NearestFloat TextTables

def startsWith (title line : List Char) : Bool := title.isPrefixOf (strip line)

abbrev Record := List (List Char × List Char)

def column (name : String) (r : Record) : Option (List Char) := r.lookup name.toList

/-- A value in a data frame. -/
inductive Cell where
  | text (w : List Char)
  | int (n : Int)
  | float (x : ℚ)
  | missing
  deriving DecidableEq

/-- A row of a data frame, by the names of its columns. -/
abbrev FrameRow := List (List Char × Cell)

/-- The loop of __get_ebpf_stats over the lines, from line i on. -/
def findSection (i : Nat) (startIdx : Option Nat) : List (List Char) → Option Nat × Option Nat
  | [] => (startIdx, none)
  | line :: rest =>
    let startIdx := if startsWith latencyTitle line then some (i + 1) else startIdx
    if startsWith perCpuCountsTitle line then (startIdx, some i)
    else findSection (i + 1) startIdx rest

/-- Stripped lines that are not blank and no comment. -/
def dataLines (lines : List (List Char)) : List (List Char) :=
  (lines.map strip).filter fun l => l ≠ [] ∧ ¬ ['#'].isPrefixOf l

def csvContent (header : List Char) (rows : List (List Char)) : List Char :=
  header ++ '\n' :: joinLines rows

variable (readCsv : List Char → Option (List FrameRow))

/-- __get_ebpf_stats of report-tput-metrics.py on a file that exists; none is None, or an exception
    of read_csv. -/
def __getEbpfStats (file : List Char) : Option (List FrameRow) :=
  let lines := readLines file
  match findSection 0 none lines with
  | (some startIdx, some endIdx) =>
    if endIdx ≤ startIdx then none
    else
      match lines[startIdx]? with
      | none => none
      | some header =>
        let rows := dataLines ((lines.drop (startIdx + 1)).take (endIdx - (startIdx + 1)))
        readCsv (csvContent (strip header) rows)
  | _ => none

/-- The loop of parse_aggregate_stats: the section ends at the next comment. -/
def findAggregate (i : Nat) (startIdx : Option Nat) : List (List Char) → Option Nat × Option Nat
  | [] => (startIdx, none)
  | line :: rest =>
    if startsWith latencyTitle line then findAggregate (i + 1) (some (i + 1)) rest
    else if startIdx.isSome && startsWith ['#'] line then (startIdx, some i)
    else findAggregate (i + 1) startIdx rest

/-- An entry of a dict: one that is there keeps its place and gets the new value. -/
def setItem {ν : Type} (d : List (List Char × ν)) (key : List Char) (value : ν) :
    List (List Char × ν) :=
  if key ∈ d.map Prod.fst then d.map fun p => if p.1 = key then (key, value) else p
  else d ++ [(key, value)]

def addMean (stats : List (List Char × ℚ)) (r : Record) : Option (List (List Char × ℚ)) := do
  let function ← column "function" r
  let mean ← (column "mean_ns" r).bind readDecimal
  some (setItem stats function (toDouble mean))

/-- parse_aggregate_stats of siyuan_invalidation_breakdown.py; none is an exception. -/
def parseAggregateStats (file : List Char) : Option (List (List Char × ℚ)) :=
  let lines := readLines file
  match findAggregate 0 none lines with
  | (none, _) => none
  | (some startIdx, endIdx) =>
    match lines[startIdx]? with
    | none => none
    | some header =>
      let endIdx := endIdx.getD lines.length
      let rows := dataLines ((lines.drop (startIdx + 1)).take (endIdx - (startIdx + 1)))
      (dictReader (csvContent (strip header) rows)).foldlM addMean []

/-- What pandas.read_csv reads as a missing value. -/
def naValues : List (List Char) :=
  ["".toList, "#N/A".toList, "#N/A N/A".toList, "#NA".toList, "-1.#IND".toList, "-1.#QNAN".toList,
    "-NaN".toList, "-nan".toList, "1.#IND".toList, "1.#QNAN".toList, "<NA>".toList, "N/A".toList,
    "NA".toList, "NULL".toList, "NaN".toList, "None".toList, "n/a".toList, "nan".toList,
    "null".toList]

/-- A letter, a digit or an underscore. -/
def isNameChar (c : Char) : Bool :=
  (97 ≤ c.toNat && c.toNat ≤ 122) || (65 ≤ c.toNat && c.toNat ≤ 90) ||
    (48 ≤ c.toNat && c.toNat ≤ 57) || c.toNat = 95

/-- A name longer than the words for truth values and for what is infinite. -/
structure IsWord (w : List Char) : Prop where
  long : 8 < w.length
  chars : w.all isNameChar = true
  first : ∀ c ∈ w.head?, c.isDigit = false

/-- Columns whose fields are all alike. -/
inductive Kind where
  | word
  | count
  | decimal

/-- Names, counters of 64 bits, and numbers with two decimal places. -/
def Kind.Has : Kind → List Char → Prop
  | .word, f => IsWord f
  | .count, f => ∃ n < 2 ^ 64, f = printNat n
  | .decimal, f => ∃ negative n, f = printFixed 2 negative n

/-- What pandas makes of a field in such a column. Its converter of decimals may miss the nearest
    double, but not where the digits are a double themselves. -/
def Kind.Reads : Kind → List Char → Cell → Prop
  | .word, f, c => c = .text f
  | .count, f, c => ∀ n < 2 ^ 64, f = printNat n → c = .int n
  | .decimal, f, c => ∀ n < 2 ^ 53, f = printFixed 2 false n → c = .float (toDouble (n / 10 ^ 2))

def field (header row : List (List Char)) (name : List Char) : Option (List Char) :=
  (header.zip row).lookup name

def ColumnIs (header : List (List Char)) (rows : List (List (List Char))) (name : List Char)
    (kind : Kind) : Prop :=
  ∀ row ∈ rows, ∃ f, field header row name = some f ∧ kind.Has f

/-- pandas.read_csv reads a table of plain fields, none of which stands for a missing value, row by
    row, each column as the kind that its fields have. -/
def ReadsTables : Prop :=
  ∀ header rows, PlainTable header rows → header.Nodup → (∀ row ∈ rows, ∀ f ∈ row, f ∉ naValues) →
    ∃ frame, readCsv (csvContent (csvLine header) (rows.map csvLine)) = some frame ∧
      List.Forall₂ (fun row out => ∀ name kind, ColumnIs header rows name kind →
        ∃ f c, field header row name = some f ∧ out.lookup name = some c ∧ kind.Reads f c) rows frame

variable (numCpus : Nat) (m : Maps)

def sumOver (f : Nat → Nat) : Nat := ((List.range numCpus).map f).sum

def callsOf (fn : Nat) : Nat := sumOver numCpus fun cpu => (m.funcLatencyStats cpu fn).count

def durationOf (fn : Nat) : Nat :=
  sumOver numCpus fun cpu => (m.funcLatencyStats cpu fn).totalDurationNs

/-- The duration over the CPUs that have counted a call. -/
def countedDurationOf (fn : Nat) : Nat :=
  sumOver numCpus fun cpu =>
    let s := m.funcLatencyStats cpu fn
    if s.count = 0 then 0 else s.totalDurationNs

/-- The latency functions with calls. -/
def functionsOf : List Nat :=
  (List.range TRACE_FUNCS_END).filter fun fn => callsOf numCpus m fn ≠ 0

/-- The mean as it is printed. -/
def meanOf (time calls : Nat) : ℚ := rounded 2 (quotient time calls)

/-- A row with a function's name, count, total duration and mean. -/
structure RowTells (name : List Char) (calls time : Nat) (row : FrameRow) : Prop where
  function : row.lookup "function".toList = some (.text name)
  count : row.lookup "count".toList = some (.int calls)
  total : row.lookup "total_duration_ns".toList = some (.int time)
  mean : meanOf time calls * 100 < 2 ^ 53 →
    row.lookup "mean_ns".toList = some (.float (toDouble (meanOf time calls)))

/-- Both readers find the functions in the file, each of them once. -/
structure ReadBack (duration : Nat → Nat) : Prop where
  stats : ∃ frame, __getEbpfStats readCsv (dumpAggregateToFile numCpus m) = some frame ∧
    List.Forall₂ (fun fn row => RowTells (fnName fn) (callsOf numCpus m fn) (duration fn) row)
      (functionsOf numCpus m) frame
  means : parseAggregateStats (dumpAggregateToFile numCpus m) = some ((functionsOf numCpus m).map
    fun fn => (fnName fn, toDouble (meanOf (duration fn) (callsOf numCpus m fn))))
  distinct : ((functionsOf numCpus m).map fnName).Nodup

/-- Functions that the loader does not attach have empty cells. -/
def OnlyAttached : Prop :=
  ∀ fn, fn ∉ probesToAttach.map FunctionName.value → ∀ cpu,
    m.funcLatencyStats cpu fn = noStats ∧ m.funcCallCounts cpu fn = 0 ∧
      ∀ bucket < HISTO_BUCKETS, m.cell cpu fn bucket = 0

def NoWrap : Prop :=
  ∀ fn < TRACE_FUNCS_END, callsOf numCpus m fn < 2 ^ 64 ∧ durationOf numCpus m fn < 2 ^ 64

section
variable {numCpus : Nat} {m : Maps}

theorem na_values_no_number : naValues.all (fun v => v.isEmpty || !v.all isNumeric) = true := by
  decide

theorem numeric_plain {l : List Char} (some_char : l ≠ []) (numeric : ∀ c ∈ l, isNumeric c = true) :
    Plain l ∧ l ∉ naValues := by
  constructor
  · exact ⟨some_char, fun c member => numeric_char (numeric c member)⟩
  · intro na
    have text := List.all_eq_true.mp na_values_no_number l na
    have all : l.all isNumeric = true := List.all_eq_true.mpr numeric
    simp [all, some_char] at text

theorem minus_one_plain : Plain "-1".toList ∧ "-1".toList ∉ naValues :=
  numeric_plain (by decide) (List.all_eq_true.mp (by decide))

theorem print_nat_plain (n : Nat) : Plain (printNat n) ∧ printNat n ∉ naValues :=
  numeric_plain (print_nat_ne_nil n) (print_nat_numeric n)

theorem print_rounded_plain (places : Nat) (x : ℚ) :
    Plain (printRounded places x) ∧ printRounded places x ∉ naValues :=
  numeric_plain (print_fixed_ne_nil _ _ _) (print_fixed_numeric _ _ _)

theorem name_char {c : Char} (name : isNameChar c = true) :
    c ≠ '#' ∧ c ≠ ',' ∧ c ≠ '"' ∧ isSpace c = false := by
  have range : 48 ≤ c.toNat := by
    simp only [isNameChar, Bool.or_eq_true, Bool.and_eq_true, decide_eq_true_eq] at name
    omega
  have space : isSpace c = false := by
    unfold isSpace
    simp only [Bool.or_eq_false_iff, Bool.and_eq_false_iff, decide_eq_false_iff_not]
    omega
  refine ⟨?_, ?_, ?_, space⟩
  all_goals
    intro same
    rw [same] at range
    exact absurd range (by decide)

theorem names_check (f : FunctionName) : 8 < (funcNameToString f).toList.length ∧
    (funcNameToString f).toList.all isNameChar = true ∧
    ((funcNameToString f).toList.head?.any Char.isDigit) = false := by
  cases f <;> decide +kernel

theorem fn_name_word (fn : Nat) : IsWord (fnName fn) := by
  obtain ⟨long, chars, first⟩ := names_check (FunctionName.ofNat fn)
  refine ⟨long, chars, ?_⟩
  intro c head
  change (fnName fn).head?.any Char.isDigit = false at first
  rw [Option.mem_def.mp head] at first
  exact first

theorem na_values_no_name : naValues.all (fun v => v.length ≤ 4 || !v.all isNameChar) = true := by
  decide

theorem fn_name_plain (fn : Nat) : Plain (fnName fn) ∧ fnName fn ∉ naValues := by
  obtain ⟨long, all, _⟩ := fn_name_word fn
  have chars : ∀ c ∈ fnName fn, isNameChar c = true := List.all_eq_true.mp all
  have some_char : fnName fn ≠ [] := by
    intro empty
    rw [empty] at long
    exact absurd long (by decide)
  constructor
  · exact ⟨some_char, fun c member => (name_char (chars c member)).2⟩
  · intro na
    have text := List.all_eq_true.mp na_values_no_name _ na
    simp only [all, Bool.not_true, Bool.or_false, decide_eq_true_eq] at text
    omega

theorem fn_name_head (fn : Nat) : (fnName fn).head? ≠ some '#' := by
  have chars : ∀ c ∈ fnName fn, isNameChar c = true :=
    List.all_eq_true.mp (fn_name_word fn).chars
  intro comment
  exact (name_char (chars '#' (List.mem_of_head? comment))).1 rfl

end

end StatsReaders
