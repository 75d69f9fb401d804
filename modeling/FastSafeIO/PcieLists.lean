import Mathlib.Logic.Function.Basic
import Mathlib.Algebra.BigOperators.Group.List.Basic
import FastSafeIO.TextTables

/-! The seven lists that collect-tput-stats.py fills from the pcie.rpt of each run. -/
namespace PcieLists
open TextTables

inductive Statistic where
  | pcieWrTput | iotlbFirstLookup | iotlbAllLookup | iotlbMiss | iommuMemAccess | iotlbInv
  | pwtOccupancy
  deriving DecidableEq

def Statistic.label : Statistic → String
  | .pcieWrTput => "PCIe_wr_tput:"
  | .iotlbFirstLookup => "IOTLB_first_lookup_avg:"
  | .iotlbAllLookup => "IOTLB_all_lookup_avg:"
  | .iotlbMiss => "IOTLB_miss_avg:"
  | .iommuMemAccess => "IOMMU_mem_access:"
  | .iotlbInv => "IOTLB_inv_avg:"
  | .pwtOccupancy => "PWT_occupancy_avg:"

/-- In the order of the comparisons. -/
def statistics : List Statistic :=
  [.pcieWrTput, .iotlbFirstLookup, .iotlbAllLookup, .iotlbMiss, .iommuMemAccess, .iotlbInv,
    .pwtOccupancy]

/-- What the loop uses of strings and numbers: line.split(), float(), 0 and the test for it. -/
structure Builtins (V : Type) where
  split : List Char → List (List Char)
  float : List Char → Option V
  zero : V
  notNegative : V → Bool

/-- The lines that a file gives, and whether opening it or reading on raises after them. -/
structure PcieFile where
  lines : List (List Char)
  raises : Bool

/-- One line of the loop: an exception, nothing, or a number for a list. -/
inductive LineEffect (V : Type) where
  | raised
  | skipped
  | appended (s : Statistic) (v : V)

abbrev Lists (V : Type) := Statistic → List V

def append {V : Type} (s : Statistic) (v : V) (lists : Lists V) : Lists V :=
  Function.update lists s (lists s ++ [v])

section
variable {V : Type} (py : Builtins V)

def labelOf (word : List Char) : Option Statistic := statistics.find? (·.label.toList = word)

def readLine (line : List Char) : LineEffect V :=
  match py.split line with
  | [] => .raised
  | first :: rest =>
    match labelOf first with
    | none => .skipped
    | some s =>
      match py.float (rest.getLastD first) with
      | none => .raised
      | some v =>
        if s = .pcieWrTput then
          if py.notNegative v then .appended s v else .skipped
        else .appended s v

/-- The lists, and whether a line raised. -/
def readPcie : List (List Char) → Lists V → Lists V × Bool
  | [], lists => (lists, false)
  | line :: rest, lists =>
    match readLine py line with
    | .raised => (lists, true)
    | .skipped => readPcie rest lists
    | .appended s v => readPcie rest (append s v lists)

/-- One pass of the loop. The handler leaves what has been appended and adds to all seven lists. -/
def collectRun (lists : Lists V) (file : PcieFile) : Lists V :=
  let read := readPcie py file.lines lists
  if read.2 || file.raises then fun s => read.1 s ++ [py.zero] else read.1

def collect (runs : List PcieFile) : Lists V := runs.foldl (collectRun py) fun _ => []

/-- A blank line, or a labelled one without a number. -/
def raises (line : List Char) : Bool :=
  match py.split line with
  | [] => true
  | first :: rest => (labelOf first).isSome && (py.float (rest.getLastD first)).isNone

/-- The number of a line that is labelled for a statistic. -/
def numberFor (s : Statistic) (line : List Char) : Option V :=
  match py.split line with
  | [] => none
  | first :: rest =>
    if labelOf first = some s then
      (py.float (rest.getLastD first)).filter fun v => s ≠ .pcieWrTput || py.notNegative v
    else none

/-- The numbers for a statistic up to the first line that raises. -/
def numbers (lines : List (List Char)) (s : Statistic) : List V :=
  (lines.takeWhile (!raises py ·)).filterMap (numberFor py s)

def Broken (file : PcieFile) : Prop := file.raises = true ∨ ∃ line ∈ file.lines, raises py line = true

/-- The sample of a run, 0 where it has none. -/
def sampleOf (file : PcieFile) (s : Statistic) : V := (numbers py file.lines s).headD py.zero

/-- The entry at p is there after pass r, and was not before. -/
def FilledBy (runs : List PcieFile) (s : Statistic) (p r : Nat) : Prop :=
  (collect py (runs.take r) s).length ≤ p ∧ p < (collect py (runs.take (r + 1)) s).length

structure OneSampleEach (runs : List PcieFile) : Prop where
  length : ∀ s, (collect py runs s).length = runs.length
  own : ∀ s, ∀ r < runs.length, FilledBy py runs s r r
  value : ∀ (s : Statistic) (r : Nat) (file : PcieFile), runs[r]? = some file →
    (collect py runs s)[r]? = some (sampleOf py file s)

/-- Broken off before the first number, or whole with one number for each of the seven. -/
def AllOrNothing (file : PcieFile) : Prop :=
  (Broken py file ∧ ∀ s, (numbers py file.lines s).length = 0) ∨
    (¬ Broken py file ∧ ∀ s, (numbers py file.lines s).length = 1)

end

section
variable {V : Type} {py : Builtins V} {runs : List PcieFile} {file : PcieFile}
  {lists : Lists V} {lines : List (List Char)}

theorem line_effect (py : Builtins V) (line : List Char) :
    (readLine py line = .raised ∧ raises py line = true) ∨
    (readLine py line = .skipped ∧ raises py line = false ∧ ∀ t, numberFor py t line = none) ∨
    ∃ s v, readLine py line = .appended s v ∧ raises py line = false ∧
      ∀ t, numberFor py t line = if t = s then some v else none := by
  unfold readLine raises numberFor
  cases words : py.split line with
  | nil => exact Or.inl ⟨rfl, rfl⟩
  | cons first rest =>
    dsimp only
    generalize labelOf first = label
    generalize py.float (rest.getLastD first) = number
    cases label with
    | none => simp
    | some s =>
      cases number with
      | none => simp
      | some v =>
        by_cases kept : s ≠ .pcieWrTput ∨ py.notNegative v = true
        · refine Or.inr (Or.inr ⟨s, v, ?_, rfl, ?_⟩)
          · by_cases tput : s = .pcieWrTput
            · have sign := kept.resolve_left (not_not_intro tput)
              simp only [tput, sign, if_true]
            · simp only [tput, if_false]
          · intro t
            by_cases same : s = t
            · subst t
              simpa [Option.filter, or_iff_not_imp_left] using kept
            · simp [same, Ne.symm same]
        · obtain ⟨tput, sign⟩ := not_or.mp kept
          refine Or.inr (Or.inl ⟨?_, rfl, ?_⟩)
          · simp only [not_not.mp tput, sign, if_true, Bool.false_eq_true, if_false]
          · intro t
            by_cases same : s = t
            · subst t
              simp [Option.filter, sign, not_not.mp tput]
            · simp [same]

/-- The loop over a file appends the numbers that come before the exception. -/
theorem read_pcie_eq (lines : List (List Char)) (lists : Lists V) : readPcie py lines lists =
    (fun s => lists s ++ numbers py lines s, lines.any (raises py)) := by
  induction lines generalizing lists with
  | nil => simp [readPcie, numbers]
  | cons line rest ih =>
    rw [readPcie]
    rcases line_effect py line with ⟨effect, bad⟩ | ⟨effect, good, none⟩ | ⟨s, v, effect, good, number⟩
    · simp [effect, bad, numbers]
    · rw [effect]
      simp [ih, good, numbers, none]
    · rw [effect]
      dsimp only
      rw [ih, List.any_cons, good, Bool.false_or]
      congr 1
      funext t
      unfold numbers append
      rw [List.takeWhile_cons_of_pos (by simp [good]), List.filterMap_cons, number t]
      by_cases same : t = s
      · subst t
        simp
      · simp [same]

/-- What one run adds to a list: its numbers, and the zero of the handler. -/
def added (py : Builtins V) (file : PcieFile) (s : Statistic) : List V :=
  numbers py file.lines s ++ if file.lines.any (raises py) || file.raises then [py.zero] else []

theorem collect_run_eq (py : Builtins V) (lists : Lists V) (file : PcieFile) (s : Statistic) :
    collectRun py lists file s = lists s ++ added py file s := by
  unfold collectRun added
  rw [read_pcie_eq]
  dsimp only
  cases file.lines.any (raises py) || file.raises with
  | true => simp
  | false => simp

theorem collect_eq (py : Builtins V) (runs : List PcieFile) (s : Statistic) :
    collect py runs s = runs.flatMap (added py · s) := by
  induction runs using List.reverseRecOn with
  | nil => rfl
  | append_singleton runs file ih =>
    rw [List.flatMap_append, ← ih, List.flatMap_singleton, ← collect_run_eq]
    unfold collect
    rw [List.foldl_append]
    rfl

theorem broken_iff (py : Builtins V) (file : PcieFile) :
    (file.lines.any (raises py) || file.raises) = true ↔ Broken py file := by
  rw [Bool.or_eq_true, List.any_eq_true]
  exact or_comm

theorem added_broken (broken : Broken py file) (s : Statistic) :
    added py file s = numbers py file.lines s ++ [py.zero] := by
  unfold added
  rw [if_pos ((broken_iff py file).mpr broken)]

theorem added_whole (whole : ¬ Broken py file) (s : Statistic) :
    added py file s = numbers py file.lines s := by
  unfold added
  rw [if_neg fun broken => whole ((broken_iff py file).mp broken), List.append_nil]

/-- A run adds one entry to each list when it is all or nothing. -/
theorem one_added_iff (py : Builtins V) (file : PcieFile) :
    (∀ s, (added py file s).length = 1) ↔ AllOrNothing py file := by
  unfold AllOrNothing
  by_cases broken : Broken py file
  · have lengths : ∀ s, (added py file s).length = (numbers py file.lines s).length + 1 := by
      intro s
      rw [added_broken broken, List.length_append, List.length_singleton]
    simp [lengths, broken]
  · simp [added_whole broken, broken]

theorem added_sample (whole : AllOrNothing py file) (s : Statistic) :
    added py file s = [sampleOf py file s] := by
  rcases whole with ⟨broken, none⟩ | ⟨unbroken, one⟩
  · have empty := List.length_eq_zero_iff.mp (none s)
    rw [added_broken broken, sampleOf, empty]
    rfl
  · obtain ⟨v, only⟩ := List.length_eq_one_iff.mp (one s)
    rw [added_whole unbroken, sampleOf, only]
    rfl

/-- Then the lists are the samples in the order of the runs. -/
theorem collect_samples (whole : ∀ file ∈ runs, AllOrNothing py file) (s : Statistic) :
    collect py runs s = runs.map (sampleOf py · s) := by
  rw [collect_eq]
  induction runs with
  | nil => rfl
  | cons file runs ih =>
    rw [List.flatMap_cons, List.map_cons, added_sample (whole file List.mem_cons_self),
      ih fun f member => whole f (List.mem_cons_of_mem file member)]
    rfl

theorem length_after (py : Builtins V) (s : Statistic) {r : Nat} (run : runs[r]? = some file) :
    (collect py (runs.take (r + 1)) s).length =
      (collect py (runs.take r) s).length + (added py file s).length := by
  rw [collect_eq, collect_eq, List.take_add_one, run, Option.toList_some, List.flatMap_append,
    List.length_append, List.flatMap_singleton]

/-- Entry r filled by pass r, for every run: then there are r entries before it. -/
theorem length_before (right : OneSampleEach py runs) (s : Statistic) {r : Nat}
    (run : r ≤ runs.length) : (collect py (runs.take r) s).length = r := by
  apply le_antisymm
  · rcases run.eq_or_lt with all | before
    · rw [all, List.take_length]
      exact (right.length s).le
    · exact (right.own s r before).1
  · cases r with
    | zero => exact Nat.zero_le _
    | succ r => exact (right.own s r run).2

/-- Every run gives one sample to every list just when each of the files is all or nothing. -/
theorem one_sample_each_iff (py : Builtins V) (runs : List PcieFile) :
    OneSampleEach py runs ↔ ∀ file ∈ runs, AllOrNothing py file := by
  constructor
  · intro right file member
    obtain ⟨r, run⟩ := List.getElem?_of_mem member
    have inside : r < runs.length := (List.getElem?_eq_some_iff.mp run).1
    apply (one_added_iff py file).mp
    intro s
    have before := length_before right s inside.le
    have after := length_before right s (Nat.succ_le_of_lt inside)
    rw [length_after py s run, before] at after
    exact Nat.add_left_cancel after
  · intro whole
    have lengths : ∀ r s, (collect py (runs.take r) s).length = min r runs.length := by
      intro r s
      rw [collect_samples fun file member => whole file (List.mem_of_mem_take member),
        List.length_map, List.length_take]
    constructor
    · intro s
      rw [collect_samples whole, List.length_map]
    · intro s r inside
      constructor
      · rw [lengths]
        omega
      · rw [lengths]
        omega
    · intro s r file run
      rw [collect_samples whole, List.getElem?_map, run]
      rfl

end

/-- Words between ASCII spaces and plain decimal numbers. -/
def plainText : Builtins ℚ := ⟨words, readDecimal, 0, (0 ≤ ·)⟩

def ofText (text : String) : PcieFile := ⟨readLines text.toList, false⟩

/-- A blank line after the first number. -/
def blankSecond : PcieFile := ofText "PCIe_wr_tput: 90.5\n\n"

def sevenLines : PcieFile := ofText (String.intercalate "\n" ["PCIe_wr_tput: 80",
  "IOTLB_first_lookup_avg: 1", "IOTLB_all_lookup_avg: 2", "IOTLB_miss_avg: 3",
  "IOMMU_mem_access: 4", "IOTLB_inv_avg: 5", "PWT_occupancy_avg: 6"])

/-- The first run gives two entries to the first list, and the second run comes third. -/
theorem blank_line_shifts :
    collect plainText [blankSecond, sevenLines] .pcieWrTput = [181 / 2, 0, 80] ∧
    collect plainText [blankSecond, sevenLines] .iotlbMiss = [0, 3] ∧
    ¬ OneSampleEach plainText [blankSecond, sevenLines] := by
  have lists : collect plainText [blankSecond, sevenLines] .pcieWrTput = [181 / 2, 0, 80] ∧
      collect plainText [blankSecond, sevenLines] .iotlbMiss = [0, 3] := by
    decide +kernel
  constructor
  · exact lists.1
  · constructor
    · exact lists.2
    · intro right
      have two := right.length .pcieWrTput
      rw [lists.1] at two
      exact absurd two (by decide)

end PcieLists
