import FastSafeIO.NearestFloat
import FastSafeIO.PcieLists

/-! parse_pciebw of record-host-metrics.sh: grep, awk and the report, and the number that
collect-tput-stats.py takes from it. -/
namespace PcieReport
open TextTables NearestFloat PcieLists

def PCM_PCIE_FILTER : List Char := "Socket1,IIO Stack 1 - PCIe3,Part0".toList

/-- grep -F: the lines that have the text somewhere. -/
def grepFixed (filter text : List Char) : List (List Char) :=
  ((readLines text).map chomp).filter fun line => line.tails.any (filter.isPrefixOf ·)

/-- awk -F',': the fields count from 1, and a missing one is empty. -/
def fieldOf (k : Nat) (row : List Char) : List Char := (row.splitOn ',').getD (k - 1) []

/-- The power of ten after a number. -/
def exponentOf : List Char → ℤ
  | c :: rest =>
    let digits := if rest.head? = some '-' ∨ rest.head? = some '+' then rest.tail else rest
    let size : ℤ := Nat.ofDigitChars 10 (digits.takeWhile Char.isDigit) 0
    if c = 'e' ∨ c = 'E' then (if rest.head? = some '-' then -size else size) else 0
  | [] => 0

/-- The number that a field begins with, 0 where it begins with none. -/
def awkNumber (field : List Char) : ℚ :=
  let text := field.dropWhile isSpace
  let unsigned := if text.head? = some '-' ∨ text.head? = some '+' then text.tail else text
  let whole := unsigned.takeWhile Char.isDigit
  let after := unsigned.dropWhile Char.isDigit
  let places := if after.head? = some '.' then after.tail.takeWhile Char.isDigit else []
  let last := if after.head? = some '.' then after.tail.dropWhile Char.isDigit else after
  if whole = [] ∧ places = [] then 0
  else
    let size : ℚ := Nat.ofDigitChars 10 (whole ++ places) 0 * 10 ^ (exponentOf last - places.length)
    toDouble (if text.head? = some '-' then -size else size)

/-- += over the rows. -/
def columnSum (rows : List (List Char)) (k : Nat) : ℚ :=
  rows.foldl (fun sum row => toDouble (sum + awkNumber (fieldOf k row))) 0

def average (rows : List (List Char)) (k : Nat) : ℚ :=
  toDouble (columnSum rows k / (if rows.length = 0 then 1 else rows.length))

def gbps (bytes : ℚ) : ℚ := toDouble (toDouble (bytes * 8) / 10 ^ 9)

/-- The fields in the order in which awk prints their averages, and which are rates. -/
def awkFields : List (Nat × Bool) :=
  [(6, true), (7, true), (10, false), (11, false), (12, false), (13, false), (14, false), (15, false),
    (16, false), (17, false), (18, false), (19, false), (20, false), (21, false), (22, false),
    (23, false), (24, false), (26, false), (28, false)]

def awkValue (rows : List (List Char)) (field : Nat × Bool) : ℚ :=
  if field.2 then gbps (average rows field.1) else average rows field.1

def awkOutput (rows : List (List Char)) : List Char :=
  awkFields.flatMap fun field => printRounded 6 (awkValue rows field) ++ [' ']

/-- The report's lines in the order of the variables that read fills. -/
def labels : List String :=
  ["PCIe_wr_tput:", "PCIe_rd_tput:", "IOTLB_first_lookup_avg:", "IOTLB_all_lookup_avg:",
    "IOTLB_4K_hits_avg:", "IOTLB_2M_hits_avg:", "IOTLB_1G_hits_avg:", "IOTLB_miss_avg:",
    "Ctx_lookup_avg:", "Ctx_hits_avg:", "Cache_lookup_avg:", "Cache_hit_256T_avg:",
    "Cache_hit_512G_avg:", "Cache_hit_1G_avg:", "Cache_hit_2M_avg:", "Cache_fills_avg:",
    "IOMMU_mem_access:", "IOTLB_inv_avg:", "PWT_occupancy_avg:"]

/-- The shell's printf takes its argument for a long double, and for 0 where it is no number. -/
def bashNumber (word : List Char) : ℚ :=
  match readDecimal word with
  | some x => roundTo 63 x
  | none => 0

def reportLine (label : String) (word : List Char) : List Char :=
  label.toList ++ ' ' :: (printRounded 3 (bashNumber word) ++ ['\n'])

/-- Without the file there are no rows. -/
def rowsOf (csv : Option (List Char)) : List (List Char) :=
  match csv with
  | none => []
  | some text => grepFixed PCM_PCIE_FILTER text

/-- The text of pcie.rpt. -/
def parsePciebw (csv : Option (List Char)) : List Char :=
  let filled := words (awkOutput (rowsOf csv))
  labels.zipIdx.flatMap fun line => reportLine line.1 (filled.getD line.2 [])

/-- split() and float() of the collector. -/
def pythonText : Builtins ℚ := ⟨words, fun word => (readDecimal word).map toDouble, 0, (0 ≤ ·)⟩

def reportOf (csv : Option (List Char)) : PcieFile := ⟨readLines (parsePciebw csv), false⟩

/-- What the collector reads where awk had a value. -/
def readBack (value : ℚ) : ℚ := toDouble (rounded 3 (roundTo 63 (rounded 6 value)))

end PcieReport
