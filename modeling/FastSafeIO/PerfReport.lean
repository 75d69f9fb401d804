import FastSafeIO.Regex
import FastSafeIO.UnicodeText

/-! parse_kvm_perf.py: the rows and the total line of perf kvm stat report. -/
namespace PerfReport
open Regex TextTables UnicodeText

inductive Column where
  | exitReason
  | samples
  | samplesPct
  | timePct
  | minTime
  | maxTime
  | avgTime
  | totalSamples
  | totalTimeUs
  deriving DecidableEq, Repr

section
variable (u : Unicode)

/-- \s+(?P<name>p+)unit -/
def column (name : Column) (p : Char → Bool) (unit : String) (rest : Pattern Char Column) :
    Pattern Char Column :=
  .seq (someOf u.isSpace) (.seq (.group name (someOf p)) (.seq (.text unit.toList) rest))

def rowRe : Pattern Char Column :=
  .seq .start (.seq (.many u.isSpace) (.seq (.group .exitReason (someOf (!u.isSpace ·)))
    (column u .samples u.isDigit ""
    (column u .samplesPct u.inNumber "%"
    (column u .timePct u.inNumber "%"
    (column u .minTime u.inNumber "us"
    (column u .maxTime u.inNumber "us"
    (column u .avgTime u.inNumber "us"
    (.seq (.many (· ≠ '\n')) .stop)))))))))

def totalRe : Pattern Char Column :=
  .seq (.text "Total Samples:".toList) (.seq (.group .totalSamples (someOf u.isDigit))
    (.seq (.text ",".toList) (.seq (.many u.isSpace)
    (.seq (.text "Total events handled time:".toList)
    (.seq (.group .totalTimeUs (someOf u.inNumber)) (.text "us".toList))))))

structure Exit where
  exitReason : List Char
  samples : Nat
  samplesPct : ℚ
  timePct : ℚ
  minTimeNs : ℚ
  maxTimeNs : ℚ
  avgTimeNs : ℚ
  exitTotalTimeNs : ℚ
  deriving DecidableEq, Repr

structure Report where
  exits : List Exit
  totalSamples : Option Nat
  totalTimeNs : Option ℚ
  deriving DecidableEq, Repr

/-- The product of two doubles. -/
def times (x y : ℚ) : ℚ := toDouble (x * y)

/-- A float times an int converts the int first. -/
def readRow (m : Way Char Column) : Option Exit := do
  let samples := readInt u (m.text .samples)
  let samplesPct ← readFloat u (m.text .samplesPct)
  let timePct ← readFloat u (m.text .timePct)
  let minTime ← readFloat u (m.text .minTime)
  let maxTime ← readFloat u (m.text .maxTime)
  let avgTime ← readFloat u (m.text .avgTime)
  let count ← toFloat samples
  pure ⟨m.text .exitReason, samples, samplesPct, timePct, times minTime 1000, times maxTime 1000,
    times avgTime 1000, times (times avgTime 1000) count⟩

def readTotal (m : Way Char Column) : Option (Nat × ℚ) := do
  let totalTime ← readFloat u (m.text .totalTimeUs)
  pure (readInt u (m.text .totalSamples), times totalTime 1000)

/-- One line of the report; none where an exception is raised. -/
def readLine (r : Report) (line : List Char) : Option Report :=
  match matchHead (rowRe u) line with
  | some m => (readRow u m).map fun e => { r with exits := r.exits ++ [e] }
  | none =>
    match search (totalRe u) line with
    | some m => (readTotal u m).map fun t => { r with totalSamples := some t.1, totalTimeNs := some t.2 }
    | none => some r

end

/-- The characters at which str.splitlines breaks. -/
def isBoundary (c : Char) : Bool := [10, 11, 12, 13, 28, 29, 30, 133, 8232, 8233].contains c.toNat

def splitlines : List Char → List (List Char)
  | [] => []
  | '\r' :: '\n' :: rest => [] :: splitlines rest
  | c :: rest =>
    if isBoundary c then [] :: splitlines rest
    else
      match splitlines rest with
      | [] => [[c]]
      | line :: lines => (c :: line) :: lines

def parsePerfOutput (u : Unicode) (raw : List Char) : Option Report :=
  (splitlines raw).foldlM (readLine u) ⟨[], none, none⟩

/- The reports as perf prints them. -/

/-- No line ends in it. -/
def Unbroken (l : List Char) : Prop := ∀ c ∈ l, isBoundary c = false

/-- Spaces that break no line. -/
def Blank (u : Unicode) (gap : List Char) : Prop :=
  ∀ c ∈ gap, u.isSpace c = true ∧ isBoundary c = false

structure Row (u : Unicode) where
  lead : List Char
  exitReason : List Char
  samples : Nat
  samplesPct : Number
  timePct : Number
  minTime : Number
  maxTime : Number
  avgTime : Number
  gap : Column → List Char
  rest : List Char
  fits : samples < 2 ^ 64
  leadBlank : Blank u lead
  gapBlank : ∀ c, gap c ≠ [] ∧ Blank u (gap c)
  some_char : exitReason ≠ []
  solid : ∀ c ∈ exitReason, u.isSpace c = false ∧ isBoundary c = false
  whole : Unbroken rest

def Row.text {u : Unicode} (r : Row u) : List Char :=
  r.lead ++ (r.exitReason ++
    (r.gap .samples ++ (printNat r.samples ++ (r.gap .samplesPct ++ (r.samplesPct.text ++ ("%".toList ++
    (r.gap .timePct ++ (r.timePct.text ++ ("%".toList ++
    (r.gap .minTime ++ (r.minTime.text ++ ("us".toList ++
    (r.gap .maxTime ++ (r.maxTime.text ++ ("us".toList ++
    (r.gap .avgTime ++ (r.avgTime.text ++ ("us".toList ++ r.rest))))))))))))))))))

/-- The row in ns, in double precision. -/
def Row.exit {u : Unicode} (r : Row u) : Exit where
  exitReason := r.exitReason
  samples := r.samples
  samplesPct := toDouble r.samplesPct.value
  timePct := toDouble r.timePct.value
  minTimeNs := times (toDouble r.minTime.value) 1000
  maxTimeNs := times (toDouble r.maxTime.value) 1000
  avgTimeNs := times (toDouble r.avgTime.value) 1000
  exitTotalTimeNs := times (times (toDouble r.avgTime.value) 1000) (toDouble r.samples)

inductive TimeUnit where
  | us
  | ms
  deriving DecidableEq, Repr

def TimeUnit.text : TimeUnit → List Char
  | .us => "us".toList
  | .ms => "ms".toList

def TimeUnit.ns : TimeUnit → ℚ
  | .us => 1000
  | .ms => 1000000

structure TotalLine (u : Unicode) where
  lead : List Char
  samples : Nat
  gap : List Char
  time : Number
  unit : TimeUnit
  leadBlank : Blank u lead
  gapBlank : Blank u gap

def TotalLine.text {u : Unicode} (t : TotalLine u) : List Char :=
  t.lead ++ ("Total Samples:".toList ++ (printNat t.samples ++ (",".toList ++ (t.gap ++
    ("Total events handled time:".toList ++ (t.time.text ++ (t.unit.text ++ ".".toList)))))))

/-- The count and the time in ns. -/
def TotalLine.printed {u : Unicode} (t : TotalLine u) : Nat × ℚ :=
  (t.samples, times (toDouble t.time.value) t.unit.ns)

/-- A line of the report besides the total: a row, or any other line. -/
inductive Piece (u : Unicode) where
  | row (r : Row u)
  | other (line : List Char) (whole : Unbroken line)

def Piece.text {u : Unicode} : Piece u → List Char
  | .row r => r.text
  | .other line _ => line

structure Printed (u : Unicode) where
  before : List (Piece u)
  total : TotalLine u
  after : List (Piece u)

def Printed.text {u : Unicode} (p : Printed u) : List Char :=
  writeLines (p.before.map Piece.text ++ p.total.text :: p.after.map Piece.text)

def exitsOf {u : Unicode} (pieces : List (Piece u)) : List Exit :=
  pieces.filterMap fun
    | .row r => some r.exit
    | .other _ _ => none

def Printed.report {u : Unicode} (p : Printed u) : Report where
  exits := exitsOf p.before ++ exitsOf p.after
  totalSamples := some p.total.printed.1
  totalTimeNs := some p.total.printed.2

end PerfReport
