import FastSafeIO.PythonInts
import FastSafeIO.UnicodeText
import FastSafeIO.WordSearch

/-! parse_tcplog.py: the records of a tcp_probe trace and the table that is written of them. -/
namespace TcpTrace
open TextTables UnicodeText PythonInts WordSearch

inductive End where
  | src
  | dest
  deriving DecidableEq, Repr

def End.key : End → List Char
  | .src => "src".toList
  | .dest => "dest".toList

inductive Field where
  | sndNxt
  | sndUna
  | sndCwnd
  | ssthresh
  | sndWnd
  | srtt
  | rcvWnd
  deriving DecidableEq, Repr

def Field.key : Field → List Char
  | .sndNxt => "snd_nxt".toList
  | .sndUna => "snd_una".toList
  | .sndCwnd => "snd_cwnd".toList
  | .ssthresh => "ssthresh".toList
  | .sndWnd => "snd_wnd".toList
  | .srtt => "srtt".toList
  | .rcvWnd => "rcv_wnd".toList

inductive Column where
  | timeS
  | ip (e : End)
  | port (e : End)
  | field (k : Field)
  deriving DecidableEq, Repr

inductive Value where
  | float (x : ℚ)
  | text (w : List Char)
  | int (n : Int)
  deriving DecidableEq, Repr

/-- A dict, in the order of its keys. -/
abbrev Record := List (Column × Value)

def startsWith (key token : List Char) : Bool := (key ++ ['=']).isPrefixOf token

/-- The value of the first token that starts with key=. -/
def getVal (key : List Char) (tokens : List (List Char)) : Option (List Char) :=
  (tokens.find? (startsWith key)).map fun t => (t.dropWhile (· ≠ '=')).tail

def isBracket (c : Char) : Bool := c = '[' || c = ']'

/-- val.strip('[]') -/
def stripBrackets (val : List Char) : List Char :=
  (val.dropWhile isBracket).rdropWhile isBracket

/-- clean.rsplit(':', 1), where it gives two parts. -/
def splitPort (clean : List Char) : Option (List Char × List Char) :=
  if ':' ∈ clean then
    some ((clean.rdropWhile (· ≠ ':')).dropLast, clean.rtakeWhile (· ≠ ':'))
  else none

def readEndpoint (val : List Char) : Option (List Char × Int) := do
  let parts ← splitPort (stripBrackets val)
  let port ← int10 parts.2
  pure (parts.1, port)

/-- The loop over src and dest, which ends at a missing value. -/
def readEnds (tokens : List (List Char)) : List End → Option Record
  | [] => some []
  | e :: ends =>
    match getVal e.key tokens with
    | none => some []
    | some val =>
      if val = [] then some []
      else do
        let address ← readEndpoint val
        let later ← readEnds tokens ends
        pure ((.ip e, .text address.1) :: (.port e, .int address.2) :: later)

def readFields (tokens : List (List Char)) : List Field → Option Record
  | [] => some []
  | k :: fields =>
    match getVal k.key tokens with
    | none => readFields tokens fields
    | some val => do
      let n ← int0 val
      let later ← readFields tokens fields
      pure ((.field k, .int n) :: later)

def allFields : List Field := [.sndNxt, .sndUna, .sndCwnd, .ssthresh, .sndWnd, .srtt, .rcvWnd]

/-- The record of a line; none where an exception is raised. -/
def readRecord (u : Unicode) (line : List Char) : Option Record := do
  let tokens := tokens u.isSpace line
  let ts ← tokens[3]?
  let time ← readFloat u (ts.rdropWhile (· = ':'))
  let ends ← readEnds tokens [.src, .dest]
  let fields ← readFields tokens allFields
  pure ((.timeS, .float time) :: (ends ++ fields))

def skipped (line : List Char) : Bool :=
  ['#'].isPrefixOf line || !decide ("tcp_probe:".toList <:+: line)

/-- A file opened as text. -/
def universalNewlines : List Char → List Char
  | [] => []
  | '\r' :: '\n' :: rest => '\n' :: universalNewlines rest
  | c :: rest => (if c = '\r' then '\n' else c) :: universalNewlines rest

def readRecords (u : Unicode) (file : List Char) : Option (List Record) :=
  ((readLines (universalNewlines file)).filter (!skipped ·)).mapM (readRecord u)

section
variable (repr : ℚ → List Char)

def Value.str : Value → List Char
  | .float x => repr x
  | .text w => w
  | .int n => printInt n

/-- What csv.DictWriter has written, and whether it ended in a ValueError. -/
structure Csv where
  columns : List Column
  rows : List (List (List Char))
  raised : Bool
  deriving DecidableEq

/-- writer.writerow: the record has no other keys than the columns. -/
def writeRow (columns : List Column) (r : Record) : Option (List (List Char)) :=
  if ∀ e ∈ r, e.1 ∈ columns then
    some (columns.map fun c => (r.lookup c).elim [] (Value.str repr))
  else none

def writeRows (columns : List Column) : List Record → List (List (List Char)) × Bool
  | [] => ([], false)
  | r :: records =>
    match writeRow repr columns r with
    | none => ([], true)
    | some row => (row :: (writeRows columns records).1, (writeRows columns records).2)

/-- The script; none where it ends before it opens the CSV file. -/
def parseTcplog (u : Unicode) (file : List Char) : Option Csv := do
  let records ← readRecords u file
  let first ← records.head?
  let columns := first.map Prod.fst
  let written := writeRows repr columns records
  pure ⟨columns, written.1, written.2⟩

end

/- Traces as ftrace prints them. -/

inductive Family where
  | v4
  | v6
  deriving DecidableEq, Repr

def Family.inAddress : Family → Char → Bool
  | .v4, c => c.isDigit || c = '.'
  | .v6, c => isDigitIn 16 c || c = ':' || c = '.'

structure Endpoint where
  family : Family
  ip : List Char
  port : Nat
  some_char : ip ≠ []
  chars : ∀ c ∈ ip, family.inAddress c = true

def Endpoint.text (e : Endpoint) : List Char :=
  match e.family with
  | .v4 => e.ip ++ ':' :: printNat e.port
  | .v6 => '[' :: (e.ip ++ ']' :: ':' :: printNat e.port)

inductive Whole where
  | decimal (n : Int)
  | hex (n : Nat)
  deriving DecidableEq, Repr

def Whole.text : Whole → List Char
  | .decimal n => printInt n
  | .hex n => '0' :: 'x' :: Nat.toDigits 16 n

def Whole.value : Whole → Int
  | .decimal n => n
  | .hex n => n

/-- Spaces within a line. -/
def Inline (u : Unicode) (gap : List Char) : Prop :=
  ∀ c ∈ gap, u.isSpace c = true ∧ c ≠ '\n' ∧ c ≠ '\r'

structure Word (u : Unicode) (w : List Char) : Prop where
  some_char : w ≠ []
  solid : ∀ c ∈ w, u.isSpace c = false

/-- Words, each after its gap. -/
def spread (gap : Nat → List Char) : List (List Char) → List Char
  | [] => []
  | w :: ws => gap 0 ++ (w ++ spread (fun i => gap (i + 1)) ws)

def named (key value : List Char) : List Char := key ++ '=' :: value

/-- A tcp_probe line. Among the words after the name of the event each end is printed once and
each field at most once. -/
structure Probe (u : Unicode) where
  lead : List Char
  comm : List Char
  pid : Nat
  cpu : List Char
  flags : List Char
  time : Number
  words : List (List Char)
  ends : End → Endpoint
  fields : Field → Option Whole
  gap : Nat → List Char
  trail : List Char
  leadBlank : Inline u lead
  trailBlank : Inline u trail
  gapBlank : ∀ i, gap i ≠ [] ∧ Inline u (gap i)
  commSolid : ∀ c ∈ comm, u.isSpace c = false
  cpuWord : Word u cpu ∧ '=' ∉ cpu
  flagsWord : Word u flags ∧ '=' ∉ flags
  wordsSolid : ∀ w ∈ words, Word u w
  uncommented : lead = [] → ∀ c ∈ comm.head?, c ≠ '#'
  printedEnds : ∀ e : End, words.filter (startsWith e.key) = [named e.key (ends e).text]
  printedFields : ∀ k : Field,
    words.filter (startsWith k.key) = (fields k).toList.map fun n => named k.key n.text

def Probe.task {u : Unicode} (p : Probe u) : List Char := p.comm ++ '-' :: printNat p.pid

def Probe.tokens {u : Unicode} (p : Probe u) : List (List Char) :=
  p.task :: p.cpu :: p.flags :: (p.time.text ++ [':']) :: "tcp_probe:".toList :: p.words

def Probe.text {u : Unicode} (p : Probe u) : List Char :=
  p.lead ++ (p.task ++ (spread p.gap p.tokens.tail ++ p.trail))

/-- What each column says of the line. -/
def Probe.cell {u : Unicode} (repr : ℚ → List Char) (p : Probe u) : Column → List Char
  | .timeS => repr (toDouble p.time.value)
  | .ip e => (p.ends e).ip
  | .port e => printNat (p.ends e).port
  | .field k => (p.fields k).elim [] fun n => printInt n.value

inductive Line (u : Unicode) where
  | probe (p : Probe u)
  | other (line : List Char) (whole : '\n' ∉ line ∧ '\r' ∉ line) (leftOut : skipped (line ++ ['\n']) = true)

def Line.text {u : Unicode} : Line u → List Char
  | .probe p => p.text
  | .other line _ _ => line

def probesOf {u : Unicode} (lines : List (Line u)) : List (Probe u) :=
  lines.filterMap fun
    | .probe p => some p
    | .other _ _ _ => none

structure Trace (u : Unicode) where
  lines : List (Line u)
  some_probe : probesOf lines ≠ []

def Trace.probes {u : Unicode} (t : Trace u) : List (Probe u) := probesOf t.lines

def Trace.text {u : Unicode} (t : Trace u) : List Char := writeLines (t.lines.map Line.text)

/-- The cell of a row under a column, empty where the table has no such column. -/
def cellOf (columns : List Column) (row : List (List Char)) (c : Column) : List Char :=
  ((columns.zip row).lookup c).getD []

/-- One row for each tcp_probe line, in order, that says what the line says. -/
def Lossless {u : Unicode} (repr : ℚ → List Char) (t : Trace u) (out : Option Csv) : Prop :=
  ∃ csv, out = some csv ∧
    List.Forall₂ (fun p row => ∀ c, cellOf csv.columns row c = p.cell repr c) t.probes csv.rows

end TcpTrace
