import FastSafeIO.PythonInts
import FastSafeIO.UnicodeText
import FastSafeIO.WordSearch
import Mathlib.Logic.Function.Basic

/-! print_retx_rate.py: the counters of two dumps of netstat and ip, and the report of what lies
between them. -/
namespace RetxReport
open TextTables UnicodeText WordSearch

/-- line.split() -/
def splitLine (u : Unicode) (line : List Char) : List (List Char) := tokens u.isSpace line

/-- int() of a word. -/
def intOf (u : Unicode) (w : List Char) : Option Int := PythonInts.signed (readDigits u) w

/-- The two variables of a counter; -1 is not read yet. -/
structure Pair where
  pre : Int
  post : Int
  deriving DecidableEq, Repr

def unread : Pair := ⟨-1, -1⟩

def Pair.take (p : Pair) (n : Int) : Pair :=
  if p.pre = -1 then { p with pre := n } else { p with post := n }

def Pair.difference (p : Pair) : Int := p.post - p.pre

inductive Counter where
  | retx
  | sent
  | recv
  | lossRetx
  | ipRxPkts
  | ipTxPkts
  | ipRxBytes
  | ipTxBytes
  deriving DecidableEq, Repr

/-- How a counter's line is told: so many words at least, some of them given, and where the
    value stands. -/
structure Pattern where
  atLeast : Nat
  texts : List (Nat × List Char)
  valueAt : Nat

def Counter.pattern : Counter → Pattern
  | .retx => ⟨3, [(1, "segments".toList), (2, "retransmitted".toList)], 0⟩
  | .sent => ⟨3, [(1, "segments".toList), (2, "sent".toList)], 0⟩
  | .recv => ⟨3, [(1, "segments".toList), (2, "received".toList)], 0⟩
  | .lossRetx => ⟨1, [(0, "TCPLostRetransmit:".toList)], 1⟩
  | .ipRxPkts => ⟨4, [(1, "total".toList), (2, "packets".toList), (3, "received".toList)], 0⟩
  | .ipTxPkts => ⟨4, [(1, "requests".toList), (2, "sent".toList), (3, "out".toList)], 0⟩
  | .ipRxBytes => ⟨1, [(0, "InOctets:".toList)], 1⟩
  | .ipTxBytes => ⟨1, [(0, "OutOctets:".toList)], 1⟩

/-- The order in which the loop tries them. -/
def tests : List Counter :=
  [.retx, .sent, .recv, .lossRetx, .ipRxPkts, .ipTxPkts, .ipRxBytes, .ipTxBytes]

def Counter.matches (c : Counter) (lineStr : List (List Char)) : Bool :=
  decide (c.pattern.atLeast ≤ lineStr.length) &&
    c.pattern.texts.all fun t => lineStr[t.1]? = some t.2

def Counter.value (u : Unicode) (c : Counter) (lineStr : List (List Char)) : Option Int :=
  lineStr[c.pattern.valueAt]?.bind (intOf u)

inductive Direction where
  | rx
  | tx
  deriving DecidableEq, Repr

def Direction.header : Direction → List Char
  | .rx => "RX:".toList
  | .tx => "TX:".toList

/-- Bytes and packets of the link; the bytes tell whether both have been read. -/
structure LinkPair where
  bytes : Pair
  pkts : Pair
  deriving DecidableEq, Repr

def LinkPair.take (l : LinkPair) (b p : Int) : LinkPair :=
  if l.bytes.pre = -1 then
    { bytes := { l.bytes with pre := b }, pkts := { l.pkts with pre := p } }
  else
    { bytes := { l.bytes with post := b }, pkts := { l.pkts with post := p } }

structure State where
  counter : Counter → Pair
  link : Direction → LinkPair
  nextIsRx : Bool
  nextIsTx : Bool

def start : State := ⟨fun _ => unread, fun _ => ⟨unread, unread⟩, false, false⟩

def State.takeCounter (s : State) (c : Counter) (n : Int) : State :=
  { s with counter := Function.update s.counter c ((s.counter c).take n) }

def State.takeLink (s : State) (d : Direction) (b p : Int) : State :=
  { s with link := Function.update s.link d ((s.link d).take b p) }

section
variable (u : Unicode)

/-- The data line of a link; none is an exception. -/
def readLink (s : State) (d : Direction) (lineStr : List (List Char)) : Option State :=
  (lineStr[0]?.bind (intOf u)).bind fun b =>
    (lineStr[1]?.bind (intOf u)).map fun p => s.takeLink d b p

def readCounter (lineStr : List (List Char)) (s : State) (c : Counter) : Option State :=
  if c.matches lineStr then (c.value u lineStr).map (s.takeCounter c) else some s

/-- One pass of the loop over the lines; none is an exception. -/
def readLine (s : State) (line : List Char) : Option State :=
  let lineStr := splitLine u line
  if lineStr = [] then some { s with nextIsRx := false, nextIsTx := false }
  else if s.nextIsRx then readLink u { s with nextIsRx := false } .rx lineStr
  else if s.nextIsTx then readLink u { s with nextIsTx := false } .tx lineStr
  else if lineStr.head? = some Direction.rx.header then some { s with nextIsRx := true }
  else if lineStr.head? = some Direction.tx.header then some { s with nextIsTx := true }
  else tests.foldlM (readCounter u lineStr) s

end

inductive Value where
  | int (n : Int)
  | float (x : ℚ)
  deriving DecidableEq

/-- float(n) / TIME_INT; none is an exception. -/
def rate (n timeInt : Int) : Option Value := do
  let x ← toFloat n
  let time ← toFloat timeInt
  if timeInt = 0 then none else pure (.float (toDouble (x / time)))

/-- x / sent * 100.0, where something was sent. -/
def percentOf (x sent : ℚ) : Value :=
  if sent > 0 then .float (toDouble (toDouble (x / sent) * 100)) else .int 0

/-- What is printed once the assertions hold and the four differences are floats. -/
def segmentLines (s : State) (timeInt : Int) : Option (List (String × Value)) := do
  let retx ← toFloat (s.counter .retx).difference
  let lossRetx ← toFloat (s.counter .lossRetx).difference
  let sent ← toFloat (s.counter .sent).difference
  let recv ← toFloat (s.counter .recv).difference
  pure [("Retx: ", .float retx), ("Loss_retx: ", .float lossRetx), ("Sent: ", .float sent),
    ("Recv: ", .float recv), ("Time: ", .int timeInt), ("Retx_percent: ", percentOf retx sent),
    ("Loss_retx_percent:", percentOf lossRetx sent)]

def counterLines (p : Pair) (timeInt : Int) (label rateLabel : String) :
    List (String × Option Value) :=
  if p.pre ≠ -1 ∧ p.post ≠ -1 then
    [(label, some (.int p.difference)), (rateLabel, rate p.difference timeInt)]
  else []

def linkLines (l : LinkPair) (timeInt : Int) (bytes pkts byteRate pktRate : String) :
    List (String × Option Value) :=
  if l.bytes.pre ≠ -1 ∧ l.bytes.post ≠ -1 then
    [(bytes, some (.int l.bytes.difference)), (pkts, some (.int l.pkts.difference)),
      (byteRate, rate l.bytes.difference timeInt), (pktRate, rate l.pkts.difference timeInt)]
  else []

/-- The later calls of print, with what they print. -/
def rateLines (s : State) (timeInt : Int) : List (String × Option Value) :=
  [("Send_rate: ", rate (s.counter .sent).difference timeInt),
    ("Recv_rate: ", rate (s.counter .recv).difference timeInt)] ++
  counterLines (s.counter .ipRxPkts) timeInt "IP_RX_packets: " "IP_RX_packet_rate: " ++
  counterLines (s.counter .ipTxPkts) timeInt "IP_TX_packets: " "IP_TX_packet_rate: " ++
  counterLines (s.counter .ipRxBytes) timeInt "IP_RX_bytes: " "IP_RX_byte_rate: " ++
  counterLines (s.counter .ipTxBytes) timeInt "IP_TX_bytes: " "IP_TX_byte_rate: " ++
  linkLines (s.link .rx) timeInt "Link_RX_bytes: " "Link_RX_packets: " "Link_RX_byte_rate: "
    "Link_RX_packet_rate: " ++
  linkLines (s.link .tx) timeInt "Link_TX_bytes: " "Link_TX_packets: " "Link_TX_byte_rate: "
    "Link_TX_packet_rate: "

/-- The lines that come out before the first exception. -/
def printed : List (String × Option Value) → List (String × Value)
  | (label, some v) :: rest => (label, v) :: printed rest
  | _ => []

/-- The six values that the script asserts to have been read. -/
def State.asserted (s : State) : Prop :=
  ∀ c ∈ [Counter.retx, .sent, .recv], (s.counter c).pre ≠ -1 ∧ (s.counter c).post ≠ -1

instance (s : State) : Decidable s.asserted := List.decidableBAll _ _

def reportLines (s : State) (timeInt : Int) : List (String × Value) :=
  if s.asserted then
    match segmentLines s timeInt with
    | none => []
    | some lines => lines ++ printed (rateLines s timeInt)
  else []

/-- The lines that the script prints for the lines of a log. -/
def printRetxRate (u : Unicode) (log : List (List Char)) (timeInt : Int) : List (String × Value) :=
  match log.foldlM (readLine u) start with
  | none => []
  | some s => reportLines s timeInt

/-- The value printed under a label. -/
def reported (lines : List (String × Value)) (label : String) : Option Value :=
  (lines.find? fun l => l.1 = label).map Prod.snd

end RetxReport
