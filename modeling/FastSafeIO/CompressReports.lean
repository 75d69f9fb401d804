import FastSafeIO.TextTables
import Mathlib.Data.List.AList

/-! compress_data.sh with DRY_RUN=false, run after run, among directories and archives under
reports. -/
namespace CompressReports
open TextTables

abbrev Name := List Char

/-- An experiment keeps its number whatever directory or archive it is in. An archive that
    is stored in another one counts with its contents. -/
inductive Node where
  | dir (experiment : Nat)
  | archive (experiments : List Nat)
  deriving DecidableEq, Repr

def Node.experiments : Node → List Nat
  | .dir e => [e]
  | .archive es => es

abbrev Files := AList fun _ : Name => Node

def experimentsAt (fs : Files) (n : Name) : List Nat :=
  match fs.lookup n with
  | none => []
  | some node => node.experiments

/-- The last place where the rest of a line is of a kind, and what precedes it. -/
def lastSplit {α : Type} (p : List Char → Option α) : List Char → Option (List Char × α)
  | [] => (p []).map fun a => ([], a)
  | c :: rest =>
    match lastSplit p rest with
    | some (front, a) => some (c :: front, a)
    | none => (p (c :: rest)).map fun a => ([], a)

/-- What follows flow[0-9]\+ after a fixed beginning. -/
def afterFlow (start : List Char) (l : List Char) : Option (List Char) :=
  let rest := l.drop start.length
  if start.isPrefixOf l ∧ (rest.takeWhile Char.isDigit) ≠ [] then some (rest.dropWhile Char.isDigit)
  else none

def startsAt (word : List Char) (l : List Char) : Option Unit :=
  if word.isPrefixOf l then some () else none

/-- A command substitution around sed or cut: line by line, without the last newlines. -/
def byLine (f : List Char → List Char) (name : Name) : List Char :=
  chomp (joinLines ((readLines (name ++ ['\n'])).map fun line => f (chomp line)))

/-- The command s/\(.*\)-flow[0-9]\+.*/\1/ of sed. -/
def sedPrefix (line : List Char) : List Char :=
  match lastSplit (afterFlow "-flow".toList) line with
  | some (front, _) => front
  | none => line

/-- The command s/.*flow[0-9]\+\(.*\)-ringbuf.*/\1/ of sed. -/
def sedMiddle (line : List Char) : List Char :=
  let middle := fun l => (afterFlow "flow".toList l).bind fun rest =>
    (lastSplit (startsAt "-ringbuf".toList) rest).map Prod.fst
  match lastSplit middle line with
  | some (_, middle) => middle
  | none => line

def keyOf (dir : Name) : Name := byLine sedPrefix dir ++ byLine sedMiddle dir

/-- cut -d'-' -f1,2 and tr -d '-' -/
def yearMonthOf (line : List Char) : List Char := ((line.splitOn '-').take 2).flatten

/-- An operand of -le: octal after a leading zero; anything but digits is an error. -/
def arithmetic (l : List Char) : Option Nat :=
  if ¬ l.all Char.isDigit then none
  else if l.head? ≠ some '0' then some (Nat.ofDigitChars 10 l 0)
  else if l.all (fun c => c.toNat < '8'.toNat) then some (Nat.ofDigitChars 8 l 0)
  else none

def le (a b : Option Nat) : Bool :=
  match a, b with
  | some a, some b => a ≤ b
  | _, _ => false

/-- A name that begins with a date and a dash. -/
def timestamped (dir : Name) : Bool :=
  let template := "0000-00-00-".toList
  template.length ≤ dir.length &&
    (List.zipWith (fun t c => if t = '-' then decide (c = '-') else c.isDigit) template dir).all id

/-- The directories that the grouping loop keeps. -/
def selected (yearMonth : List Char) (dir : Name) : Bool :=
  !".tar.gz".toList.isSuffixOf dir && !".tgz".toList.isSuffixOf dir &&
    !".tar".toList.isSuffixOf dir && timestamped dir &&
    (lastSplit (afterFlow "flow".toList) dir).isSome &&
    (lastSplit (startsAt "ringbuf".toList) dir).isSome &&
    le (arithmetic (byLine yearMonthOf dir)) (arithmetic (yearMonth.filter (· ≠ '-')))

/-- The text of a group: the names of its directories with a space between them. -/
def addToGroup (groups : List (Name × List Char)) (dir : Name) : List (Name × List Char) :=
  let key := keyOf dir
  if key ∈ groups.map Prod.fst then
    groups.map fun g => if g.1 = key then (key, g.2 ++ ' ' :: dir) else g
  else groups ++ [(key, dir)]

def groupsOf (yearMonth : List Char) (dirs : List Name) : List (Name × List Char) :=
  (dirs.filter (selected yearMonth)).foldl addToGroup []

def visible (n : Name) : Bool := n.head? ≠ some '.'

/-- The directories that */ stands for. -/
def dirNames (fs : Files) : List Name :=
  fs.keys.filter fun n => visible n && match fs.lookup n with
    | some (.dir _) => true
    | _ => false

/-- The ranges of a bracket expression and the pattern after it. -/
def bracket (first : Bool) : List Char → Option (List (Char × Char) × List Char)
  | [] => none
  | c :: rest =>
    if c = ']' ∧ ¬ first then some ([], rest)
    else
      match rest with
      | d :: e :: more =>
        if d = '-' ∧ e ≠ ']' then (bracket false more).map fun (items, tail) => ((c, e) :: items, tail)
        else (bracket false (d :: e :: more)).map fun (items, tail) => ((c, c) :: items, tail)
      | more => (bracket false more).map fun (items, tail) => ((c, c) :: items, tail)

/-- A name against a pattern of at most that many characters. -/
def globMatch : Nat → List Char → Name → Bool
  | _, [], n => n.isEmpty
  | 0, _ :: _, _ => false
  | fuel + 1, c :: p, n =>
    if c = '*' then n.tails.any fun rest => globMatch fuel p rest
    else
      match n with
      | [] => false
      | d :: n =>
        if c = '?' then globMatch fuel p n
        else
          let negated := c = '[' ∧ (p.head? = some '!' ∨ p.head? = some '^')
          match if c = '[' then bracket true (if negated then p.tail else p) else none with
          | none => c = d && globMatch fuel p n
          | some (items, tail) =>
            (items.any (fun (low, high) => low ≤ d && d ≤ high) != decide negated) &&
              globMatch fuel tail n

def isPattern (word : List Char) : Bool := word.any fun c => c = '*' || c = '?' || c = '['

/-- Pathname expansion of a word: a pattern that no name matches stands for itself. -/
def expandWord (fs : Files) (word : List Char) : List Name :=
  if isPattern word then
    match fs.keys.filter fun n => visible n && globMatch word.length word n with
    | [] => [word]
    | names => names
  else [word]

/-- The characters of IFS. -/
def isIfs (c : Char) : Bool := c = ' ' || c = '\t' || c = '\n'

/-- What wc takes for a space in the C locale. -/
def isWcSpace (c : Char) : Bool := c.toNat = 32 || (9 ≤ c.toNat && c.toNat ≤ 13)

def fieldsAt (sep : Char → Bool) (l : List Char) : List (List Char) := (l.splitOnP sep).filter (· ≠ [])

/-- What an unquoted $dirs stands for. -/
def expand (fs : Files) (dirs : List Char) : List Name := (fieldsAt isIfs dirs).flatMap (expandWord fs)

/-- echo $dirs | wc -w -/
def dirCount (fs : Files) (dirs : List Char) : Nat :=
  ((expand fs dirs).flatMap (fieldsAt isWcSpace)).length

def archiveName (key : Name) : Name := key ++ ".tar.gz".toList

/-- Words that tar and rm take for the name of a file here. -/
def isName (word : List Char) : Bool :=
  word.head? ≠ some '-' && word ≠ ".".toList && word ≠ "..".toList

/-- What the archive holds when all the names are stored; it is not stored in itself. -/
def storedIn (fs : Files) (archive : Name) (names : List Name) : List Nat :=
  (names.filter fun n => isName n && n ≠ archive).flatMap (experimentsAt fs)

def isDir (fs : Files) (n : Name) : Bool :=
  match fs.lookup n with
  | some (.dir _) => true
  | _ => false

/-- tar can succeed when all the names exist and the archive can be written. -/
def tarCan (fs : Files) (archive : Name) (names : List Name) : Bool :=
  !isDir fs archive && (names.filter fun n => isName n && n ≠ archive).all fun n => n ∈ fs.keys

/-- Where the script is. After a tar run that succeeded it has yet to expand $dirs again for
    the deletion. -/
inductive Phase where
  | idle
  | archiving (groups : List (Name × List Char))
  | stored (key : Name) (dirs : List Char) (names : List Name) (groups : List (Name × List Char))
  | deleting (names : List Name) (groups : List (Name × List Char))
  deriving DecidableEq, Repr

/-- The experiments below created have been created so far. -/
structure State where
  fs : Files
  created : Nat
  phase : Phase

/-- A tar run that fails may leave an archive with part of the contents, or leave the old
    one alone. -/
inductive Action where
  | create (name : Name)
  | start (yearMonth : List Char) (dirs : List Name) (order : List (Name × List Char))
  | skip
  | tarSucceeds
  | tarFails (left : Option (List Nat))
  | expand
  | remove
  | next
  deriving DecidableEq, Repr

def step (s : State) : Action → Option State
  | .create name =>
    if name ∈ s.fs.keys then none
    else some { s with fs := s.fs.insert name (.dir s.created), created := s.created + 1 }
  | .start yearMonth dirs order =>
    match s.phase with
    | .idle =>
      if dirs.Perm (dirNames s.fs) ∧ order.Perm (groupsOf yearMonth dirs) then
        some { s with phase := .archiving order }
      else none
    | _ => none
  | .skip =>
    match s.phase with
    | .archiving ((_, dirs) :: groups) =>
      if dirCount s.fs dirs ≤ 2 then some { s with phase := .archiving groups } else none
    | _ => none
  | .tarSucceeds =>
    match s.phase with
    | .archiving ((key, dirs) :: groups) =>
      let names := CompressReports.expand s.fs dirs
      if 2 < dirCount s.fs dirs ∧ tarCan s.fs (archiveName key) names then
        some { s with
          fs := s.fs.insert (archiveName key) (.archive (storedIn s.fs (archiveName key) names))
          phase := .stored key dirs names groups }
      else none
    | _ => none
  | .tarFails left =>
    match s.phase with
    | .archiving ((key, dirs) :: groups) =>
      if 2 < dirCount s.fs dirs then
        match left with
        | none => some { s with phase := .archiving groups }
        | some part =>
          let names := CompressReports.expand s.fs dirs
          if isDir s.fs (archiveName key) ∨
              ¬ part.all (· ∈ storedIn s.fs (archiveName key) names) then none
          else some { s with
            fs := s.fs.insert (archiveName key) (.archive part), phase := .archiving groups }
      else none
    | _ => none
  | .expand =>
    match s.phase with
    | .stored _ dirs _ groups =>
      some { s with phase := .deleting (CompressReports.expand s.fs dirs) groups }
    | _ => none
  | .remove =>
    match s.phase with
    | .deleting (n :: names) groups =>
      some { s with
        fs := if isName n then s.fs.erase n else s.fs
        phase := .deleting names groups }
    | _ => none
  | .next =>
    match s.phase with
    | .deleting [] groups => some { s with phase := .archiving groups }
    | .archiving [] => some { s with phase := .idle }
    | _ => none

def run (s : State) : List Action → Option State
  | [] => some s
  | a :: rest => (step s a).bind fun t => run t rest

end CompressReports
