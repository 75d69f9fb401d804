import FastSafeIO.RetxReport

/-! Logs of two snapshots, and what print_retx_rate.py reports of them. -/
namespace RetxSnapshots
open NearestFloat TextTables UnicodeText RetxReport

/-- What a snapshot consists of, in any order. -/
inductive Entry where
  | counter (c : Counter) (n : Nat)
  | link (d : Direction) (bytes pkts : Nat)
  | other

/-- A line that none of the tests is about. -/
structure NoPattern (lineStr : List (List Char)) : Prop where
  header : ∀ d : Direction, lineStr.head? ≠ some d.header
  counter : ∀ c : Counter, c.matches lineStr = false

/-- A counter of 64 bits. -/
def Entry.Fits : Entry → Prop
  | .counter _ n => n < 2 ^ 64
  | .link _ bytes pkts => bytes < 2 ^ 64 ∧ pkts < 2 ^ 64
  | .other => True

/-- The lines that an entry is printed as. -/
inductive Spells (u : Unicode) : Entry → List (List Char) → Prop where
  | counter {c : Counter} {n : Nat} {line : List Char} (pattern : c.matches (splitLine u line) = true)
      (value : c.value u (splitLine u line) = some (n : Int)) : Spells u (.counter c n) [line]
  | link {d : Direction} {bytes pkts : Nat} {header data : List Char}
      (first : (splitLine u header).head? = some d.header)
      (bytesRead : (splitLine u data)[0]?.bind (intOf u) = some (bytes : Int))
      (pktsRead : (splitLine u data)[1]?.bind (intOf u) = some (pkts : Int)) :
      Spells u (.link d bytes pkts) [header, data]
  | other {line : List Char} (none : NoPattern (splitLine u line)) : Spells u .other [line]

inductive Spelled (u : Unicode) : List Entry → List (List Char) → Prop where
  | nil : Spelled u [] []
  | cons {e : Entry} {rest : List Entry} {lines more : List (List Char)} (first : Spells u e lines)
      (others : Spelled u rest more) : Spelled u (e :: rest) (lines ++ more)

def State.apply (s : State) : Entry → State
  | .counter c n => s.takeCounter c n
  | .link d bytes pkts => s.takeLink d bytes pkts
  | .other => s

/-- The values of a counter in the order of their lines. -/
def valuesOf (c : Counter) (entries : List Entry) : List Nat :=
  entries.filterMap fun
    | .counter d n => if d = c then some n else none
    | _ => none

def linksOf (d : Direction) (entries : List Entry) : List (Nat × Nat) :=
  entries.filterMap fun
    | .link f bytes pkts => if f = d then some (bytes, pkts) else none
    | _ => none

/-- No header has been read that waits for its data line. -/
def Idle (s : State) : Prop := s.nextIsRx = false ∧ s.nextIsTx = false

/-- Two patterns that no line with a value for the first can both have: different splitLine u in one
    place, or a word that is no number where the value stands. -/
def Counter.clash (u : Unicode) (c d : Counter) : Bool :=
  d.pattern.texts.any fun v =>
    (c.pattern.texts.any fun t => t.1 = v.1 && t.2 ≠ v.2) ||
      (v.1 = c.pattern.valueAt && (intOf u v.2).isNone)

theorem counters_clash (u : Unicode) {c d : Counter} (other : c ≠ d) : Counter.clash u c d = true := by
  cases c <;> cases d <;> first | rfl | exact absurd rfl other

section
variable {u : Unicode} {s : State} {c d : Counter} {e : Entry} {n : Int} {lineStr : List (List Char)}
  {line : List Char} {lines : List (List Char)} {entries : List Entry}

theorem matches_text {t : Nat × List Char} (pattern : c.matches lineStr = true)
    (member : t ∈ c.pattern.texts) : lineStr[t.1]? = some t.2 := by
  unfold Counter.matches at pattern
  rw [Bool.and_eq_true, List.all_eq_true] at pattern
  exact of_decide_eq_true (pattern.2 t member)

/-- A line with a value for one counter passes no other test. -/
theorem matches_alone (pattern : c.matches lineStr = true) (value : c.value u lineStr = some n)
    (other : c ≠ d) : d.matches lineStr = false := by
  rw [← Bool.not_eq_true]
  intro also
  obtain ⟨v, member, clash⟩ := List.any_eq_true.mp (counters_clash u other)
  have here := matches_text also member
  rcases Bool.or_eq_true_iff.mp clash with apart | number
  · obtain ⟨t, known, differ⟩ := List.any_eq_true.mp apart
    have there := matches_text pattern known
    rw [Bool.and_eq_true] at differ
    have place : t.1 = v.1 := of_decide_eq_true differ.1
    rw [place, here] at there
    exact of_decide_eq_true differ.2 (Option.some.inj there).symm
  · rw [Bool.and_eq_true] at number
    have place : v.1 = c.pattern.valueAt := of_decide_eq_true number.1
    unfold Counter.value at value
    rw [← place, here, Option.bind_some] at value
    rw [value] at number
    exact Bool.false_ne_true number.2

theorem value_no_header (pattern : c.matches lineStr = true) (value : c.value u lineStr = some n)
    (f : Direction) : lineStr.head? ≠ some f.header := by
  intro header
  rw [List.head?_eq_getElem?] at header
  have clash : (c.pattern.texts.any fun t => t.1 = 0 && t.2 ≠ f.header) = true ∨
      c.pattern.valueAt = 0 ∧ intOf u f.header = none := by
    cases c <;> cases f <;> first | exact Or.inl (by decide) | exact Or.inr ⟨rfl, rfl⟩
  rcases clash with apart | number
  · obtain ⟨t, known, differ⟩ := List.any_eq_true.mp apart
    have there := matches_text pattern known
    rw [Bool.and_eq_true] at differ
    have place : t.1 = 0 := of_decide_eq_true differ.1
    rw [place, header] at there
    exact of_decide_eq_true differ.2 (Option.some.inj there).symm
  · unfold Counter.value at value
    rw [number.1, header, Option.bind_some, number.2] at value
    cases value

theorem tests_complete (c : Counter) : c ∈ tests := by
  cases c <;> decide

theorem skip_tests {cs : List Counter} (none : ∀ d ∈ cs, d.matches lineStr = false) :
    cs.foldlM (readCounter u lineStr) s = some s := by
  induction cs with
  | nil => rfl
  | cons d cs ih =>
    have first : readCounter u lineStr s d = some s := by
      unfold readCounter
      rw [none d List.mem_cons_self, if_neg Bool.false_ne_true]
    rw [List.foldlM_cons, first]
    exact ih fun f member => none f (List.mem_cons_of_mem d member)

theorem run_tests (cs : List Counter) (nodup : cs.Nodup) (member : c ∈ cs)
    (pattern : c.matches lineStr = true) (value : c.value u lineStr = some n) :
    cs.foldlM (readCounter u lineStr) s = some (s.takeCounter c n) := by
  induction cs with
  | nil => cases member
  | cons d cs ih =>
    obtain ⟨apart, others⟩ := List.nodup_cons.mp nodup
    rw [List.foldlM_cons]
    by_cases same : d = c
    · subst same
      have taken : readCounter u lineStr s d = some (s.takeCounter d n) := by
        unfold readCounter
        rw [pattern, if_pos rfl, value]
        rfl
      rw [taken]
      apply skip_tests
      intro f later
      apply matches_alone pattern value
      intro equal
      rw [equal] at apart
      exact apart later
    · have skipped : readCounter u lineStr s d = some s := by
        unfold readCounter
        rw [matches_alone pattern value fun equal => same equal.symm, if_neg Bool.false_ne_true]
      rw [skipped]
      exact ih others (List.mem_of_ne_of_mem (fun equal => same equal.symm) member)

theorem tests_nodup : tests.Nodup := by decide

theorem read_line_idle (idle : Idle s) (some_word : splitLine u line ≠ [])
    (no_header : ∀ f : Direction, (splitLine u line).head? ≠ some f.header) :
    readLine u s line = tests.foldlM (readCounter u (splitLine u line)) s := by
  unfold readLine
  dsimp only
  rw [if_neg some_word, idle.1, idle.2, if_neg Bool.false_ne_true, if_neg Bool.false_ne_true,
    if_neg (no_header .rx), if_neg (no_header .tx)]

theorem idle_flags (idle : Idle s) : { s with nextIsRx := false, nextIsTx := false } = s := by
  obtain ⟨rx, tx⟩ := idle
  cases s
  dsimp only at rx tx
  rw [rx, tx]

theorem read_data {data : List Char} {b p : Int} (idle : Idle s) (f : Direction)
    (bytesRead : (splitLine u data)[0]?.bind (intOf u) = some b)
    (pktsRead : (splitLine u data)[1]?.bind (intOf u) = some p) {t : State}
    (waiting : t = { s with nextIsRx := f = .rx, nextIsTx := f = .tx }) :
    readLine u t data = some (s.takeLink f b p) := by
  have some_word : splitLine u data ≠ [] := by
    intro none
    rw [none] at bytesRead
    cases bytesRead
  have same := idle_flags idle
  unfold readLine
  dsimp only
  rw [if_neg some_word, waiting]
  cases f with
  | rx =>
    simp only [decide_true, reduceCtorEq, decide_false, if_true, readLink, bytesRead, pktsRead,
      Option.bind_some, Option.map_some, same]
  | tx =>
    simp only [decide_true, reduceCtorEq, decide_false, if_true, readLink, bytesRead, pktsRead,
      Option.bind_some, Option.map_some, same, Bool.false_eq_true, if_false]

theorem read_header {header : List Char} (idle : Idle s) (f : Direction)
    (first : (splitLine u header).head? = some f.header) :
    readLine u s header = some { s with nextIsRx := f = .rx, nextIsTx := f = .tx } := by
  have some_word : splitLine u header ≠ [] := by
    intro none
    rw [none] at first
    cases first
  unfold readLine
  dsimp only
  rw [if_neg some_word, idle.1, idle.2, if_neg Bool.false_ne_true, if_neg Bool.false_ne_true, first]
  cases f with
  | rx =>
    rw [if_pos rfl]
    simp
  | tx =>
    rw [if_neg (by decide), if_pos rfl]
    simp

theorem apply_idle (idle : Idle s) (e : Entry) : Idle (State.apply s e) := by
  cases e <;> exact idle

theorem read_entry (idle : Idle s) (spells : Spells u e lines) :
    lines.foldlM (readLine u) s = some (State.apply s e) := by
  cases spells with
  | counter pattern value =>
    rename_i line
    have some_word : splitLine u line ≠ [] := by
      intro none
      rw [none] at value
      cases value
    rw [List.foldlM_cons, read_line_idle idle some_word (value_no_header pattern value),
      run_tests tests tests_nodup (tests_complete _) pattern value]
    rfl
  | link first bytesRead pktsRead =>
    rw [List.foldlM_cons, read_header idle _ first]
    change [_].foldlM (readLine u) _ = _
    rw [List.foldlM_cons, read_data idle _ bytesRead pktsRead rfl]
    rfl
  | other none =>
    rename_i line
    rw [List.foldlM_cons]
    by_cases blank : splitLine u line = []
    · have kept : readLine u s line = some s := by
        unfold readLine
        dsimp only
        rw [if_pos blank, idle_flags idle]
      rw [kept]
      rfl
    · rw [read_line_idle idle blank none.header, skip_tests fun f _ => none.counter f]
      rfl

/-- One pass over the lines of a list of entries takes each of them once. -/
theorem read_entries (idle : Idle s) (spelled : Spelled u entries lines) :
    lines.foldlM (readLine u) s = some (entries.foldl State.apply s) := by
  induction spelled generalizing s with
  | nil => rfl
  | cons first others ih =>
    rw [List.foldlM_append, read_entry idle first]
    exact ih (apply_idle idle _)

theorem spelled_append {more : List Entry} {rest : List (List Char)}
    (spelled : Spelled u entries lines) (others : Spelled u more rest) :
    Spelled u (entries ++ more) (lines ++ rest) := by
  induction spelled with
  | nil => exact others
  | cons first _ ih =>
    rw [List.cons_append, List.append_assoc]
    exact .cons first ih

theorem view_after {ν β : Type} (view : State → ν) {own : Entry → Option β} {take : ν → β → ν}
    (one : ∀ s e, view (State.apply s e) = (own e).elim (view s) (take (view s)))
    (entries : List Entry) (s : State) :
    view (entries.foldl State.apply s) = (entries.filterMap own).foldl take (view s) := by
  induction entries generalizing s with
  | nil => rfl
  | cons e entries ih =>
    rw [List.foldl_cons, ih, one, List.filterMap_cons]
    cases own e with
    | none => rfl
    | some b => rfl

theorem counter_after (entries : List Entry) (s : State) (c : Counter) :
    (entries.foldl State.apply s).counter c =
      (valuesOf c entries).foldl (fun p (n : Nat) => p.take n) (s.counter c) := by
  unfold valuesOf
  apply view_after (State.counter · c)
  intro s e
  cases e with
  | counter d n =>
    by_cases same : d = c
    · subst same
      simp [State.apply, State.takeCounter]
    · have kept : (s.takeCounter d n).counter c = s.counter c :=
        Function.update_of_ne (fun equal => same equal.symm) _ _
      simp [State.apply, kept, same]
  | link d bytes pkts => rfl
  | other => rfl

theorem link_after (entries : List Entry) (s : State) (d : Direction) :
    (entries.foldl State.apply s).link d =
      (linksOf d entries).foldl (fun l v => l.take (v.1 : Nat) (v.2 : Nat)) (s.link d) := by
  unfold linksOf
  apply view_after (State.link · d)
  intro s e
  cases e with
  | counter c n => rfl
  | link f bytes pkts =>
    by_cases same : f = d
    · subst same
      simp [State.apply, State.takeLink]
    · have kept : (s.takeLink f bytes pkts).link d = s.link d :=
        Function.update_of_ne (fun equal => same equal.symm) _ _
      simp [State.apply, kept, same]
  | other => rfl

end

/-- Two values are told apart by the first of them not being -1. -/
theorem take_two (b a : Nat) : [b, a].foldl (fun p (n : Nat) => Pair.take p n) unread = ⟨b, a⟩ := by
  have read : (b : Int) ≠ -1 := by omega
  simp [Pair.take, unread, read]

theorem take_two_links (b a : Nat × Nat) :
    [b, a].foldl (fun l (v : Nat × Nat) => LinkPair.take l v.1 v.2) ⟨unread, unread⟩ =
      ⟨⟨b.1, a.1⟩, ⟨b.2, a.2⟩⟩ := by
  have read : (b.1 : Int) ≠ -1 := by omega
  simp [LinkPair.take, unread, read]

/-- A dump of netstat and ip: one line for each counter, and for each direction of the link a
    header and its data. -/
structure Snapshot (u : Unicode) where
  entries : List Entry
  lines : List (List Char)
  spelled : Spelled u entries lines
  fits : ∀ e ∈ entries, e.Fits
  value : Counter → Nat
  link : Direction → Nat × Nat
  once : ∀ c, c ≠ .lossRetx → valuesOf c entries = [value c]
  linkOnce : ∀ d, linksOf d entries = [link d]

def Value.number : Value → ℚ
  | .int n => n
  | .float x => x

/-- The number printed under a label. -/
def ReportsNumber (lines : List (String × Value)) (label : String) (x : ℚ) : Prop :=
  ∃ v, reported lines label = some v ∧ Value.number v = x

def Counter.label : Counter → String
  | .retx => "Retx: "
  | .sent => "Sent: "
  | .recv => "Recv: "
  | .lossRetx => "Loss_retx: "
  | .ipRxPkts => "IP_RX_packets: "
  | .ipTxPkts => "IP_TX_packets: "
  | .ipRxBytes => "IP_RX_bytes: "
  | .ipTxBytes => "IP_TX_bytes: "

def Direction.bytesLabel : Direction → String
  | .rx => "Link_RX_bytes: "
  | .tx => "Link_TX_bytes: "

def Direction.pktsLabel : Direction → String
  | .rx => "Link_RX_packets: "
  | .tx => "Link_TX_packets: "

/-- The counters that the report prints as floats. -/
def Counter.isSegments : Counter → Bool
  | .retx | .sent | .recv => true
  | _ => false

section
variable {u : Unicode} (b a : Snapshot u)

def gained (c : Counter) : ℚ := (a.value c : ℚ) - b.value c

/-- Every counter reported as after minus before, and the percentage of them, as rationals. -/
structure ReportsDifferences (lines : List (String × Value)) : Prop where
  counter : ∀ c, c ≠ .lossRetx → ReportsNumber lines (Counter.label c) (gained b a c)
  bytes : ∀ d, ReportsNumber lines (Direction.bytesLabel d) (((a.link d).1 : ℚ) - (b.link d).1)
  pkts : ∀ d, ReportsNumber lines (Direction.pktsLabel d) (((a.link d).2 : ℚ) - (b.link d).2)
  percent : ReportsNumber lines "Retx_percent: "
    (if 0 < gained b a .sent then 100 * gained b a .retx / gained b a .sent else 0)

/-- The segment counters and their percentage, in double precision. -/
structure ReportsSegments (lines : List (String × Value)) : Prop where
  segments : ∀ c, Counter.isSegments c = true →
    ReportsNumber lines (Counter.label c) (toDouble (gained b a c))
  exact : ∀ c, Counter.isSegments c = true → |gained b a c| < 2 ^ 53 →
    ReportsNumber lines (Counter.label c) (gained b a c)
  percent : ReportsNumber lines "Retx_percent: "
    (if 0 < gained b a .sent then
      toDouble (toDouble (toDouble (gained b a .retx) / toDouble (gained b a .sent)) * 100)
    else 0)

/-- The counters of IP and of the link. -/
structure ReportsTraffic (lines : List (String × Value)) : Prop where
  counter : ∀ c, c ≠ .lossRetx → Counter.isSegments c = false →
    ReportsNumber lines (Counter.label c) (gained b a c)
  bytes : ∀ d, ReportsNumber lines (Direction.bytesLabel d) (((a.link d).1 : ℚ) - (b.link d).1)
  pkts : ∀ d, ReportsNumber lines (Direction.pktsLabel d) (((a.link d).2 : ℚ) - (b.link d).2)

end

/-- A time that a float can be divided by. -/
def Divides (timeInt : Int) : Prop := timeInt ≠ 0 ∧ (toFloat timeInt).isSome = true

/-- Not read yet, or a counter of 64 bits. -/
structure PairFits (p : Pair) : Prop where
  pre : -1 ≤ p.pre ∧ p.pre < 2 ^ 64
  post : -1 ≤ p.post ∧ p.post < 2 ^ 64

section
variable {p : Pair} {m n : Nat} {timeInt : Int}

theorem take_fits (fits : PairFits p) (small : n < 2 ^ 64) : PairFits (p.take n) := by
  have value : -1 ≤ (n : Int) ∧ (n : Int) < 2 ^ 64 := by omega
  unfold Pair.take
  split
  · exact ⟨value, fits.post⟩
  · exact ⟨fits.pre, value⟩

theorem take_all_fits (values : List Nat) (small : ∀ n ∈ values, n < 2 ^ 64) (fits : PairFits p) :
    PairFits (values.foldl (fun p (n : Nat) => p.take n) p) := by
  induction values generalizing p with
  | nil => exact fits
  | cons n values ih =>
    have first := take_fits fits (small n List.mem_cons_self)
    exact ih (fun k member => small k (List.mem_cons_of_mem n member)) first

/-- Such differences are far from the ends of the floats. -/
theorem difference_to_float (fits : PairFits p) :
    toFloat p.difference = some (toDouble p.difference) := by
  obtain ⟨pre, post⟩ := fits
  have size : |p.difference| < 2 ^ 65 := by
    unfold Pair.difference
    rw [abs_lt]
    omega
  exact to_float_of_lt size

theorem pair_fits (first : m < 2 ^ 64) (second : n < 2 ^ 64) : PairFits ⟨m, n⟩ := by
  constructor <;> (dsimp only; omega)

theorem rate_divides (divides : Divides timeInt) (fits : PairFits p) :
    ∃ v, rate p.difference timeInt = some v := by
  obtain ⟨nonzero, double⟩ := divides
  obtain ⟨time, same⟩ := Option.isSome_iff_exists.mp double
  unfold rate
  rw [difference_to_float fits, same]
  exact ⟨_, if_neg nonzero⟩

theorem rate_raises (raises : ¬ Divides timeInt) (n : Int) : rate n timeInt = none := by
  unfold rate
  cases toFloat n with
  | none => rfl
  | some x =>
    cases double : toFloat timeInt with
    | none => rfl
    | some time =>
      have zero : timeInt = 0 := by
        by_contra nonzero
        exact raises ⟨nonzero, by rw [double]; rfl⟩
      exact if_pos zero

end

section
variable {u : Unicode} {s : State} {timeInt : Int} {b a : Snapshot u}

/-- The state that the loop leaves. -/
def endState (before after : List Entry) : State := (before ++ after).foldl State.apply start

theorem log_read {before after : List Entry} {first second : List (List Char)}
    (spelled : Spelled u before first) (others : Spelled u after second) (timeInt : Int) :
    printRetxRate u (first ++ second) timeInt = reportLines (endState before after) timeInt := by
  unfold printRetxRate
  rw [read_entries ⟨rfl, rfl⟩ (spelled_append spelled others)]
  rfl

theorem end_counter {before after : List Entry} {c : Counter} :
    (endState before after).counter c =
      (valuesOf c before ++ valuesOf c after).foldl (fun p (n : Nat) => p.take n) unread := by
  unfold endState
  rw [counter_after]
  unfold valuesOf
  rw [List.filterMap_append]
  rfl

theorem end_link {before after : List Entry} {d : Direction} :
    (endState before after).link d =
      (linksOf d before ++ linksOf d after).foldl (fun l v => l.take (v.1 : Nat) (v.2 : Nat))
        ⟨unread, unread⟩ := by
  unfold endState
  rw [link_after]
  unfold linksOf
  rw [List.filterMap_append]
  rfl

theorem values_fit {entries : List Entry} (fits : ∀ e ∈ entries, e.Fits) (c : Counter) :
    ∀ n ∈ valuesOf c entries, n < 2 ^ 64 := by
  intro n member
  obtain ⟨e, inside, value⟩ := List.mem_filterMap.mp member
  have small := fits e inside
  cases e with
  | counter d k =>
    obtain ⟨_, same⟩ := Option.ite_none_right_eq_some.mp value
    exact Option.some.inj same ▸ small
  | link d bytes pkts => cases value
  | other => cases value

theorem links_fit {entries : List Entry} (fits : ∀ e ∈ entries, e.Fits) (d : Direction) :
    ∀ v ∈ linksOf d entries, v.1 < 2 ^ 64 ∧ v.2 < 2 ^ 64 := by
  intro v member
  obtain ⟨e, inside, value⟩ := List.mem_filterMap.mp member
  have small := fits e inside
  cases e with
  | link f bytes pkts =>
    obtain ⟨_, same⟩ := Option.ite_none_right_eq_some.mp value
    exact Option.some.inj same ▸ small
  | counter c n => cases value
  | other => cases value

theorem end_fits {before after : List Entry} (first : ∀ e ∈ before, e.Fits)
    (second : ∀ e ∈ after, e.Fits) (c : Counter) : PairFits ((endState before after).counter c) := by
  rw [end_counter]
  apply take_all_fits
  · intro n member
    rcases List.mem_append.mp member with early | late
    · exact values_fit first c n early
    · exact values_fit second c n late
  · constructor <;> decide

theorem counter_read {before after : List Entry} {c : Counter} {m n : Nat}
    (first : valuesOf c before = [m]) (second : valuesOf c after = [n]) :
    (endState before after).counter c = ⟨m, n⟩ := by
  rw [end_counter, first, second]
  exact take_two m n

theorem link_read (b a : Snapshot u) (d : Direction) : (endState b.entries a.entries).link d =
    ⟨⟨(b.link d).1, (a.link d).1⟩, ⟨(b.link d).2, (a.link d).2⟩⟩ := by
  rw [end_link, b.linkOnce d, a.linkOnce d]
  exact take_two_links (b.link d) (a.link d)

theorem link_fits (b a : Snapshot u) (d : Direction) :
    PairFits ⟨(b.link d).1, (a.link d).1⟩ ∧ PairFits ⟨(b.link d).2, (a.link d).2⟩ := by
  have first := links_fit b.fits d (b.link d) (b.linkOnce d ▸ List.mem_singleton_self _)
  have second := links_fit a.fits d (a.link d) (a.linkOnce d ▸ List.mem_singleton_self _)
  exact ⟨pair_fits first.1 second.1, pair_fits first.2 second.2⟩

theorem asserted_of_read {before after : Counter → Nat}
    (read : ∀ c, Counter.isSegments c = true → s.counter c = ⟨before c, after c⟩) : s.asserted := by
  intro c member
  have segments : Counter.isSegments c = true := by
    simp only [List.mem_cons, List.not_mem_nil, or_false] at member
    rcases member with rfl | rfl | rfl <;> rfl
  rw [read c segments]
  constructor
  · have nonneg := Int.natCast_nonneg (before c)
    dsimp only
    omega
  · have nonneg := Int.natCast_nonneg (after c)
    dsimp only
    omega

/-- The first lines, as doubles. -/
def segmentDoubles (s : State) (timeInt : Int) : List (String × Value) :=
  let double := fun c => toDouble (s.counter c).difference
  [("Retx: ", .float (double .retx)), ("Loss_retx: ", .float (double .lossRetx)),
    ("Sent: ", .float (double .sent)), ("Recv: ", .float (double .recv)), ("Time: ", .int timeInt),
    ("Retx_percent: ", percentOf (double .retx) (double .sent)),
    ("Loss_retx_percent:", percentOf (double .lossRetx) (double .sent))]

theorem segment_lines_double (fits : ∀ c, PairFits (s.counter c)) (timeInt : Int) :
    segmentLines s timeInt = some (segmentDoubles s timeInt) := by
  unfold segmentLines
  rw [difference_to_float (fits .retx), difference_to_float (fits .lossRetx),
    difference_to_float (fits .sent), difference_to_float (fits .recv)]
  rfl

theorem report_lines_eq (asserted : s.asserted) (fits : ∀ c, PairFits (s.counter c))
    (timeInt : Int) :
    reportLines s timeInt = segmentDoubles s timeInt ++ printed (rateLines s timeInt) := by
  unfold reportLines
  rw [if_pos asserted, segment_lines_double fits]

/-- The first lines are printed whatever the time. -/
theorem reported_segment (asserted : s.asserted) (fits : ∀ c, PairFits (s.counter c))
    (timeInt : Int) (label : String) {v : Value}
    (first : reported (segmentDoubles s timeInt) label = some v) :
    reported (reportLines s timeInt) label = some v := by
  unfold reported at first ⊢
  rw [report_lines_eq asserted fits, List.find?_append]
  obtain ⟨l, found, same⟩ := Option.map_eq_some_iff.mp first
  rw [found]
  exact congrArg some same

theorem report_ends (asserted : s.asserted) (fits : ∀ c, PairFits (s.counter c))
    (raises : ¬ Divides timeInt) : reportLines s timeInt = segmentDoubles s timeInt := by
  have first : printed (rateLines s timeInt) = [] := by
    unfold rateLines
    rw [rate_raises raises]
    rfl
  rw [report_lines_eq asserted fits, first, List.append_nil]

theorem counter_lines_read (m n : Nat) (timeInt : Int) (label rateLabel : String) :
    counterLines ⟨m, n⟩ timeInt label rateLabel =
      [(label, some (.int ((n : Int) - m))), (rateLabel, rate (Pair.difference ⟨m, n⟩) timeInt)] := by
  unfold counterLines
  rw [if_pos (by constructor <;> (dsimp only; omega))]
  rfl

theorem link_lines_read (v w : Nat × Nat) (timeInt : Int) (bytes pkts byteRate pktRate : String) :
    linkLines ⟨⟨v.1, w.1⟩, ⟨v.2, w.2⟩⟩ timeInt bytes pkts byteRate pktRate =
      [(bytes, some (.int ((w.1 : Int) - v.1))), (pkts, some (.int ((w.2 : Int) - v.2))),
        (byteRate, rate (Pair.difference ⟨v.1, w.1⟩) timeInt),
        (pktRate, rate (Pair.difference ⟨v.2, w.2⟩) timeInt)] := by
  unfold linkLines
  rw [if_pos (by constructor <;> (dsimp only; omega))]
  rfl

theorem full_report (divides : Divides timeInt) (asserted : s.asserted)
    (fits : ∀ c, PairFits (s.counter c)) {before after : Counter → Nat}
    {linkBefore linkAfter : Direction → Nat × Nat}
    (read : ∀ c, c ≠ .lossRetx → s.counter c = ⟨before c, after c⟩)
    (linkRead : ∀ d, s.link d =
      ⟨⟨(linkBefore d).1, (linkAfter d).1⟩, ⟨(linkBefore d).2, (linkAfter d).2⟩⟩)
    (linkFits : ∀ d, PairFits ⟨(linkBefore d).1, (linkAfter d).1⟩ ∧
      PairFits ⟨(linkBefore d).2, (linkAfter d).2⟩) :
    (∀ c, c ≠ .lossRetx → Counter.isSegments c = false →
      reported (reportLines s timeInt) (Counter.label c) =
        some (.int ((after c : Int) - before c))) ∧
    ∀ d, reported (reportLines s timeInt) (Direction.bytesLabel d) =
        some (.int (((linkAfter d).1 : Int) - (linkBefore d).1)) ∧
      reported (reportLines s timeInt) (Direction.pktsLabel d) =
        some (.int (((linkAfter d).2 : Int) - (linkBefore d).2)) := by
  have counterRate : ∀ c, c ≠ .lossRetx →
      ∃ v, rate (Pair.difference ⟨before c, after c⟩) timeInt = some v :=
    fun c known => rate_divides divides (read c known ▸ fits c)
  obtain ⟨sent, sentRate⟩ := rate_divides divides (fits .sent)
  obtain ⟨recv, recvRate⟩ := rate_divides divides (fits .recv)
  obtain ⟨rxPkts, rxPktsRate⟩ := counterRate .ipRxPkts (by decide)
  obtain ⟨txPkts, txPktsRate⟩ := counterRate .ipTxPkts (by decide)
  obtain ⟨rxBytes, rxBytesRate⟩ := counterRate .ipRxBytes (by decide)
  obtain ⟨txBytes, txBytesRate⟩ := counterRate .ipTxBytes (by decide)
  obtain ⟨rxLinkBytes, rxLinkBytesRate⟩ := rate_divides divides (linkFits .rx).1
  obtain ⟨rxLinkPkts, rxLinkPktsRate⟩ := rate_divides divides (linkFits .rx).2
  obtain ⟨txLinkBytes, txLinkBytesRate⟩ := rate_divides divides (linkFits .tx).1
  obtain ⟨txLinkPkts, txLinkPktsRate⟩ := rate_divides divides (linkFits .tx).2
  have rates := rateLines.eq_1 s timeInt
  rw [read .ipRxPkts (by decide), read .ipTxPkts (by decide), read .ipRxBytes (by decide),
    read .ipTxBytes (by decide), linkRead .rx, linkRead .tx, counter_lines_read, counter_lines_read,
    counter_lines_read, counter_lines_read, link_lines_read, link_lines_read, sentRate, recvRate,
    rxPktsRate, txPktsRate, rxBytesRate, txBytesRate, rxLinkBytesRate, rxLinkPktsRate,
    txLinkBytesRate, txLinkPktsRate] at rates
  rw [report_lines_eq asserted fits, rates]
  constructor
  · intro c known segments
    cases c with
    | retx | sent | recv => cases segments
    | lossRetx => exact absurd rfl known
    | ipRxPkts | ipTxPkts | ipRxBytes | ipTxBytes =>
      simp [reported, segmentDoubles, printed, Counter.label]
  · intro d
    cases d with
    | rx | tx =>
      constructor <;>
        simp [reported, segmentDoubles, printed, Direction.bytesLabel, Direction.pktsLabel]

theorem segment_report (asserted : s.asserted) (fits : ∀ c, PairFits (s.counter c)) (timeInt : Int)
    {c : Counter} (segments : Counter.isSegments c = true) :
    reported (reportLines s timeInt) (Counter.label c) =
      some (.float (toDouble (s.counter c).difference)) := by
  apply reported_segment asserted fits
  cases c with
  | retx | sent | recv => simp [reported, segmentDoubles, Counter.label]
  | lossRetx | ipRxPkts | ipTxPkts | ipRxBytes | ipTxBytes => cases segments

theorem percent_report (asserted : s.asserted) (fits : ∀ c, PairFits (s.counter c)) (timeInt : Int) :
    reported (reportLines s timeInt) "Retx_percent: " = some (percentOf
      (toDouble (s.counter .retx).difference) (toDouble (s.counter .sent).difference)) := by
  apply reported_segment asserted fits
  simp [reported, segmentDoubles]

theorem percent_number (x sent : ℚ) : Value.number (percentOf (toDouble x) (toDouble sent)) =
    if 0 < sent then toDouble (toDouble (toDouble x / toDouble sent) * 100) else 0 := by
  unfold percentOf
  by_cases positive : 0 < sent
  · have double : 0 < toDouble sent := round_to_pos positive
    rw [if_pos positive, if_pos double]
    rfl
  · have double : ¬ 0 < toDouble sent := fun above => positive (round_to_pos_iff.mp above)
    rw [if_neg positive, if_neg double]
    exact Int.cast_zero

theorem gained_eq (c : Counter) : gained b a c = (((a.value c : Int) - b.value c : Int) : ℚ) := by
  unfold gained
  push_cast
  rfl

theorem known_of_segments {c : Counter} (segments : Counter.isSegments c = true) : c ≠ .lossRetx := by
  intro loss
  rw [loss] at segments
  cases segments

theorem snapshot_read (b a : Snapshot u) (c : Counter) (known : c ≠ .lossRetx) :
    (endState b.entries a.entries).counter c = ⟨b.value c, a.value c⟩ :=
  counter_read (b.once c known) (a.once c known)

theorem snapshots_asserted (b a : Snapshot u) : (endState b.entries a.entries).asserted :=
  asserted_of_read fun c segments => snapshot_read b a c (known_of_segments segments)

theorem segments_reported (b a : Snapshot u) (timeInt : Int) :
    ReportsSegments b a (printRetxRate u (b.lines ++ a.lines) timeInt) := by
  have asserted := snapshots_asserted b a
  have fits := end_fits b.fits a.fits
  have segment : ∀ c, Counter.isSegments c = true →
      reported (reportLines (endState b.entries a.entries) timeInt) (Counter.label c) =
        some (.float (toDouble (gained b a c))) := by
    intro c segments
    rw [segment_report asserted fits timeInt segments,
      snapshot_read b a c (known_of_segments segments), gained_eq]
    rfl
  rw [log_read b.spelled a.spelled]
  constructor
  · intro c segments
    exact ⟨_, segment c segments, rfl⟩
  · intro c segments small
    refine ⟨_, segment c segments, ?_⟩
    rw [gained_eq] at small ⊢
    exact to_double_int (by exact_mod_cast small)
  · refine ⟨_, percent_report asserted fits timeInt, ?_⟩
    rw [snapshot_read b a .retx (by decide), snapshot_read b a .sent (by decide)]
    have number := percent_number (gained b a .retx) (gained b a .sent)
    rw [gained_eq, gained_eq] at number ⊢
    exact number

theorem traffic_reported (divides : Divides timeInt) (b a : Snapshot u) :
    ReportsTraffic b a (printRetxRate u (b.lines ++ a.lines) timeInt) := by
  obtain ⟨counters, links⟩ := full_report divides (snapshots_asserted b a)
    (end_fits b.fits a.fits) (snapshot_read b a) (link_read b a) (link_fits b a)
  rw [log_read b.spelled a.spelled]
  constructor
  · intro c other segments
    refine ⟨_, counters c other segments, ?_⟩
    rw [gained_eq]
    rfl
  · intro d
    exact ⟨_, (links d).1, Int.cast_sub _ _⟩
  · intro d
    exact ⟨_, (links d).2, Int.cast_sub _ _⟩

theorem traffic_left_out (raises : ¬ Divides timeInt) (b a : Snapshot u) :
    ¬ ReportsTraffic b a (printRetxRate u (b.lines ++ a.lines) timeInt) := by
  intro right
  obtain ⟨v, found, _⟩ := right.counter .ipRxPkts (by decide) rfl
  rw [log_read b.spelled a.spelled,
    report_ends (snapshots_asserted b a) (end_fits b.fits a.fits) raises] at found
  simp [reported, segmentDoubles, Counter.label] at found

theorem snapshots_reported (b a : Snapshot u) (timeInt : Int) :
    ReportsSegments b a (printRetxRate u (b.lines ++ a.lines) timeInt) ∧
      (ReportsTraffic b a (printRetxRate u (b.lines ++ a.lines) timeInt) ↔ Divides timeInt) := by
  constructor
  · exact segments_reported b a timeInt
  · constructor
    · intro right
      by_contra raises
      exact traffic_left_out raises b a right
    · intro divides
      exact traffic_reported divides b a

end

theorem spelled_pairs {u : Unicode} {pairs : List (Entry × List (List Char))}
    (spells : ∀ p ∈ pairs, Spells u p.1 p.2) :
    Spelled u (pairs.map Prod.fst) (pairs.flatMap Prod.snd) := by
  induction pairs with
  | nil => exact .nil
  | cons p pairs ih =>
    rw [List.map_cons, List.flatMap_cons]
    exact .cons (spells p List.mem_cons_self) (ih fun q member => spells q (List.mem_cons_of_mem p member))

/-- A dump that counts nothing but segments, with the first two words given. -/
def dumpPairs (retx sent : Nat × String) : List (Entry × List (List Char)) :=
  [(.other, ["Tcp:".toList]),
    (.counter .recv 0, ["    0 segments received".toList]),
    (.counter .sent sent.1, [sent.2.toList ++ " segments sent out".toList]),
    (.counter .retx retx.1, [retx.2.toList ++ " segments retransmitted".toList]),
    (.counter .ipRxPkts 0, ["    0 total packets received".toList]),
    (.counter .ipTxPkts 0, ["    0 requests sent out".toList]),
    (.counter .ipRxBytes 0, ["    InOctets: 0".toList]),
    (.counter .ipTxBytes 0, ["    OutOctets: 0".toList]),
    (.link .rx 0 0, ["    RX: bytes  packets  errors".toList, "    0  0  0".toList]),
    (.link .tx 0 0, ["    TX: bytes  packets  errors".toList, "    0  0  0".toList])]

theorem dump_rest_spells {retx sent : Nat × String}
    (first : Spells ascii (.counter .retx retx.1) [retx.2.toList ++ " segments retransmitted".toList])
    (second : Spells ascii (.counter .sent sent.1) [sent.2.toList ++ " segments sent out".toList]) :
    ∀ p ∈ dumpPairs retx sent, Spells ascii p.1 p.2 := by
  unfold dumpPairs
  simp only [List.forall_mem_cons]
  refine ⟨.other ⟨?_, ?_⟩, .counter (by decide) (by decide), second, first,
    .counter (by decide) (by decide), .counter (by decide) (by decide),
    .counter (by decide) (by decide), .counter (by decide) (by decide),
    .link (by decide) (by decide) (by decide), .link (by decide) (by decide) (by decide),
    fun p member => absurd member List.not_mem_nil⟩
  · intro d
    cases d <;> decide
  · intro c
    cases c <;> decide

/-- A dump of segments alone. -/
def dump (retx sent : Nat × String)
    (first : Spells ascii (.counter .retx retx.1) [retx.2.toList ++ " segments retransmitted".toList])
    (second : Spells ascii (.counter .sent sent.1) [sent.2.toList ++ " segments sent out".toList])
    (small : retx.1 < 2 ^ 64 ∧ sent.1 < 2 ^ 64) : Snapshot ascii where
  entries := (dumpPairs retx sent).map Prod.fst
  lines := (dumpPairs retx sent).flatMap Prod.snd
  spelled := spelled_pairs (dump_rest_spells first second)
  fits := by
    have none : 0 < 2 ^ 64 := by decide
    simp only [dumpPairs, List.map_cons, List.map_nil, List.forall_mem_cons]
    exact ⟨trivial, none, small.2, small.1, none, none, none, none, ⟨none, none⟩, ⟨none, none⟩,
      fun e member => absurd member List.not_mem_nil⟩
  value
    | .retx => retx.1
    | .sent => sent.1
    | _ => 0
  link _ := (0, 0)
  once c known := by
    cases c <;> first | rfl | exact absurd rfl known
  linkOnce d := by
    cases d <;> rfl

def zeroDump : Snapshot ascii :=
  dump (0, "0") (0, "0") (.counter (by decide) (by decide)) (.counter (by decide) (by decide))
    (by decide)

/-- One of three segments sent again. -/
def thirdDump : Snapshot ascii :=
  dump (1, "1") (3, "3") (.counter (by decide) (by decide)) (.counter (by decide) (by decide))
    (by decide)

/-- More segments sent than a double counts. -/
def longDump : Snapshot ascii :=
  dump (0, "0") (2 ^ 53 + 1, "9007199254740993") (.counter (by decide) (by decide))
    (.counter (by decide) (by decide)) (by decide)

/-- A third is no double, no more is 2 ^ 53 + 1, and a time of zero ends the report early. -/
theorem differences_not_reported :
    ¬ ReportsDifferences zeroDump thirdDump (printRetxRate ascii (zeroDump.lines ++ thirdDump.lines) 30) ∧
    ¬ ReportsDifferences zeroDump longDump (printRetxRate ascii (zeroDump.lines ++ longDump.lines) 30) ∧
    ¬ ReportsDifferences zeroDump thirdDump (printRetxRate ascii (zeroDump.lines ++ thirdDump.lines) 0) := by
  refine ⟨?_, ?_, ?_⟩
  · intro right
    obtain ⟨v, printed, number⟩ := right.percent
    have value : reported (printRetxRate ascii (zeroDump.lines ++ thirdDump.lines) 30) "Retx_percent: " =
        some (.float (2345624805922133 / 70368744177664)) := by decide +kernel
    rw [value] at printed
    cases printed
    norm_num [Value.number, gained, zeroDump, thirdDump, dump] at number
  · intro right
    obtain ⟨v, printed, number⟩ := right.counter .sent (by decide)
    have value : reported (printRetxRate ascii (zeroDump.lines ++ longDump.lines) 30)
        (Counter.label .sent) = some (.float (2 ^ 53)) := by decide +kernel
    rw [value] at printed
    cases printed
    norm_num [Value.number, gained, zeroDump, longDump, dump] at number
  · intro right
    obtain ⟨v, printed, _⟩ := right.counter .ipRxPkts (by decide)
    have value : reported (printRetxRate ascii (zeroDump.lines ++ thirdDump.lines) 0)
        (Counter.label .ipRxPkts) = none := by decide +kernel
    rw [value] at printed
    cases printed

theorem third_dump_reported :
    ReportsTraffic zeroDump thirdDump (printRetxRate ascii (zeroDump.lines ++ thirdDump.lines) 30) :=
  (snapshots_reported zeroDump thirdDump 30).2.mpr ⟨by decide, by decide +kernel⟩

end RetxSnapshots
