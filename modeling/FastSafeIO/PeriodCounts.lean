import Mathlib.Algebra.Order.BigOperators.Group.List
import FastSafeIO.Grep
import FastSafeIO.PeriodReport

/-! What collect-period-tput.sh counts for each of its periods. -/
namespace PeriodCounts
open NearestFloat TextTables PeriodReport Grep

/-- The number that a word starts with, without an exponent. -/
def awkUnsigned (w : List Char) : ℚ :=
  let whole : ℚ := Nat.ofDigitChars 10 (w.takeWhile Char.isDigit) 0
  match w.dropWhile Char.isDigit with
  | [] => whole
  | c :: rest =>
    if c = '.' then
      let fraction := rest.takeWhile Char.isDigit
      whole + Nat.ofDigitChars 10 fraction 0 / 10 ^ fraction.length
    else whole

def awkNumber : List Char → ℚ
  | [] => 0
  | c :: w => if c = '-' then - awkUnsigned w else awkUnsigned (c :: w)

/-- $7 as a number. -/
def seventhField (line : List Char) : ℚ := awkNumber ((words line)[6]?.getD [])

/-- The numbers that awk adds up for a period. -/
def samplesOf (logFiles : List (List (List Char))) (p : String) : List ℚ :=
  (logFiles.flatten.filter (grep p.toList)).map seventhField

def collectPeriodTput (logFiles : List (List (List Char))) : List Char :=
  report (samplesOf logFiles)

/-- sum / 1000 where there is anything to add, before printf rounds it. -/
def tput (samples : List ℚ) : Option ℚ := if samples = [] then none else some (samples.sum / 1000)

/-- The last value that is not empty. -/
def lastValue (tputs : List (Option ℚ)) : Option ℚ :=
  tputs.foldl (fun last t => if t ≠ none then t else last) none

def blanks (n : Nat) : List Char := List.replicate (n + 1) ' '

/-- A word of an interval line that is no interval. -/
structure Word (w : List Char) : Prop where
  some_char : w ≠ []
  solid : ∀ c ∈ w, isSpace c = false
  no_dash : '-' ∉ w

/-- The line of a stream for the thirty seconds from 30k on. -/
structure Interval where
  k : Nat
  id : Nat
  lead : Nat
  gap : Nat → Nat
  amount : List Char
  unit : List Char
  rate : List Char
  value : ℚ
  rest : List Char
  amountWord : Word amount
  unitWord : Word unit
  rateWord : Word rate
  rateNumber : readUnsigned rate = some value
  restPlain : '-' ∉ rest

/-- Up to the dash of the interval. Only an id of less than three digits has a blank in front. -/
def Interval.front (i : Interval) : List Char :=
  '[' :: (List.replicate i.lead ' ' ++ (printNat i.id ++
    (']' :: (blanks (i.gap 1) ++ (printNat (30 * i.k) ++ ".00".toList)))))

/-- From its end on. -/
def Interval.back (i : Interval) : List Char :=
  printNat (30 * (i.k + 1)) ++ (".00".toList ++ (blanks (i.gap 2) ++ ("sec".toList ++
    (blanks (i.gap 3) ++ (i.amount ++ (blanks (i.gap 4) ++ (i.unit ++ (blanks (i.gap 5) ++
      (i.rate ++ (blanks (i.gap 6) ++ ("Mbits/sec".toList ++ i.rest)))))))))))

def Interval.text (i : Interval) : List Char := i.front ++ '-' :: i.back

/-- The j-th period as grep gets it. -/
def pattern (j : Nat) : List Char :=
  printNat (30 * j) ++ ('.' :: '*' :: (('-' :: printNat (30 * (j + 1))) ++ ['.', '*']))

/-- A line of another period that the pattern finds as well: its end starts with the digits of
    the period's end, and the digits of the period's start are found before that, if only in
    the places after the point. -/
def Misread (j : Nat) (i : Interval) : Prop :=
  i.k ≠ j ∧ printNat (30 * (j + 1)) <+: printNat (30 * (i.k + 1)) ∧
    (j = 0 ∨ printNat (30 * j) <:+: printNat i.id ∨ printNat (30 * j) <:+: printNat (30 * i.k))

instance (j : Nat) (i : Interval) : Decidable (Misread j i) :=
  inferInstanceAs (Decidable (_ ∧ _ ∧ _))

theorem period_patterns : ∀ j < 10, (period[j]?.map String.toList) = some (pattern j) := by
  decide

theorem period_length : period.length = 10 := rfl

section
variable {w l : List Char} {i : Interval} {j n : Nat}

theorem print_nat_ordinary (n : Nat) : Ordinary (printNat n) := by
  intro c member
  have digit := print_nat_digits n c member
  constructor
  · intro point
    rw [point] at digit
    exact absurd digit (by decide)
  · intro star
    rw [star] at digit
    exact absurd digit (by decide)

theorem print_nat_without (n : Nat) {c : Char} (other : c.isDigit = false) : c ∉ printNat n := by
  intro member
  rw [print_nat_digits n c member] at other
  cases other

theorem words_skip (n : Nat) (l : List Char) : words (List.replicate n ' ' ++ l) = words l := by
  induction n with
  | zero => rfl
  | succ n ih =>
    rw [List.replicate_succ, List.cons_append, words_space (by decide), ih]

theorem words_next (some_char : w ≠ []) (solid : ∀ c ∈ w, isSpace c = false) (n : Nat)
    (l : List Char) : words (w ++ (blanks n ++ l)) = w :: words l := by
  unfold blanks
  rw [List.replicate_succ, List.cons_append, words_cons solid some_char (by decide), words_skip]

/-- The number that readDecimal finds is the one that awk takes. -/
theorem awk_unsigned {x : ℚ} (read : readUnsigned w = some x) : awkUnsigned w = x := by
  unfold readUnsigned at read
  unfold awkUnsigned
  dsimp only at read ⊢
  split at read
  · cases read
  · cases rest : w.dropWhile Char.isDigit with
    | nil =>
      rw [rest] at read
      exact Option.some.inj read
    | cons c fraction =>
      rw [rest] at read
      dsimp only at read ⊢
      split at read
      · rename_i point
        have digits : fraction.takeWhile Char.isDigit = fraction :=
          List.takeWhile_eq_self_iff.mpr (List.all_eq_true.mp point.2)
        rw [if_pos point.1, digits]
        exact Option.some.inj read
      · cases read

theorem awk_rate (i : Interval) : awkNumber i.rate = i.value := by
  have number := awk_unsigned i.rateNumber
  cases chars : i.rate with
  | nil => exact absurd chars i.rateWord.some_char
  | cons c w =>
    have no_sign : c ≠ '-' := by
      intro dash
      have member : c ∈ i.rate := chars ▸ List.mem_cons_self
      rw [dash] at member
      exact i.rateWord.no_dash member
    rw [chars] at number
    rw [awkNumber, if_neg no_sign, number]

theorem blanks_apart {x : List Char} (digits : ∀ c ∈ x, c.isDigit = true) (n : Nat) :
    ∀ c ∈ List.replicate n ' ', c ∉ x := by
  intro c member inside
  have space : c = ' ' := List.eq_of_mem_replicate member
  have digit := digits c inside
  rw [space] at digit
  exact absurd digit (by decide)

theorem front_no_dash (i : Interval) : '-' ∉ i.front := by
  have id := print_nat_without i.id (by decide : '-'.isDigit = false)
  have start := print_nat_without (30 * i.k) (by decide : '-'.isDigit = false)
  simp [Interval.front, blanks, id, start]

theorem back_no_dash (i : Interval) : '-' ∉ i.back := by
  have stop := print_nat_without (30 * (i.k + 1)) (by decide : '-'.isDigit = false)
  have amount := i.amountWord.no_dash
  have unit := i.unitWord.no_dash
  have rate := i.rateWord.no_dash
  have rest := i.restPlain
  simp [Interval.back, blanks, stop, amount, unit, rate, rest]

/-- The digits of a number lie in the stream's id, in the start of the interval or after its
    point. -/
theorem front_digits (n : Nat) (i : Interval) : printNat n <:+: i.front ↔
    printNat n <:+: printNat i.id ∨ printNat n <:+: printNat (30 * i.k) ∨
      printNat n <:+: "00".toList := by
  have digits := print_nat_digits n
  have none : ¬ printNat n <:+: [] := fun inside => print_nat_ne_nil n (List.infix_nil.mp inside)
  have gaps : ∀ {c : Char} (m : Nat), c.isDigit = false →
      ∀ d ∈ c :: List.replicate m ' ', d ∉ printNat n := by
    intro c m other d member
    rcases List.mem_cons.mp member with rfl | blank
    · exact print_nat_without n other
    · exact blanks_apart digits m d blank
  have point : '.' ∉ printNat n := print_nat_without n (by decide)
  have start := infix_gap (a := []) (b := printNat i.id ++ (']' :: (blanks (i.gap 1) ++
    (printNat (30 * i.k) ++ ".00".toList)))) (gaps (c := '[') i.lead (by decide)) (by simp)
  have id := infix_gap (a := printNat i.id) (b := printNat (30 * i.k) ++ ".00".toList)
    (gaps (c := ']') (i.gap 1 + 1) (by decide)) (by simp)
  have stop := infix_sep (a := printNat (30 * i.k)) (b := "00".toList) point
  unfold Interval.front
  rw [List.nil_append] at start
  rw [← List.cons_append, start, or_iff_right none, blanks, ← List.cons_append, id]
  exact or_congr_right stop

theorem back_digits (n : Nat) (i : Interval) :
    printNat n <+: i.back ↔ printNat n <+: printNat (30 * (i.k + 1)) :=
  prefix_sep (print_nat_without n (by decide : '.'.isDigit = false))

theorem zeros_start : ∀ j < 10, printNat (30 * j) <:+: "00".toList ↔ j = 0 := by decide

theorem grep_pattern (j : Nat) (i : Interval) : grep (pattern j) i.text = true ↔
    printNat (30 * j) <:+: i.front ∧ printNat (30 * (j + 1)) <+: i.back := by
  have dash : Ordinary ('-' :: printNat (30 * (j + 1))) := by
    intro c member
    rcases List.mem_cons.mp member with rfl | digit
    · exact ⟨by decide, by decide⟩
    · exact print_nat_ordinary _ c digit
  unfold pattern Interval.text
  rw [grep_between (print_nat_ordinary _) dash]
  exact between_at_sep (front_no_dash i) (back_no_dash i)

/-- A pattern finds the lines of its own period, and the misread ones. -/
theorem found_iff (small : j < 10) (i : Interval) :
    grep (pattern j) i.text = true ↔ i.k = j ∨ Misread j i := by
  rw [grep_pattern, front_digits, back_digits, zeros_start j small]
  unfold Misread
  constructor
  · intro found
    obtain ⟨start, stop⟩ := found
    by_cases own : i.k = j
    · exact Or.inl own
    · refine Or.inr ⟨own, stop, ?_⟩
      rcases start with id | start | zero
      · exact Or.inr (Or.inl id)
      · exact Or.inr (Or.inr start)
      · exact Or.inl zero
  · intro found
    rcases found with own | ⟨_, stop, start⟩
    · rw [own]
      exact ⟨Or.inr (Or.inl List.infix_rfl), List.prefix_rfl⟩
    · refine ⟨?_, stop⟩
      rcases start with zero | id | start
      · exact Or.inr (Or.inr zero)
      · exact Or.inl id
      · exact Or.inr (Or.inl start)

theorem words_from_head {carry : List Char} (some_char : carry ≠ []) (l : List Char) :
    ∃ t ws, wordsFrom carry l = (carry ++ t) :: ws := by
  induction l generalizing carry with
  | nil => exact ⟨[], [], by rw [wordsFrom, if_neg some_char, List.append_nil]⟩
  | cons c l ih =>
    rw [wordsFrom, if_neg some_char]
    split
    · exact ⟨[], wordsFrom [] l, by rw [List.append_nil]⟩
    · obtain ⟨t, ws, same⟩ := ih (show carry ++ [c] ≠ [] by simp)
      exact ⟨c :: t, ws, by rw [same, List.append_assoc, List.singleton_append]⟩

theorem unit_number (rest : List Char) :
    awkNumber ((words ("Mbits/sec".toList ++ rest))[0]?.getD []) = 0 := by
  have letter : words ("Mbits/sec".toList ++ rest) = wordsFrom ['M'] ("bits/sec".toList ++ rest) := rfl
  obtain ⟨t, ws, same⟩ := words_from_head (List.cons_ne_nil 'M' []) ("bits/sec".toList ++ rest)
  rw [letter, same]
  simp [awkNumber, awkUnsigned]

/-- What awk takes for the rate of a line: without a blank in front of the id all words are one
    field further to the left. -/
def Interval.taken (i : Interval) : ℚ := if i.lead = 0 then 0 else i.value

theorem seventh_field (i : Interval) : seventhField i.text = i.taken := by
  have id : ∀ c ∈ printNat i.id ++ [']'], isSpace c = false := by
    intro c member
    rcases List.mem_append.mp member with digit | bracket
    · exact print_nat_solid _ c digit
    · rw [List.mem_singleton.mp bracket]
      decide
  have interval : ∀ c ∈ printNat (30 * i.k) ++ (".00-".toList ++ (printNat (30 * (i.k + 1)) ++
      ".00".toList)), isSpace c = false := by
    intro c member
    simp only [List.mem_append] at member
    rcases member with digit | middle | digit | last
    · exact print_nat_solid _ c digit
    · exact solid_chars (by decide) c middle
    · exact print_nat_solid _ c digit
    · exact solid_chars (by decide) c last
  -- the words from the interval on
  have later : words ((printNat (30 * i.k) ++ (".00-".toList ++ (printNat (30 * (i.k + 1)) ++
      ".00".toList))) ++ (blanks (i.gap 2) ++ ("sec".toList ++ (blanks (i.gap 3) ++ (i.amount ++
        (blanks (i.gap 4) ++ (i.unit ++ (blanks (i.gap 5) ++ (i.rate ++ (blanks (i.gap 6) ++
          ("Mbits/sec".toList ++ i.rest))))))))))) =
      (printNat (30 * i.k) ++ (".00-".toList ++ (printNat (30 * (i.k + 1)) ++ ".00".toList))) ::
        "sec".toList :: i.amount :: i.unit :: i.rate :: words ("Mbits/sec".toList ++ i.rest) := by
    rw [words_next (by simp [print_nat_ne_nil]) interval,
      words_next (by decide) (solid_chars (by decide)),
      words_next i.amountWord.some_char i.amountWord.solid,
      words_next i.unitWord.some_char i.unitWord.solid,
      words_next i.rateWord.some_char i.rateWord.solid]
  unfold seventhField Interval.taken
  cases lead : i.lead with
  | zero =>
    have shape : i.text = ('[' :: (printNat i.id ++ [']'])) ++ (blanks (i.gap 1) ++
        ((printNat (30 * i.k) ++ (".00-".toList ++ (printNat (30 * (i.k + 1)) ++ ".00".toList))) ++
          (blanks (i.gap 2) ++ ("sec".toList ++ (blanks (i.gap 3) ++ (i.amount ++
            (blanks (i.gap 4) ++ (i.unit ++ (blanks (i.gap 5) ++ (i.rate ++ (blanks (i.gap 6) ++
              ("Mbits/sec".toList ++ i.rest)))))))))))) := by
      simp [Interval.text, Interval.front, Interval.back, lead]
    have bracket : ∀ c ∈ '[' :: (printNat i.id ++ [']']), isSpace c = false :=
      List.forall_mem_cons.mpr ⟨by decide, id⟩
    rw [shape, words_next (by simp) bracket, later, if_pos rfl]
    exact unit_number i.rest
  | succ n =>
    have shape : i.text = ['['] ++ (blanks n ++ ((printNat i.id ++ [']']) ++ (blanks (i.gap 1) ++
        ((printNat (30 * i.k) ++ (".00-".toList ++ (printNat (30 * (i.k + 1)) ++ ".00".toList))) ++
          (blanks (i.gap 2) ++ ("sec".toList ++ (blanks (i.gap 3) ++ (i.amount ++
            (blanks (i.gap 4) ++ (i.unit ++ (blanks (i.gap 5) ++ (i.rate ++ (blanks (i.gap 6) ++
              ("Mbits/sec".toList ++ i.rest)))))))))))))) := by
      simp [Interval.text, Interval.front, Interval.back, lead, blanks]
    rw [shape, words_next (by simp) (solid_chars (by decide)), words_next (by simp) id, later,
      if_neg (Nat.succ_ne_zero n)]
    exact awk_rate i

end

section
variable {files : List (List Interval)} {is : List Interval} {j : Nat}

def texts (files : List (List Interval)) : List (List (List Char)) :=
  files.map fun f => f.map Interval.text

/-- The rates of the lines of a period. -/
def ownRates (files : List (List Interval)) (j : Nat) : List ℚ :=
  (files.flatten.filter (·.k = j)).map Interval.value

/-- Each period reported as the sum over its own lines, and the last of them once more. -/
structure CountedInOwn (files : List (List Interval)) : Prop where
  periods : ∀ j p, period[j]? = some p →
    tput (samplesOf (texts files) p) = tput (ownRates files j)
  avg : lastValue (period.map fun p => tput (samplesOf (texts files) p)) =
    ((List.range 10).filterMap fun j => tput (ownRates files j)).getLast?

/-- What a period finds besides its own lines does not stand alone, and makes up for its own rates
    that are in the wrong field: as a rule, both are nothing. -/
def Offset (is : List Interval) (j : Nat) : Prop :=
  (∀ i ∈ is, Misread j i → ∃ own ∈ is, own.k = j) ∧
    ((is.filter fun i => Misread j i ∧ i.lead ≠ 0).map Interval.value).sum =
      ((is.filter fun i => i.k = j ∧ i.lead = 0).map Interval.value).sum

/-- What a period finds besides its own lines adds nothing, and does not stand alone. -/
def MisreadIdle (files : List (List Interval)) : Prop :=
  ∀ j < 10, ∀ i ∈ files.flatten, Misread j i → i.value = 0 ∧ ∃ own ∈ files.flatten, own.k = j

theorem samples_pattern {p : String} (small : j < 10) (chars : p.toList = pattern j)
    (files : List (List Interval)) : samplesOf (texts files) p =
      (files.flatten.filter fun i => i.k = j ∨ Misread j i).map Interval.taken := by
  have lines : (texts files).flatten = files.flatten.map Interval.text := by
    unfold texts
    rw [List.map_flatten]
  have found : ∀ i ∈ files.flatten,
      (grep (pattern j) ∘ Interval.text) i = decide (i.k = j ∨ Misread j i) := by
    intro i _
    rw [Function.comp_apply, Bool.eq_iff_iff, found_iff small, decide_eq_true_iff]
  unfold samplesOf
  rw [lines, chars, List.filter_map, List.map_map, List.filter_congr found]
  apply List.map_congr_left
  intro i _
  exact seventh_field i

theorem found_sum (is : List Interval) (j : Nat) :
    ((is.filter fun i => i.k = j ∨ Misread j i).map Interval.taken).sum =
      ((is.filter (·.k = j)).map Interval.taken).sum +
      ((is.filter (Misread j ·)).map Interval.taken).sum := by
  induction is with
  | nil => simp
  | cons i is ih =>
    by_cases own : i.k = j
    · have not_misread : ¬ Misread j i := fun misread => misread.1 own
      simp only [List.filter_cons, own, not_misread, true_or, decide_true, decide_false, if_true,
        Bool.false_eq_true, if_false, List.map_cons, List.sum_cons, ih]
      ring
    · by_cases misread : Misread j i
      · simp only [List.filter_cons, own, misread, or_true, decide_true, decide_false, if_true,
          Bool.false_eq_true, if_false, List.map_cons, List.sum_cons, ih]
        ring
      · simp only [List.filter_cons, own, misread, or_false, decide_false, Bool.false_eq_true,
          if_false, ih]

/-- The rates taken are those of the lines with a blank. -/
theorem taken_sum (is : List Interval) (p : Interval → Prop) [DecidablePred p] :
    ((is.filter (p ·)).map Interval.taken).sum =
      ((is.filter fun i => p i ∧ i.lead ≠ 0).map Interval.value).sum := by
  induction is with
  | nil => rfl
  | cons i is ih =>
    by_cases found : p i
    · by_cases lead : i.lead = 0
      · simp [found, lead, Interval.taken, ih]
      · simp [found, lead, Interval.taken, ih]
    · simp [found, ih]

theorem value_sum (is : List Interval) (p : Interval → Prop) [DecidablePred p] :
    ((is.filter (p ·)).map Interval.value).sum = ((is.filter (p ·)).map Interval.taken).sum +
      ((is.filter fun i => p i ∧ i.lead = 0).map Interval.value).sum := by
  induction is with
  | nil => simp
  | cons i is ih =>
    by_cases found : p i
    · by_cases lead : i.lead = 0
      · simp [found, lead, Interval.taken, ih]
        ring
      · simp [found, lead, Interval.taken, ih]
        ring
    · simp [found, ih]

theorem tput_eq_iff {xs ys : List ℚ} :
    tput xs = tput ys ↔ (xs = [] ↔ ys = []) ∧ (xs ≠ [] → xs.sum = ys.sum) := by
  unfold tput
  by_cases none : xs = []
  · by_cases other : ys = []
    · simp [none, other]
    · simp [none, other]
  · by_cases other : ys = []
    · simp [none, other]
    · rw [if_neg none, if_neg other, Option.some.injEq, div_left_inj' (by norm_num)]
      simp [none, other]

/-- One period is right when what it misreads does not stand alone and makes up for what it
    misses. -/
theorem period_right_iff (is : List Interval) (j : Nat) :
    tput ((is.filter fun i => i.k = j ∨ Misread j i).map Interval.taken) =
        tput ((is.filter (·.k = j)).map Interval.value) ↔ Offset is j := by
  have own := value_sum is (·.k = j)
  have misread := taken_sum is (Misread j)
  rw [tput_eq_iff, found_sum]
  simp only [List.map_eq_nil_iff, List.filter_eq_nil_iff, decide_eq_true_eq, ne_eq]
  unfold Offset
  constructor
  · intro right
    obtain ⟨empty, sums⟩ := right
    constructor
    · intro i member misread
      by_contra none
      have nothing := empty.mpr fun o known own => none ⟨o, known, own⟩
      exact nothing i member (Or.inr misread)
    · by_cases none : ∀ i ∈ is, ¬ (i.k = j ∨ Misread j i)
      · -- no line is found at all
        have first : is.filter (fun i => Misread j i ∧ i.lead ≠ 0) = [] := by
          rw [List.filter_eq_nil_iff]
          intro i member found
          exact none i member (Or.inr (of_decide_eq_true found).1)
        have second : is.filter (fun i => i.k = j ∧ i.lead = 0) = [] := by
          rw [List.filter_eq_nil_iff]
          intro i member found
          exact none i member (Or.inl (of_decide_eq_true found).1)
        rw [first, second]
      · have sums := sums none
        linarith
  · intro offset
    obtain ⟨alone, sums⟩ := offset
    constructor
    · constructor
      · intro none i member own
        exact none i member (Or.inl own)
      · intro none i member found
        rcases found with own | misread
        · exact none i member own
        · obtain ⟨o, known, own⟩ := alone i member misread
          exact none o known own
    · intro _
      linarith

theorem last_value_snoc (tputs : List (Option ℚ)) (t : Option ℚ) :
    lastValue (tputs ++ [t]) = if t ≠ none then t else lastValue tputs := by
  unfold lastValue
  rw [List.foldl_append]
  rfl

theorem last_value_eq (tputs : List (Option ℚ)) :
    lastValue tputs = (tputs.filterMap id).getLast? := by
  induction tputs using List.reverseRecOn with
  | nil => rfl
  | append_singleton tputs t ih =>
    rw [last_value_snoc, ih, List.filterMap_append]
    cases t with
    | none => simp
    | some x => simp

theorem period_pattern {p : String} (known : period[j]? = some p) :
    j < 10 ∧ p.toList = pattern j := by
  have small : j < 10 := by
    have bound := (List.getElem?_eq_some_iff.mp known).1
    rwa [period_length] at bound
  have chars := period_patterns j small
  rw [known] at chars
  exact ⟨small, Option.some.inj chars⟩

theorem tputs_own (right : ∀ j p, period[j]? = some p →
      tput (samplesOf (texts files) p) = tput (ownRates files j)) :
    (period.map fun p => tput (samplesOf (texts files) p)) =
      (List.range 10).map fun j => tput (ownRates files j) := by
  apply List.ext_getElem?
  intro j
  rw [List.getElem?_map, List.getElem?_map]
  by_cases small : j < 10
  · obtain ⟨p, known⟩ : ∃ p, period[j]? = some p :=
      ⟨_, List.getElem?_eq_getElem (period_length ▸ small)⟩
    rw [known, List.getElem?_range small, Option.map_some, Option.map_some, right j p known]
  · have above : 10 ≤ j := Nat.le_of_not_lt small
    rw [List.getElem?_eq_none (period_length ▸ above), List.getElem?_eq_none (by simpa using above)]
    rfl

theorem own_found_iff {p : String} (known : period[j]? = some p) (files : List (List Interval)) :
    tput (samplesOf (texts files) p) = tput (ownRates files j) ↔ Offset files.flatten j := by
  obtain ⟨small, chars⟩ := period_pattern known
  rw [samples_pattern small chars]
  exact period_right_iff files.flatten j

/-- Every line has a blank in front of its id. -/
def Aligned (files : List (List Interval)) : Prop := ∀ i ∈ files.flatten, i.lead ≠ 0

theorem samples_aligned {p : String} (known : period[j]? = some p) (aligned : Aligned files) :
    samplesOf (texts files) p =
      (files.flatten.filter fun i => i.k = j ∨ Misread j i).map Interval.value := by
  obtain ⟨small, chars⟩ := period_pattern known
  rw [samples_pattern small chars]
  apply List.map_congr_left
  intro i member
  exact if_neg (aligned i (List.mem_of_mem_filter member))

theorem offset_of_idle (aligned : Aligned files) (idle : MisreadIdle files) (small : j < 10) :
    Offset files.flatten j := by
  constructor
  · intro i member misread
    exact (idle j small i member misread).2
  · have none : files.flatten.filter (fun i => i.k = j ∧ i.lead = 0) = [] := by
      rw [List.filter_eq_nil_iff]
      intro i member found
      exact aligned i member (of_decide_eq_true found).2
    rw [none]
    apply List.sum_eq_zero
    intro x known
    obtain ⟨i, filtered, rfl⟩ := List.mem_map.mp known
    obtain ⟨member, misread⟩ := List.mem_filter.mp filtered
    exact (idle j small i member (of_decide_eq_true misread).1).1

theorem fold_found {sum : ℚ} (double : Representable 52 sum)
    (idle : ∀ i ∈ is, Misread j i → i.value = 0) :
    ((is.filter fun i => i.k = j ∨ Misread j i).map Interval.value).foldl
        (fun sum x => toDouble (sum + x)) sum =
      ((is.filter (·.k = j)).map Interval.value).foldl (fun sum x => toDouble (sum + x)) sum := by
  induction is generalizing sum with
  | nil => rfl
  | cons i is ih =>
    have later : ∀ o ∈ is, Misread j o → o.value = 0 := fun o member =>
      idle o (List.mem_cons_of_mem i member)
    have next := round_to_representable 52 (sum + i.value)
    by_cases own : i.k = j
    · rw [List.filter_cons_of_pos (by simp [own]), List.filter_cons_of_pos (by simp [own])]
      exact ih next later
    · by_cases misread : Misread j i
      · have nothing := idle i List.mem_cons_self misread
        simp only [List.filter_cons, own, misread, or_true, decide_true, decide_false, if_true,
          Bool.false_eq_true, if_false, List.map_cons, List.foldl_cons, nothing, add_zero,
          toDouble, round_to_keeps double]
        exact ih double later
      · simp only [List.filter_cons, own, misread, or_false, decide_false, Bool.false_eq_true,
          if_false]
        exact ih double later

theorem printed_own {p : String} (known : period[j]? = some p) (aligned : Aligned files)
    (idle : MisreadIdle files) :
    iperfTput (samplesOf (texts files) p) = iperfTput (ownRates files j) := by
  obtain ⟨small, _⟩ := period_pattern known
  have nothing : Representable 52 0 := ⟨0, 0, by decide, by simp⟩
  have adds := fold_found nothing fun i member misread => (idle j small i member misread).1
  have right := (own_found_iff known files).mpr (offset_of_idle aligned idle small)
  have empty := (tput_eq_iff.mp right).1
  unfold iperfTput
  by_cases none : ownRates files j = []
  · rw [if_pos (empty.mpr none), if_pos none]
  · rw [if_neg fun nothing => none (empty.mp nothing), if_neg none]
    unfold tputOf
    rw [samples_aligned known aligned, adds]
    rfl

theorem report_congr {f g : String → List ℚ}
    (same : ∀ p ∈ period, iperfTput (f p) = iperfTput (g p)) : report f = report g := by
  have tputs := List.map_congr_left same
  have lines : (period.map fun p => periodLine p (iperfTput (f p))) =
      period.map fun p => periodLine p (iperfTput (g p)) :=
    List.map_congr_left fun p known => congrArg (periodLine p) (same p known)
  unfold report reportLines
  rw [tputs, lines]

/-- Every period is reported from its own lines just when what it misreads and what it misses
    make up for each other. When they are nothing, the whole report is the one of the periods'
    own lines. -/
theorem counted_in_own_iff (files : List (List Interval)) :
    (CountedInOwn files ↔ ∀ j < 10, Offset files.flatten j) ∧
    (Aligned files → MisreadIdle files → CountedInOwn files ∧ collectPeriodTput (texts files) =
      report fun p => ownRates files (period.idxOf p)) := by
  have counted : (∀ j < 10, Offset files.flatten j) → CountedInOwn files := by
    intro offset
    have periods : ∀ j p, period[j]? = some p →
        tput (samplesOf (texts files) p) = tput (ownRates files j) := by
      intro j p known
      exact (own_found_iff known files).mpr (offset j (period_pattern known).1)
    constructor
    · exact periods
    · rw [last_value_eq, tputs_own periods, List.filterMap_map]
      rfl
  constructor
  · constructor
    · intro counted j small
      have known : period[j]? = some _ := List.getElem?_eq_getElem (period_length ▸ small)
      exact (own_found_iff known files).mp (counted.periods j _ known)
    · exact counted
  · intro aligned idle
    constructor
    · exact counted fun j small => offset_of_idle aligned idle small
    · apply report_congr
      intro p member
      have known := List.getElem?_idxOf member
      exact printed_own known aligned idle

/-- A run of five minutes on one stream at 9000 Mbit/s. -/
def fiveMinutes (k : Nat) : Interval where
  k := k
  id := 5
  lead := 2
  gap := fun _ => 1
  amount := "31.4".toList
  unit := "GBytes".toList
  rate := "9000".toList
  value := 9000
  rest := []
  amountWord := ⟨by decide, solid_chars (by decide), by decide⟩
  unitWord := ⟨by decide, solid_chars (by decide), by decide⟩
  rateWord := ⟨by decide, solid_chars (by decide), by decide⟩
  rateNumber := by decide
  restPlain := List.not_mem_nil

def fullRun : List (List Interval) := [(List.range 10).map fiveMinutes]

/-- The tenth line ends with 300.00 and its start with a zero, so that the first period has it
    too: it is reported with 18 Gbit/s, where its own line has 9. -/
theorem full_run_miscounted :
    tput (samplesOf (texts fullRun) "0.*-30.*") = some 18 ∧
    tput (ownRates fullRun 0) = some 9 ∧ ¬ CountedInOwn fullRun := by
  have found : tput (samplesOf (texts fullRun) "0.*-30.*") = some 18 := by
    rw [samples_pattern (by decide : 0 < 10) (by decide)]
    decide +kernel
  have own : tput (ownRates fullRun 0) = some 9 := by decide +kernel
  constructor
  · exact found
  · constructor
    · exact own
    · intro counted
      have first := counted.periods 0 "0.*-30.*" rfl
      rw [found, own] at first
      exact absurd first (by decide)

end
end PeriodCounts
