import FastSafeIO.TextTables

/-! The period report of collect-period-tput.sh and the five scripts that read a throughput
from it. -/
namespace PeriodReport
open NearestFloat TextTables

def period : List String :=
  ["0.*-30.*", "30.*-60.*", "60.*-90.*", "90.*-120.*", "120.*-150.*", "150.*-180.*", "180.*-210.*",
    "210.*-240.*", "240.*-270.*", "270.*-300.*"]

/-- What awk prints for the seventh fields of the lines of a period, in Mbit/s. -/
def tputOf (samples : List ℚ) : ℚ :=
  toDouble (samples.foldl (fun sum x => toDouble (sum + x)) 0 / 1000)

def iperfTput (samples : List ℚ) : List Char :=
  if samples = [] then [] else printRounded 3 (tputOf samples)

def periodLine (p : String) (iperfTput : List Char) : List Char :=
  "Period".toList ++ ' ' :: (p.toList ++ ' ' :: ("tput:".toList ++ ' ' :: iperfTput))

def avgLabel : List Char := "Avg_iperf_tput:".toList

def avgLine (lastTput : List Char) : List Char := avgLabel ++ ' ' :: lastTput

def lastTput (tputs : List (List Char)) : List Char :=
  tputs.foldl (fun last tput => if tput ≠ [] then tput else last) []

/-- The report, given the samples that grep finds for each period. -/
def reportLines (samples : String → List ℚ) : List (List Char) :=
  (period.map fun p => periodLine p (iperfTput (samples p))) ++
    [avgLine (lastTput (period.map fun p => iperfTput (samples p)))]

def report (samples : String → List ℚ) : List Char := writeLines (reportLines samples)

/-- float(line.split()[-1]); none is an exception. -/
def lastNumber (line : List Char) : Option ℚ := (words line).getLast?.bind readDecimal

/-- A throughput is kept when it is positive. -/
def keepPositive (tput : ℚ) : List ℚ := if tput > 0 then [tput] else []

/-- What the loop of collect-tput-stats.py appends to net_tputs. -/
def collectTputStats (file : List Char) : Option (List ℚ) :=
  match readLines file with
  | [] => some []
  | line :: _ => (lastNumber line).map keepPositive

def readAvgLine : List (List Char) → Option (List ℚ)
  | [] => some []
  | line :: rest =>
    if avgLabel.isPrefixOf line then (lastNumber line).map keepPositive else readAvgLine rest

def txCollectTputStats (file : List Char) : Option (List ℚ) := readAvgLine (readLines file)

def vmCollectTputStats (file : List Char) : Option (List ℚ) := readAvgLine (readLines file)

def vmTxCollectTputStats (file : List Char) : Option (List ℚ) := readAvgLine (readLines file)

/-- get_tput_per_run of report-tput-metrics.py on a file that exists. -/
def getTputPerRun (file : List Char) : Option ℚ := (readLines file).getLast?.bind lastNumber

/-- No script fails, and all take this throughput. -/
structure AllTake (file : List Char) (tput : ℚ) : Prop where
  collect : collectTputStats file = some [tput]
  tx : txCollectTputStats file = some [tput]
  vm : vmCollectTputStats file = some [tput]
  vmTx : vmTxCollectTputStats file = some [tput]
  perRun : getTputPerRun file = some tput

/-- The value of the Avg_iperf_tput line, if it has one. -/
def avgTput (samples : String → List ℚ) : Option ℚ :=
  readDecimal (lastTput (period.map fun p => iperfTput (samples p)))

/-- The period whose throughput the report ends with. -/
def lastPeriod (samples : String → List ℚ) : Option String :=
  (period.filter fun p => samples p ≠ []).getLast?

variable {samples : String → List ℚ}

theorem iperf_tput_solid (s : List ℚ) : ∀ c ∈ iperfTput s, isSpace c = false := by
  intro c member
  unfold iperfTput at member
  split at member
  · cases member
  · exact (numeric_char (print_fixed_numeric _ _ _ c member)).2.2

theorem iperf_tput_nil {s : List ℚ} : iperfTput s = [] ↔ s = [] := by
  unfold iperfTput
  split
  · rename_i empty
    exact ⟨fun _ => empty, fun _ => rfl⟩
  · rename_i filled
    constructor
    · intro nothing
      exact absurd nothing (print_fixed_ne_nil _ _ _)
    · intro empty
      exact absurd empty filled

theorem read_iperf_tput {s : List ℚ} (filled : s ≠ []) :
    readDecimal (iperfTput s) = some (rounded 3 (tputOf s)) := by
  unfold iperfTput
  rw [if_neg filled]
  exact read_print_rounded (by decide) _

theorem words_end {tput : List Char} (solid : ∀ c ∈ tput, isSpace c = false) :
    words (tput ++ ['\n']) = if tput = [] then [] else [tput] := by
  by_cases empty : tput = []
  · rw [if_pos empty, empty]
    exact words_space (by decide) []
  · rw [if_neg empty]
    exact words_cons solid empty (by decide) []

theorem periods_solid : period.all (fun p => !p.toList.isEmpty && p.toList.all (!isSpace ·)) = true := by
  decide

theorem labels_solid : "Period".toList.all (!isSpace ·) = true ∧ "tput:".toList.all (!isSpace ·) = true ∧
    avgLabel.all (!isSpace ·) = true := by decide

theorem solid_chars {l : List Char} (solid : l.all (!isSpace ·) = true) :
    ∀ c ∈ l, isSpace c = false := by
  simpa using solid

theorem period_line_eq (p : String) (tput : List Char) : periodLine p tput =
    "Period".toList ++ ' ' :: (p.toList ++ ' ' :: ("tput:".toList ++ ' ' :: tput)) := rfl

theorem words_period_line {p : String} (known : p ∈ period) {tput : List Char}
    (solid : ∀ c ∈ tput, isSpace c = false) : words (periodLine p tput ++ ['\n']) =
      "Period".toList :: p.toList :: "tput:".toList :: if tput = [] then [] else [tput] := by
  have pattern := List.all_eq_true.mp periods_solid p known
  simp only [Bool.and_eq_true, Bool.not_eq_true', List.isEmpty_eq_false_iff] at pattern
  have line : periodLine p tput ++ ['\n'] = "Period".toList ++ ' ' :: (p.toList ++ ' ' ::
      ("tput:".toList ++ ' ' :: (tput ++ ['\n']))) := by
    rw [period_line_eq]
    simp only [List.append_assoc, List.cons_append]
  rw [line, words_cons (solid_chars labels_solid.1) (by decide) (by decide),
    words_cons (solid_chars pattern.2) pattern.1 (by decide),
    words_cons (solid_chars labels_solid.2.1) (by decide) (by decide), words_end solid]

theorem words_avg_line {tput : List Char} (solid : ∀ c ∈ tput, isSpace c = false) :
    words (avgLine tput ++ ['\n']) = avgLabel :: if tput = [] then [] else [tput] := by
  have line : avgLine tput ++ ['\n'] = avgLabel ++ ' ' :: (tput ++ ['\n']) :=
    List.append_assoc avgLabel (' ' :: tput) ['\n']
  rw [line, words_cons (solid_chars labels_solid.2.2) (by decide) (by decide), words_end solid]

theorem labels_no_number : readDecimal "tput:".toList = none ∧ readDecimal avgLabel = none := by
  decide

theorem last_number_period {p : String} (known : p ∈ period) (s : List ℚ) :
    lastNumber (periodLine p (iperfTput s) ++ ['\n']) =
      if s = [] then none else some (rounded 3 (tputOf s)) := by
  unfold lastNumber
  rw [words_period_line known (iperf_tput_solid s)]
  by_cases empty : s = []
  · rw [if_pos (iperf_tput_nil.mpr empty), if_pos empty]
    exact labels_no_number.1
  · rw [if_neg fun nothing => empty (iperf_tput_nil.mp nothing), if_neg empty]
    exact read_iperf_tput empty

theorem last_tput_from (ps : List String) (last : List Char) :
    (ps.map fun p => iperfTput (samples p)).foldl (fun last tput => if tput ≠ [] then tput else last)
      last = match (ps.filter fun p => samples p ≠ []).getLast? with
        | none => last
        | some p => iperfTput (samples p) := by
  induction ps generalizing last with
  | nil => rfl
  | cons p rest ih =>
    rw [List.map_cons, List.foldl_cons, ih]
    by_cases empty : samples p = []
    · rw [if_neg fun some_char => some_char (iperf_tput_nil.mpr empty),
        List.filter_cons_of_neg (by simpa using empty)]
    · rw [if_pos fun nothing => empty (iperf_tput_nil.mp nothing),
        List.filter_cons_of_pos (by simpa using empty), List.getLast?_cons]
      cases (rest.filter fun p => samples p ≠ []).getLast? with
      | none => rfl
      | some q => rfl

theorem last_tput_eq : lastTput (period.map fun p => iperfTput (samples p)) =
    match lastPeriod samples with
      | none => []
      | some p => iperfTput (samples p) :=
  last_tput_from period []

theorem last_period_filled {p : String} (last : lastPeriod samples = some p) : samples p ≠ [] := by
  have member := List.mem_of_getLast? last
  simpa using (List.mem_filter.mp member).2

theorem avg_tput_eq : avgTput samples = (lastPeriod samples).map fun p =>
    rounded 3 (tputOf (samples p)) := by
  unfold avgTput
  rw [last_tput_eq]
  cases last : lastPeriod samples with
  | none => rfl
  | some p => exact read_iperf_tput (last_period_filled last)

theorem last_number_avg :
    lastNumber (avgLine (lastTput (period.map fun p => iperfTput (samples p))) ++ ['\n']) =
      avgTput samples := by
  have solid : ∀ c ∈ lastTput (period.map fun p => iperfTput (samples p)), isSpace c = false := by
    rw [last_tput_eq]
    cases lastPeriod samples with
    | none => exact fun _ member => absurd member List.not_mem_nil
    | some p => exact iperf_tput_solid _
  unfold lastNumber avgTput
  rw [words_avg_line solid]
  by_cases empty : lastTput (period.map fun p => iperfTput (samples p)) = []
  · rw [if_pos empty, empty]
    exact labels_no_number.2
  · rw [if_neg empty]
    rfl

theorem solid_whole {l : List Char} (solid : ∀ c ∈ l, isSpace c = false) : '\n' ∉ l := fun member =>
  absurd (solid '\n' member) (by decide)

theorem period_line_whole {p : String} (known : p ∈ period) (s : List ℚ) :
    '\n' ∉ periodLine p (iperfTput s) := by
  have pattern := List.all_eq_true.mp periods_solid p known
  simp only [Bool.and_eq_true] at pattern
  have name := solid_whole (solid_chars pattern.2)
  have tput := solid_whole (iperf_tput_solid s)
  have period := solid_whole (solid_chars labels_solid.1)
  have label := solid_whole (solid_chars labels_solid.2.1)
  have space : '\n' ≠ ' ' := by decide
  rw [period_line_eq]
  simp only [List.mem_append, List.mem_cons, period, name, label, tput, space, or_self,
    not_false_eq_true]

theorem avg_line_whole :
    '\n' ∉ avgLine (lastTput (period.map fun p => iperfTput (samples p))) := by
  have tput : '\n' ∉ lastTput (period.map fun p => iperfTput (samples p)) := by
    rw [last_tput_eq]
    cases lastPeriod samples with
    | none => exact List.not_mem_nil
    | some p => exact solid_whole (iperf_tput_solid _)
  have label := solid_whole (solid_chars labels_solid.2.2)
  intro member
  rcases List.mem_append.mp member with inside | rest
  · exact label inside
  · cases List.mem_cons.mp rest with
    | inl space => exact absurd space (by decide)
    | inr inside => exact tput inside

theorem read_report : readLines (report samples) =
    (period.map fun p => periodLine p (iperfTput (samples p)) ++ ['\n']) ++
      [avgLine (lastTput (period.map fun p => iperfTput (samples p))) ++ ['\n']] := by
  have whole : ∀ l ∈ reportLines samples, '\n' ∉ l := by
    intro l member
    cases List.mem_append.mp member with
    | inl line =>
      obtain ⟨p, known, rfl⟩ := List.mem_map.mp line
      exact period_line_whole known _
    | inr avg =>
      rw [List.mem_singleton.mp avg]
      exact avg_line_whole
  rw [report, read_write_lines whole]
  simp [reportLines]

theorem collect_reads : collectTputStats (report samples) =
    if samples "0.*-30.*" = [] then none
    else some (keepPositive (rounded 3 (tputOf (samples "0.*-30.*")))) := by
  have first := last_number_period (by decide : "0.*-30.*" ∈ period) (samples "0.*-30.*")
  unfold collectTputStats
  rw [read_report]
  change (lastNumber (periodLine "0.*-30.*" (iperfTput (samples "0.*-30.*")) ++ ['\n'])).map
    keepPositive = _
  rw [first]
  split <;> rfl

theorem read_avg_line_skip {ps : List String} (rest : List (List Char)) :
    readAvgLine ((ps.map fun p => periodLine p (iperfTput (samples p)) ++ ['\n']) ++ rest) =
      readAvgLine rest := by
  induction ps with
  | nil => rfl
  | cons p ps ih =>
    have other : avgLabel.isPrefixOf (periodLine p (iperfTput (samples p)) ++ ['\n']) = false := rfl
    rw [List.map_cons, List.cons_append, readAvgLine, other, if_neg Bool.false_ne_true, ih]

theorem avg_line_reads :
    readAvgLine (readLines (report samples)) = (avgTput samples).map keepPositive := by
  have label : ∀ tput, avgLabel.isPrefixOf (avgLine tput ++ ['\n']) = true := by
    intro tput
    rw [List.isPrefixOf_iff_prefix, avgLine, List.append_assoc]
    exact List.prefix_append _ _
  rw [read_report, read_avg_line_skip, readAvgLine, label, if_pos rfl, last_number_avg]

theorem per_run_reads : getTputPerRun (report samples) = avgTput samples := by
  unfold getTputPerRun
  rw [read_report, List.getLast?_concat]
  exact last_number_avg

theorem keep_positive_iff {tput v : ℚ} : keepPositive tput = [v] ↔ tput = v ∧ 0 < tput := by
  unfold keepPositive
  by_cases positive : tput > 0 <;> simp [positive]

/-- The condition for all scripts to take the average: the first period has samples, and
    their throughput is positive and that of the last period with samples. -/
def FirstIsLast (samples : String → List ℚ) : Prop :=
  samples "0.*-30.*" ≠ [] ∧ ∃ last, lastPeriod samples = some last ∧
    rounded 3 (tputOf (samples "0.*-30.*")) = rounded 3 (tputOf (samples last)) ∧
    0 < rounded 3 (tputOf (samples last))

theorem collectors_agree_iff (samples : String → List ℚ) :
    (∃ tput, avgTput samples = some tput ∧ AllTake (report samples) tput) ↔
      FirstIsLast samples := by
  constructor
  · intro agree
    obtain ⟨tput, avg, takes⟩ := agree
    have collect := takes.collect
    rw [collect_reads] at collect
    rw [avg_tput_eq] at avg
    obtain ⟨last, found, value⟩ := Option.map_eq_some_iff.mp avg
    by_cases empty : samples "0.*-30.*" = []
    · rw [if_pos empty] at collect
      cases collect
    · rw [if_neg empty] at collect
      obtain ⟨same, positive⟩ := keep_positive_iff.mp (Option.some.inj collect)
      refine ⟨empty, last, found, same.trans value.symm, ?_⟩
      rw [value, ← same]
      exact positive
  · intro condition
    obtain ⟨filled, last, found, same, positive⟩ := condition
    have avg : avgTput samples = some (rounded 3 (tputOf (samples last))) := by
      rw [avg_tput_eq, found]
      rfl
    have labelled : readAvgLine (readLines (report samples)) =
        some [rounded 3 (tputOf (samples last))] := by
      rw [avg_line_reads, avg]
      exact congrArg some (keep_positive_iff.mpr ⟨rfl, positive⟩)
    refine ⟨_, avg, ?_, labelled, labelled, labelled, ?_⟩
    · rw [collect_reads, if_neg filled, same]
      exact congrArg some (keep_positive_iff.mpr ⟨rfl, positive⟩)
    · rw [per_run_reads, avg]

/-- Only the second period has a sample, of 9000 Mbit/s. -/
def lateStart (p : String) : List ℚ := if p = "30.*-60.*" then [9000] else []

/-- The first reader takes the empty first period for a number and fails. -/
theorem late_start_fails : (period.filter fun p => lateStart p ≠ []) = ["30.*-60.*"] ∧
    ¬ ∃ tput, avgTput lateStart = some tput ∧ AllTake (report lateStart) tput := by
  constructor
  · decide
  · intro agree
    obtain ⟨_, _, takes⟩ := agree
    have collect := takes.collect
    rw [collect_reads, if_pos (by decide)] at collect
    cases collect

end PeriodReport
