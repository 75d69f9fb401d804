import FastSafeIO.TcpTokens
import Mathlib.Data.List.Forall2

/-! When the table of a tcp_probe trace says what the lines say. -/
namespace TcpTable
open TextTables UnicodeText PythonInts WordSearch TcpTrace TcpTokens

section
variable {u : Unicode}

/-- The ends are IPv4, and where the task's name starts like one of the values that are looked for,
it reads as the line's own value. -/
structure Readable (p : Probe u) : Prop where
  v4 : ∀ e : End, getVal e.key [p.task] = none → (p.ends e).family = .v4
  sameEnd : ∀ (e : End) (val : List Char), getVal e.key [p.task] = some val →
    readEndpoint val = some ((p.ends e).ip, ((p.ends e).port : Int))
  sameField : ∀ (k : Field) (val : List Char), getVal k.key [p.task] = some val →
    ∃ n, p.fields k = some n ∧ int0 val = some n.value

/-- The record of a line that is read right. -/
def recordOf (p : Probe u) : Record :=
  (.timeS, .float (toDouble p.time.value)) ::
    ([End.src, End.dest].flatMap (fun e =>
      [(.ip e, .text (p.ends e).ip), (.port e, .int (p.ends e).port)]) ++
    allFields.filterMap fun k => (p.fields k).map fun n => (.field k, .int n.value))

theorem time_token (p : Probe u) : (p.time.text ++ [':']).rdropWhile (· = ':') = p.time.text := by
  rw [List.rdropWhile_concat_pos _ _ _ (by simp), List.rdropWhile_eq_self_iff]
  intro some_char colon
  have last := (unsigned_chars p.time.reads).2 _ (List.getLast_mem some_char)
  rw [of_decide_eq_true colon] at last
  exact absurd last (by decide)

theorem read_line (p : Probe u) : readRecord u (p.text ++ ['\n']) =
    (readEnds p.tokens [.src, .dest]).bind fun ends =>
      (readFields p.tokens allFields).map fun fields =>
        (.timeS, .float (toDouble p.time.value)) :: (ends ++ fields) := by
  have third : p.tokens[3]? = some (p.time.text ++ [':']) := rfl
  unfold readRecord
  rw [tokens_line]
  dsimp only
  rw [third]
  simp only [Option.bind_eq_bind, Option.bind_some, time_token, read_float_number, Option.pure_def,
    Option.map_eq_bind]
  rfl

theorem ends_read {tokens : List (List Char)} {f : End → List Char × Int} (ends : List End)
    (known : ∀ e, ∃ val, getVal e.key tokens = some val ∧ readEndpoint val = some (f e)) :
    readEnds tokens ends = some (ends.flatMap fun e =>
      [(.ip e, .text (f e).1), (.port e, .int (f e).2)]) := by
  induction ends with
  | nil => rfl
  | cons e ends ih =>
    obtain ⟨val, value, address⟩ := known e
    have some_char : val ≠ [] := by
      intro empty
      rw [empty] at address
      cases address
    rw [readEnds, value]
    dsimp only
    rw [if_neg some_char, address, ih]
    rfl

theorem fields_read {tokens : List (List Char)} {f : Field → Option Int} (fields : List Field)
    (known : ∀ k, (getVal k.key tokens = none ∧ f k = none) ∨
      ∃ val n, getVal k.key tokens = some val ∧ int0 val = some n ∧ f k = some n) :
    readFields tokens fields = some (fields.filterMap fun k =>
      (f k).map fun n => (.field k, .int n)) := by
  induction fields with
  | nil => rfl
  | cons k fields ih =>
    rcases known k with ⟨missing, none⟩ | ⟨val, n, value, number, own⟩
    · rw [readFields, missing, List.filterMap_cons_none (by rw [none]; rfl)]
      exact ih
    · rw [readFields, value, List.filterMap_cons_some (by rw [own]; rfl)]
      dsimp only
      rw [number, ih]
      rfl

theorem readable_end {p : Probe u} (readable : Readable p) (e : End) :
    ∃ val, getVal e.key p.tokens = some val ∧
      readEndpoint val = some ((p.ends e).ip, ((p.ends e).port : Int)) := by
  rw [get_end]
  cases task : getVal e.key [p.task] with
  | none => exact ⟨_, rfl, (end_read_iff _).mpr (readable.v4 e task)⟩
  | some val => exact ⟨val, rfl, readable.sameEnd e val task⟩

theorem readable_field {p : Probe u} (readable : Readable p) (k : Field) :
    (getVal k.key p.tokens = none ∧ (p.fields k).map Whole.value = none) ∨
      ∃ val n, getVal k.key p.tokens = some val ∧ int0 val = some n ∧
        (p.fields k).map Whole.value = some n := by
  rw [get_field]
  cases task : getVal k.key [p.task] with
  | some val =>
    obtain ⟨n, own, number⟩ := readable.sameField k val task
    exact Or.inr ⟨val, n.value, rfl, number, by rw [own]; rfl⟩
  | none =>
    cases own : p.fields k with
    | none => exact Or.inl ⟨rfl, rfl⟩
    | some n => exact Or.inr ⟨n.text, n.value, rfl, whole_read n, rfl⟩

theorem readable_record {p : Probe u} (readable : Readable p) :
    readRecord u (p.text ++ ['\n']) = some (recordOf p) := by
  have ends := ends_read [End.src, End.dest] (readable_end readable)
  have fields := fields_read allFields (readable_field readable)
  rw [read_line, ends, fields]
  simp only [Option.bind_some, Option.map_some, Option.map_map]
  rfl

/-- The cell of a record under a column. -/
def str (repr : ℚ → List Char) (r : Record) (c : Column) : List Char :=
  (r.lookup c).elim [] (Value.str repr)

theorem record_parts {p : Probe u} {r : Record} (read : readRecord u (p.text ++ ['\n']) = some r) :
    ∃ ends fields, readEnds p.tokens [.src, .dest] = some ends ∧
      readFields p.tokens allFields = some fields ∧
      r = (.timeS, .float (toDouble p.time.value)) :: (ends ++ fields) := by
  rw [read_line] at read
  obtain ⟨ends, first, read⟩ := Option.bind_eq_some_iff.mp read
  obtain ⟨fields, later, same⟩ := Option.map_eq_some_iff.mp read
  exact ⟨ends, fields, first, later, same.symm⟩

theorem every_field (k : Field) : k ∈ allFields := by
  cases k <;> decide

theorem record_field {p : Probe u} {r : Record} (read : readRecord u (p.text ++ ['\n']) = some r)
    (k : Field) : (getVal k.key p.tokens = none ∧ r.lookup (.field k) = none) ∨
      ∃ val n, getVal k.key p.tokens = some val ∧ int0 val = some n ∧
        r.lookup (.field k) = some (.int n) := by
  obtain ⟨ends, fields, first, later, rfl⟩ := record_parts read
  have inside : List.lookup (.field k) ((Column.timeS, Value.float (toDouble p.time.value)) ::
      (ends ++ fields)) = fields.lookup (.field k) := by
    rw [lookup_other (by simp), List.lookup_append, no_field_end first]
    rfl
  rw [inside]
  rcases field_of_record later k with ⟨none, absent⟩ | stored
  · exact Or.inl ⟨absent (every_field k), none⟩
  · exact Or.inr stored

theorem record_end {p : Probe u} {r : Record} (read : readRecord u (p.text ++ ['\n']) = some r)
    {e : End} {v : Value} (found : r.lookup (.ip e) = some v) :
    ∃ a, (getVal e.key p.tokens).bind readEndpoint = some a ∧ v = .text a.1 ∧
      r.lookup (.port e) = some (.int a.2) := by
  obtain ⟨ends, fields, first, later, rfl⟩ := record_parts read
  have ip : ends.lookup (.ip e) = some v := by
    rw [lookup_other (by simp), List.lookup_append, only_fields later (by simp), Option.or_none] at found
    exact found
  obtain ⟨a, address, text, port⟩ := end_of_record first ip
  refine ⟨a, address, text, ?_⟩
  rw [lookup_other (by simp), List.lookup_append, port]
  rfl

/-- A record whose cells are those of the line is read right. -/
theorem readable_of_cells {repr : ℚ → List Char} {p : Probe u} {r : Record}
    (read : readRecord u (p.text ++ ['\n']) = some r)
    (cells : ∀ c, str repr r c = p.cell repr c) : Readable p := by
  have address : ∀ e : End, (getVal e.key p.tokens).bind readEndpoint =
      some ((p.ends e).ip, ((p.ends e).port : Int)) := by
    intro e
    have ip := cells (.ip e)
    have port := cells (.port e)
    unfold str at ip port
    cases found : r.lookup (.ip e) with
    | none =>
      rw [found] at ip
      exact absurd ip.symm (p.ends e).some_char
    | some v =>
      obtain ⟨a, known, rfl, number⟩ := record_end read found
      rw [found] at ip
      rw [number] at port
      have text : a.1 = (p.ends e).ip := ip
      have digits : a.2 = ((p.ends e).port : Int) := print_int_inj port
      rw [known, ← text, ← digits]
  constructor
  · intro e task
    have own := address e
    rw [get_end, task] at own
    exact (end_read_iff _).mp own
  · intro e val task
    have own := address e
    rw [get_end, task] at own
    exact own
  · intro k val task
    have cell := cells (.field k)
    unfold str at cell
    rcases record_field read k with ⟨missing, _⟩ | ⟨val', n, value, number, stored⟩
    · rw [get_field, task] at missing
      cases missing
    · rw [get_field, task] at value
      obtain rfl : val = val' := Option.some.inj value
      rw [stored] at cell
      cases own : p.fields k with
      | none =>
        rw [Probe.cell, own] at cell
        exact absurd cell (print_int_ne_nil n)
      | some m =>
        rw [Probe.cell, own] at cell
        have same : n = m.value := print_int_inj cell
        exact ⟨m, rfl, by rw [number, same]⟩

theorem lookup_fields (f : Field → Option Whole) (fields : List Field) (k : Field) :
    (fields.filterMap fun k => (f k).map fun n => ((.field k, .int n.value) : Column × Value)).lookup
      (.field k) = if k ∈ fields then (f k).map (.int ·.value) else none := by
  induction fields with
  | nil => rfl
  | cons k' fields ih =>
    by_cases here : k = k'
    · subst here
      rw [if_pos List.mem_cons_self]
      cases own : f k with
      | none =>
        rw [List.filterMap_cons_none (by rw [own]; rfl), ih, own]
        split <;> rfl
      | some n =>
        rw [List.filterMap_cons_some (by rw [own]; rfl), List.lookup_cons_self]
        rfl
    · have member : k ∈ k' :: fields ↔ k ∈ fields := by simp [here]
      rw [if_congr member rfl rfl, ← ih]
      cases other : f k' with
      | none => rw [List.filterMap_cons_none (by rw [other]; rfl)]
      | some n =>
        rw [List.filterMap_cons_some (by rw [other]; rfl), lookup_other (by simpa using here)]

theorem record_cells (repr : ℚ → List Char) (p : Probe u) (c : Column) :
    str repr (recordOf p) c = p.cell repr c := by
  cases c with
  | timeS => rfl
  | ip e =>
    cases e with
    | src => rfl
    | dest => rfl
  | port e =>
    cases e with
    | src => rfl
    | dest => rfl
  | field k =>
    have stored : (recordOf p).lookup (.field k) = (p.fields k).map (.int ·.value) := by
      unfold recordOf
      rw [lookup_other (by simp), List.lookup_append, lookup_fields, if_pos (every_field k)]
      rfl
    have cell : p.cell repr (.field k) = (p.fields k).elim [] fun n => printInt n.value := rfl
    unfold str
    rw [stored, cell]
    cases p.fields k with
    | none => rfl
    | some n => rfl

theorem record_keys (p : Probe u) (k : Field) :
    .field k ∈ (recordOf p).map Prod.fst ↔ (p.fields k).isSome = true := by
  unfold recordOf
  simp [Option.isSome_iff_exists, every_field]

theorem common_keys {p q : Probe u} (fields : ∀ k, (p.fields k).isSome = true → (q.fields k).isSome = true) :
    ∀ e ∈ recordOf p, e.1 ∈ (recordOf q).map Prod.fst := by
  intro e member
  cases key : e.1 with
  | timeS => exact List.mem_cons_self
  | ip s =>
    cases s with
    | src => simp [recordOf]
    | dest => simp [recordOf]
  | port s =>
    cases s with
    | src => simp [recordOf]
    | dest => simp [recordOf]
  | field k =>
    have own : .field k ∈ (recordOf p).map Prod.fst := key ▸ List.mem_map_of_mem member
    exact (record_keys q k).mpr (fields k ((record_keys p k).mp own))

theorem zip_lookup (columns : List Column) (f : Column → List Char) (c : Column) :
    (columns.zip (columns.map f)).lookup c = if c ∈ columns then some (f c) else none := by
  induction columns with
  | nil => rfl
  | cons d columns ih =>
    rw [List.map_cons, List.zip_cons_cons, List.lookup_cons]
    by_cases here : c = d
    · subst here
      simp
    · rw [beq_false_of_ne here, ih]
      exact if_congr (by simp [here]) rfl rfl

theorem cell_of_row (repr : ℚ → List Char) {columns : List Column} {r : Record}
    (known : ∀ e ∈ r, e.1 ∈ columns) (c : Column) :
    cellOf columns (columns.map (str repr r)) c = str repr r c := by
  unfold cellOf
  rw [zip_lookup]
  split
  · rfl
  · rename_i outside
    have absent : r.lookup c = none := by
      apply List.lookup_eq_none_iff.mpr
      intro e member
      have inside := known e member
      rw [bne_iff_ne]
      intro same
      exact outside (same ▸ inside)
    unfold str
    rw [absent]
    rfl

theorem write_row_eq (repr : ℚ → List Char) {columns : List Column} {r : Record}
    (known : ∀ e ∈ r, e.1 ∈ columns) :
    writeRow repr columns r = some (columns.map (str repr r)) := by
  unfold writeRow
  rw [if_pos known]
  rfl

theorem rows_written {α : Type} (repr : ℚ → List Char) {columns : List Column} {xs : List α}
    {records : List Record} {Q : α → Record → Prop} {R : α → List (List Char) → Prop}
    (read : List.Forall₂ Q xs records)
    (rows : List.Forall₂ R xs (writeRows repr columns records).1) :
    List.Forall₂ (fun x r => Q x r ∧ (∀ e ∈ r, e.1 ∈ columns) ∧ R x (columns.map (str repr r)))
      xs records := by
  induction read with
  | nil => exact .nil
  | @cons x r xs records first later ih =>
    unfold writeRows at rows
    by_cases known : ∀ e ∈ r, e.1 ∈ columns
    · rw [write_row_eq repr known] at rows
      cases rows with
      | cons row rest => exact .cons ⟨first, known, row⟩ (ih rest)
    · have stop : writeRow repr columns r = none := if_neg known
      rw [stop] at rows
      cases rows

theorem all_written (repr : ℚ → List Char) {columns : List Column} {records : List Record}
    (known : ∀ r ∈ records, ∀ e ∈ r, e.1 ∈ columns) :
    writeRows repr columns records = (records.map fun r => columns.map (str repr r), false) := by
  induction records with
  | nil => rfl
  | cons r records ih =>
    rw [writeRows, write_row_eq repr (known r List.mem_cons_self),
      ih fun s member => known s (List.mem_cons_of_mem r member)]
    rfl

theorem traverse_iff {α β : Type} (f : α → Option β) (xs : List α) (ys : List β) :
    xs.mapM f = some ys ↔ List.Forall₂ (fun x y => f x = some y) xs ys := by
  induction xs generalizing ys with
  | nil => cases ys <;> simp
  | cons x xs ih =>
    rw [List.mapM_cons]
    cases first : f x with
    | none => cases ys <;> simp [first]
    | some y =>
      cases rest : xs.mapM f with
      | none =>
        cases ys with
        | nil => simp
        | cons z ys => simp [← ih, rest]
      | some later =>
        cases ys with
        | nil => simp
        | cons z ys => simp [first, ← ih, rest]

theorem same_newlines {l : List Char} (none : '\r' ∉ l) : universalNewlines l = l := by
  induction l with
  | nil => rfl
  | cons c l ih =>
    have other : c ≠ '\r' := fun same => none (same ▸ List.mem_cons_self)
    rw [universalNewlines, if_neg other, ih fun member => none (List.mem_cons_of_mem c member)]
    intro _ same
    exact absurd same other

/-- No character of a line ends it. -/
def InLine (l : List Char) : Prop := ∀ c ∈ l, c ≠ '\n' ∧ c ≠ '\r'

theorem in_line_append {l m : List Char} (left : InLine l) (right : InLine m) : InLine (l ++ m) :=
  List.forall_mem_append.mpr ⟨left, right⟩

theorem in_line_word {w : List Char} (word : Word u w) : InLine w := by
  intro c member
  have solid := word.solid c member
  constructor
  · intro newline
    rw [newline] at solid
    cases solid
  · intro back
    rw [back] at solid
    cases solid

theorem in_line_spread {gap : Nat → List Char} (blank : ∀ i, gap i ≠ [] ∧ Inline u (gap i))
    {ws : List (List Char)} (words : ∀ w ∈ ws, Word u w) : InLine (spread gap ws) := by
  induction ws generalizing gap with
  | nil =>
    intro c member
    cases member
  | cons w ws ih =>
    have later := ih (fun i => blank (i + 1)) fun v member => words v (List.mem_cons_of_mem w member)
    apply in_line_append fun c member => ((blank 0).2 c member).2
    exact in_line_append (in_line_word (words w List.mem_cons_self)) later

theorem in_line_probe (p : Probe u) : InLine p.text := by
  have words : ∀ w ∈ p.tokens.tail, Word u w := fun w member => all_words p w (List.mem_of_mem_tail member)
  unfold Probe.text
  apply in_line_append fun c member => (p.leadBlank c member).2
  apply in_line_append (in_line_word (task_word p))
  apply in_line_append (in_line_spread p.gapBlank words)
  intro c member
  exact (p.trailBlank c member).2

theorem in_line (line : Line u) : InLine line.text := by
  cases line with
  | probe p => exact in_line_probe p
  | other line whole leftOut =>
    intro c member
    constructor
    · intro newline
      exact whole.1 (newline ▸ member)
    · intro back
      exact whole.2 (back ▸ member)

theorem read_lines (t : Trace u) :
    readLines (universalNewlines t.text) = t.lines.map fun line => line.text ++ ['\n'] := by
  have none : '\r' ∉ t.text := by
    intro member
    obtain ⟨l, some_line, inside⟩ := List.mem_flatMap.mp member
    obtain ⟨line, _, rfl⟩ := List.mem_map.mp some_line
    rcases List.mem_append.mp inside with mine | newline
    · exact (in_line line _ mine).2 rfl
    · exact absurd (List.mem_singleton.mp newline) (by decide)
  have whole : ∀ l ∈ t.lines.map Line.text, '\n' ∉ l := by
    intro l some_line member
    obtain ⟨line, _, rfl⟩ := List.mem_map.mp some_line
    exact (in_line line _ member).1 rfl
  rw [same_newlines none, Trace.text, read_write_lines whole, List.map_map]
  rfl

theorem kept_lines (lines : List (Line u)) :
    (lines.map fun line => line.text ++ ['\n']).filter (!skipped ·) =
      (probesOf lines).map fun p => p.text ++ ['\n'] := by
  induction lines with
  | nil => rfl
  | cons line lines ih =>
    cases line with
    | probe p =>
      have kept : (!skipped (p.text ++ ['\n'])) = true := by rw [line_kept]; rfl
      have probes : probesOf (.probe p :: lines) = p :: probesOf lines := rfl
      rw [List.map_cons, Line.text, List.filter_cons, if_pos kept, ih, probes, List.map_cons]
    | other line whole leftOut =>
      have gone : ¬ (!skipped (line ++ ['\n'])) = true := by rw [leftOut]; decide
      have probes : probesOf (.other line whole leftOut :: lines) = probesOf lines := rfl
      rw [List.map_cons, Line.text, List.filter_cons, if_neg gone, ih, probes]

theorem records_iff (t : Trace u) (records : List Record) :
    readRecords u t.text = some records ↔
      List.Forall₂ (fun p r => readRecord u (p.text ++ ['\n']) = some r) t.probes records := by
  unfold readRecords
  rw [read_lines, kept_lines, traverse_iff, List.forall₂_map_left_iff]
  rfl

theorem parse_eq (repr : ℚ → List Char) (t : Trace u) {first : Record} {records : List Record}
    (read : readRecords u t.text = some (first :: records)) :
    parseTcplog repr u t.text = some ⟨first.map Prod.fst,
      (writeRows repr (first.map Prod.fst) (first :: records)).1,
      (writeRows repr (first.map Prod.fst) (first :: records)).2⟩ := by
  unfold parseTcplog
  rw [read]
  rfl

/-- In a lossless table every line is readable and has all its keys among the columns. -/
theorem lossless_parts {repr : ℚ → List Char} {t : Trace u}
    (lossless : Lossless repr t (parseTcplog repr u t.text)) : ∃ columns,
      (∀ first ∈ t.probes.head?, columns = (recordOf first).map Prod.fst) ∧
      ∀ p ∈ t.probes, Readable p ∧ ∀ e ∈ recordOf p, e.1 ∈ columns := by
  obtain ⟨csv, parsed, rows⟩ := lossless
  obtain ⟨records, read, _⟩ := Option.bind_eq_some_iff.mp parsed
  have lines := (records_iff t records).mp read
  cases records with
  | nil => exact absurd (List.forall₂_nil_right_iff.mp lines) t.some_probe
  | cons r records =>
    rw [parse_eq repr t read] at parsed
    obtain rfl := Option.some.inj parsed
    have written := rows_written repr lines rows
    have parts : List.Forall₂ (fun p s => (Readable p ∧ ∀ e ∈ recordOf p, e.1 ∈ r.map Prod.fst) ∧
        s = recordOf p) t.probes (r :: records) := by
      apply written.imp
      intro p s known
      obtain ⟨line, keys, cells⟩ := known
      have readable : Readable p :=
        readable_of_cells line fun c => (cell_of_row repr keys c).symm.trans (cells c)
      have same : s = recordOf p := by
        rw [readable_record readable] at line
        exact (Option.some.inj line).symm
      exact ⟨⟨readable, same ▸ keys⟩, same⟩
    obtain ⟨known, same⟩ := (List.forall₂_and_left _ _).mp parts
    refine ⟨r.map Prod.fst, ?_, known⟩
    intro first head
    obtain ⟨probes, all⟩ := List.head?_eq_some_iff.mp head
    rw [all] at same
    cases same with
    | cons here rest => rw [here]

/-- The table of readable lines whose keys are those of the first. -/
theorem lossless_of_parts (repr : ℚ → List Char) {t : Trace u} {first : Probe u}
    (head : first ∈ t.probes.head?) (readable : ∀ p ∈ t.probes, Readable p)
    (keys : ∀ p ∈ t.probes, ∀ e ∈ recordOf p, e.1 ∈ (recordOf first).map Prod.fst) :
    Lossless repr t (parseTcplog repr u t.text) := by
  obtain ⟨probes, all⟩ := List.head?_eq_some_iff.mp head
  have read : readRecords u t.text = some (t.probes.map recordOf) := by
    apply (records_iff t _).mpr
    rw [List.forall₂_map_right_iff, List.forall₂_same]
    intro p member
    exact readable_record (readable p member)
  have known : ∀ r ∈ t.probes.map recordOf, ∀ e ∈ r, e.1 ∈ (recordOf first).map Prod.fst := by
    intro r member
    obtain ⟨p, inside, rfl⟩ := List.mem_map.mp member
    exact keys p inside
  have cons : t.probes.map recordOf = recordOf first :: probes.map recordOf := by
    rw [all, List.map_cons]
  have parsed := parse_eq repr t (read.trans (congrArg some cons))
  rw [← cons, all_written repr known, List.map_map] at parsed
  refine ⟨_, parsed, ?_⟩
  rw [List.forall₂_map_right_iff, List.forall₂_same]
  intro p member c
  exact (cell_of_row repr (keys p member) c).trans (record_cells repr p c)

/-- With a task's name that starts like none of the values, the address families decide. -/
theorem plain_task_iff {p : Probe u} (plainEnd : ∀ e : End, getVal e.key [p.task] = none)
    (plainField : ∀ k : Field, getVal k.key [p.task] = none) :
    Readable p ↔ ∀ e, (p.ends e).family = .v4 := by
  constructor
  · intro readable e
    exact readable.v4 e (plainEnd e)
  · intro v4
    constructor
    · intro e _
      exact v4 e
    · intro e val task
      rw [plainEnd e] at task
      cases task
    · intro k val task
      rw [plainField k] at task
      cases task

/-- The table says what the lines say exactly if each line is readable and no line has a field
that the first has not. -/
theorem lossless_iff (u : Unicode) (repr : ℚ → List Char) (t : Trace u) :
    Lossless repr t (parseTcplog repr u t.text) ↔
      (∀ p ∈ t.probes, Readable p) ∧ ∀ first ∈ t.probes.head?, ∀ p ∈ t.probes, ∀ k,
        (p.fields k).isSome = true → (first.fields k).isSome = true := by
  constructor
  · intro lossless
    obtain ⟨columns, fixed, parts⟩ := lossless_parts lossless
    constructor
    · intro p member
      exact (parts p member).1
    · intro first head p member k present
      obtain ⟨e, inside, key⟩ := List.mem_map.mp ((record_keys p k).mpr present)
      have column := (parts p member).2 e inside
      rw [key, fixed first head] at column
      exact (record_keys first k).mp column
  · intro known
    obtain ⟨readable, fields⟩ := known
    obtain ⟨first, probes, all⟩ := List.exists_cons_of_ne_nil t.some_probe
    have head : first ∈ t.probes.head? := by
      unfold Trace.probes
      rw [all]
      rfl
    apply lossless_of_parts repr head readable
    intro p member
    exact common_keys (fields first head p member)

end

theorem word_all {u : Unicode} {w : List Char} (some_char : w ≠ [])
    (all : w.all (!u.isSpace ·) = true) : Word u w := by
  constructor
  · exact some_char
  · simpa using all

theorem inline_all {u : Unicode} {gap : List Char}
    (all : gap.all (fun c => u.isSpace c && (c ≠ '\n' && c ≠ '\r')) = true) : Inline u gap := by
  simpa [Inline] using all

def loopback (port : Nat) : Endpoint :=
  ⟨.v6, "::1".toList, port, by decide, List.all_eq_true.mp (by decide)⟩

/-- src=[::1]:5201 dest=[::1]:40312 srtt=70 -/
def v6Probe : Probe ascii where
  lead := "  ".toList
  comm := "iperf3".toList
  pid := 411
  cpu := "[004]".toList
  flags := "..s1.".toList
  time := ⟨"52.25".toList, 5225 / 100, by decide +kernel⟩
  words := ["src=[::1]:5201".toList, "dest=[::1]:40312".toList, "srtt=70".toList]
  ends := fun e => loopback (if e = .src then 5201 else 40312)
  fields := fun k => if k = .srtt then some (.decimal 70) else none
  gap := fun _ => " ".toList
  trail := []
  leadBlank := inline_all (by decide)
  trailBlank := inline_all (by decide)
  gapBlank := fun _ => ⟨by decide, inline_all (by decide)⟩
  commSolid := (word_all (by decide) (by decide) : Word ascii "iperf3".toList).solid
  cpuWord := ⟨word_all (by decide) (by decide), by decide⟩
  flagsWord := ⟨word_all (by decide) (by decide), by decide⟩
  wordsSolid := by
    intro w member
    simp only [List.mem_cons, List.not_mem_nil, or_false] at member
    rcases member with rfl | rfl | rfl
    · exact word_all (by decide) (by decide)
    · exact word_all (by decide) (by decide)
    · exact word_all (by decide) (by decide)
  uncommented := by decide
  printedEnds := by
    intro e
    cases e <;> decide
  printedFields := by
    intro k
    cases k <;> decide

def v6Trace : Trace ascii := ⟨[.probe v6Probe], by decide⟩

/-- The bracket after the address stays, so no table of this trace is lossless. -/
theorem bracket_kept :
    (readRecords ascii v6Trace.text).map (·.map (·.lookup (.ip .src))) =
      some [some (.text "::1]".toList)] ∧
    ¬ ∃ repr, Lossless repr v6Trace (parseTcplog repr ascii v6Trace.text) := by
  constructor
  · rfl
  · intro known
    obtain ⟨repr, lossless⟩ := known
    obtain ⟨columns, _, parts⟩ := lossless_parts lossless
    have family := (parts v6Probe List.mem_cons_self).1.v4 .src (by decide)
    cases family

end TcpTable
