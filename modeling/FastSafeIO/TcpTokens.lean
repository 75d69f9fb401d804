import FastSafeIO.TcpTrace

/-! What the record of one tcp_probe line holds. -/
namespace TcpTokens
open Regex TextTables UnicodeText PythonInts WordSearch TcpTrace

section
variable {u : Unicode}

theorem spread_head {gap : Nat → List Char} (blank : ∀ i, gap i ≠ [] ∧ Inline u (gap i))
    (ws : List (List Char)) {l : List Char} (ends : ∀ c ∈ l.head?, u.isSpace c = true) :
    ∀ c ∈ (spread gap ws ++ l).head?, u.isSpace c = true := by
  cases ws with
  | nil => exact ends
  | cons w ws =>
    rw [spread, List.append_assoc]
    exact head_of_append (blank 0).1 (fun c member => ((blank 0).2 c member).1) _

theorem tokens_spread {gap : Nat → List Char} (blank : ∀ i, gap i ≠ [] ∧ Inline u (gap i))
    {ws : List (List Char)} (words : ∀ w ∈ ws, Word u w) {l : List Char}
    (spaces : ∀ c ∈ l, u.isSpace c = true) : tokens u.isSpace (spread gap ws ++ l) = ws := by
  induction ws generalizing gap with
  | nil =>
    have none := tokens_blank spaces []
    rw [List.append_nil] at none
    exact none
  | cons w ws ih =>
    have word := words w List.mem_cons_self
    have later := ih (fun i => blank (i + 1)) fun v member => words v (List.mem_cons_of_mem w member)
    have next := spread_head (fun i => blank (i + 1)) ws
      (fun c first => spaces c (List.mem_of_mem_head? first))
    rw [spread, List.append_assoc, List.append_assoc,
      tokens_blank fun c member => ((blank 0).2 c member).1,
      tokens_word word.solid word.some_char next, later]

end

section
variable {u : Unicode} (p : Probe u)

theorem task_word : Word u p.task := by
  constructor
  · simp [Probe.task]
  · intro c member
    rcases List.mem_append.mp member with inside | inside
    · exact p.commSolid c inside
    · rcases List.mem_cons.mp inside with rfl | digit
      · rfl
      · exact digit_no_space u (print_nat_digits p.pid c digit)

theorem time_word : Word u (p.time.text ++ [':']) := by
  constructor
  · simp
  · intro c member
    rcases List.mem_append.mp member with inside | colon
    · exact number_no_space u p.time c inside
    · rw [List.mem_singleton.mp colon]
      rfl

theorem event_word (u : Unicode) : Word u "tcp_probe:".toList := by
  constructor
  · decide
  · intro c member
    have letter : c = 't' ∨ c = 'c' ∨ c = 'p' ∨ c = '_' ∨ c = 'r' ∨ c = 'o' ∨ c = 'b' ∨ c = 'e' ∨
        c = ':' := by
      simp at member
      tauto
    rcases letter with rfl | rfl | rfl | rfl | rfl | rfl | rfl | rfl | rfl <;> rfl

theorem all_words : ∀ w ∈ p.tokens, Word u w := by
  intro w member
  simp only [Probe.tokens, List.mem_cons] at member
  rcases member with rfl | rfl | rfl | rfl | rfl | inside
  · exact task_word p
  · exact p.cpuWord.1
  · exact p.flagsWord.1
  · exact time_word p
  · exact event_word u
  · exact p.wordsSolid w inside

theorem tokens_line : tokens u.isSpace (p.text ++ ['\n']) = p.tokens := by
  have spaces : ∀ c ∈ p.trail ++ ['\n'], u.isSpace c = true := by
    intro c member
    rcases List.mem_append.mp member with inside | newline
    · exact (p.trailBlank c inside).1
    · rw [List.mem_singleton.mp newline]
      rfl
  have task := task_word p
  have next := spread_head p.gapBlank p.tokens.tail
    (fun c first => spaces c (List.mem_of_mem_head? first))
  have later := tokens_spread p.gapBlank (fun w member => all_words p w (List.mem_of_mem_tail member))
    spaces
  unfold Probe.text
  simp only [List.append_assoc]
  rw [tokens_blank fun c member => (p.leadBlank c member).1, tokens_word task.solid task.some_char next,
    later]
  rfl

theorem spread_infix {gap : Nat → List Char} {ws : List (List Char)} {w : List Char} (member : w ∈ ws) :
    w <:+: spread gap ws := by
  induction ws generalizing gap with
  | nil => cases member
  | cons v ws ih =>
    rw [spread]
    rcases List.mem_cons.mp member with rfl | inside
    · exact ⟨gap 0, _, (List.append_assoc _ _ _)⟩
    · exact (ih inside).trans ((List.suffix_append _ _).trans (List.suffix_append _ _)).isInfix

theorem line_event : "tcp_probe:".toList <:+: p.text ++ ['\n'] := by
  have word : "tcp_probe:".toList <:+: spread p.gap p.tokens.tail :=
    spread_infix (by simp [Probe.tokens])
  have inside : spread p.gap p.tokens.tail <:+: p.text ++ ['\n'] :=
    ⟨p.lead ++ p.task, p.trail ++ ['\n'], by simp only [Probe.text, List.append_assoc]⟩
  exact word.trans inside

theorem line_head : ∀ c ∈ p.text.head?, c ≠ '#' := by
  intro c first
  cases lead : p.lead with
  | nil =>
    cases comm : p.comm with
    | nil =>
      have minus : '-' = c := by simpa [Probe.text, Probe.task, lead, comm] using first
      rw [← minus]
      decide
    | cons d comm' =>
      have same : d = c := by simpa [Probe.text, Probe.task, lead, comm] using first
      exact p.uncommented lead c (by rw [comm, ← same]; rfl)
  | cons d lead' =>
    have same : d = c := by simpa [Probe.text, lead] using first
    have space := (p.leadBlank d (by rw [lead]; exact List.mem_cons_self)).1
    intro comment
    rw [same, comment] at space
    cases space

theorem line_kept : skipped (p.text ++ ['\n']) = false := by
  have uncommented : ['#'].isPrefixOf (p.text ++ ['\n']) = false := by
    have head := line_head p
    cases text : p.text with
    | nil => rfl
    | cons c rest =>
      have other : c ≠ '#' := head c (by rw [text]; rfl)
      simp [List.isPrefixOf, other.symm]
  unfold skipped
  rw [uncommented, decide_eq_true (line_event p)]
  rfl

theorem starts_equals {key w : List Char} (starts : startsWith key w = true) : '=' ∈ w := by
  have inside := (List.isPrefixOf_iff_prefix.mp starts).subset
  exact inside (List.mem_append_right key (List.mem_singleton_self '='))

theorem time_plain : '=' ∉ p.time.text ++ [':'] := by
  intro member
  rcases List.mem_append.mp member with inside | colon
  · exact absurd ((unsigned_chars p.time.reads).2 _ inside) (by decide)
  · exact absurd (List.mem_singleton.mp colon) (by decide)

theorem named_value {key : List Char} (plain : '=' ∉ key) (value : List Char) :
    ((named key value).dropWhile (· ≠ '=')).tail = value := by
  have before : ∀ c ∈ key, decide (c ≠ '=') = true := by
    intro c member
    apply decide_eq_true
    intro same
    exact plain (same ▸ member)
  unfold named
  rw [List.dropWhile_append_of_pos before, List.dropWhile_cons_of_neg (by decide), List.tail_cons]

/-- A key is looked up in the task's name before the words that are printed for it. -/
theorem get_val_line {key : List Char} (plain : '=' ∉ key) {own : Option (List Char)}
    (printed : p.words.filter (startsWith key) = own.toList.map (named key)) :
    getVal key p.tokens = (getVal key [p.task]).or own := by
  unfold getVal Probe.tokens
  rw [List.find?_cons, List.find?_singleton]
  cases task : startsWith key p.task with
  | true => simp
  | false =>
    have event : '=' ∉ "tcp_probe:".toList := by decide
    have unlike : ∀ {w : List Char}, '=' ∉ w → ¬ startsWith key w = true := by
      intro w plain starts
      exact plain (starts_equals starts)
    rw [if_neg Bool.false_ne_true, List.find?_cons_of_neg (unlike p.cpuWord.2),
      List.find?_cons_of_neg (unlike p.flagsWord.2), List.find?_cons_of_neg (unlike (time_plain p)),
      List.find?_cons_of_neg (unlike event), ← List.head?_filter, printed]
    cases own with
    | none => rfl
    | some value => exact congrArg some (named_value plain value)

theorem get_end (e : End) :
    getVal e.key p.tokens = (getVal e.key [p.task]).or (some (p.ends e).text) := by
  have plain : '=' ∉ e.key := by
    cases e <;> decide
  exact get_val_line p plain (p.printedEnds e)

theorem get_field (k : Field) :
    getVal k.key p.tokens = (getVal k.key [p.task]).or ((p.fields k).map Whole.text) := by
  have plain : '=' ∉ k.key := by
    cases k <;> decide
  apply get_val_line p plain
  rw [p.printedFields k]
  cases p.fields k with
  | none => rfl
  | some n => rfl

end
section
variable {l x digits : List Char} {n : Nat}

theorem strip_brackets (first : ∀ c ∈ l.head?, isBracket c = false)
    (last : ∀ c ∈ l.getLast?, isBracket c = false) : stripBrackets l = l := by
  have front : l.dropWhile isBracket = l := by
    cases l with
    | nil => rfl
    | cons c l => rw [List.dropWhile_cons_of_neg (by simp [first c rfl])]
  unfold stripBrackets
  rw [front, List.rdropWhile_eq_self_iff]
  intro some_char bracket
  rw [last _ (List.getLast?_eq_some_getLast some_char)] at bracket
  cases bracket

theorem split_port (colonless : ':' ∉ digits) : splitPort (x ++ ':' :: digits) = some (x, digits) := by
  have back : ∀ c ∈ digits.reverse, decide (c ≠ ':') = true := by
    intro c member
    apply decide_eq_true
    intro same
    exact colonless (same ▸ List.mem_reverse.mp member)
  have turned : (x ++ ':' :: digits).reverse = digits.reverse ++ ':' :: x.reverse := by simp
  have colon : ':' ∈ x ++ ':' :: digits := List.mem_append_right x List.mem_cons_self
  unfold splitPort List.rdropWhile List.rtakeWhile
  rw [if_pos colon, turned, List.dropWhile_append_of_pos back, List.dropWhile_cons_of_neg (by decide),
    List.takeWhile_append_of_pos back, List.takeWhile_cons_of_neg (by decide)]
  simp

theorem port_colonless (n : Nat) : ':' ∉ printNat n := fun member =>
  absurd (print_nat_digits n _ member) (by decide)

theorem port_last (l : List Char) (n : Nat) :
    ∀ c ∈ (l ++ printNat n).getLast?, isBracket c = false := by
  intro c last
  rw [List.getLast?_append_of_ne_nil _ (print_nat_ne_nil n)] at last
  have digit := print_nat_digits n c (List.mem_of_mem_getLast? last)
  have range := digit_range digit
  cases bracket : isBracket c with
  | false => rfl
  | true =>
    have known : c = '[' ∨ c = ']' := by simpa [isBracket] using bracket
    rcases known with rfl | rfl
    · exact absurd digit (by decide)
    · exact absurd digit (by decide)

theorem read_endpoint (first : ∀ c ∈ (x ++ ':' :: printNat n).head?, isBracket c = false) :
    readEndpoint (x ++ ':' :: printNat n) = some (x, (n : Int)) := by
  have last := port_last (x ++ [':']) n
  rw [List.append_assoc, List.singleton_append] at last
  unfold readEndpoint
  rw [strip_brackets first last, split_port (port_colonless n)]
  simp [int10_print]

theorem address_no_bracket (e : Endpoint) : ∀ c ∈ e.ip, isBracket c = false := by
  intro c member
  have inside := e.chars c member
  cases bracket : isBracket c with
  | false => rfl
  | true =>
    have known : c = '[' ∨ c = ']' := by simpa [isBracket] using bracket
    cases family : e.family with
    | v4 =>
      rw [family] at inside
      rcases known with rfl | rfl
      · cases inside
      · cases inside
    | v6 =>
      rw [family] at inside
      rcases known with rfl | rfl
      · cases inside
      · cases inside

theorem read_v4 {e : Endpoint} (v4 : e.family = .v4) :
    readEndpoint e.text = some (e.ip, (e.port : Int)) := by
  have text : e.text = e.ip ++ ':' :: printNat e.port := by
    unfold Endpoint.text
    rw [v4]
  rw [text]
  exact read_endpoint (head_of_append e.some_char (address_no_bracket e) _)

/-- Of the brackets around an address the first is stripped only. -/
theorem read_v6 {e : Endpoint} (v6 : e.family = .v6) :
    readEndpoint e.text = some (e.ip ++ [']'], (e.port : Int)) := by
  have text : e.text = '[' :: ((e.ip ++ [']']) ++ ':' :: printNat e.port) := by
    unfold Endpoint.text
    rw [v6]
    simp
  have first := head_of_append e.some_char (address_no_bracket e) ([']'] ++ ':' :: printNat e.port)
  rw [← List.append_assoc] at first
  have bare := read_endpoint first
  rw [text, ← bare]
  rfl

end
theorem end_read_iff (e : Endpoint) :
    readEndpoint e.text = some (e.ip, (e.port : Int)) ↔ e.family = .v4 := by
  cases family : e.family with
  | v4 => simp [read_v4 family]
  | v6 => simp [read_v6 family]

theorem whole_read (n : Whole) : int0 n.text = some n.value := by
  cases n with
  | decimal n => exact int0_print n
  | hex n => exact int0_hex n

section
variable {tokens : List (List Char)} {r : Record}

theorem lookup_other {c d : Column} (other : c ≠ d) (v : Value) (r : Record) :
    ((d, v) :: r).lookup c = r.lookup c := by
  rw [List.lookup_cons, beq_false_of_ne other]

theorem ends_cases {e : End} {ends : List End} (read : readEnds tokens (e :: ends) = some r) :
    r = [] ∨ ∃ a later, (getVal e.key tokens).bind readEndpoint = some a ∧
      readEnds tokens ends = some later ∧ r = (.ip e, .text a.1) :: (.port e, .int a.2) :: later := by
  unfold readEnds at read
  cases value : getVal e.key tokens with
  | none =>
    rw [value] at read
    exact Or.inl (Option.some.inj read).symm
  | some val =>
    rw [value] at read
    dsimp only at read
    split at read
    · exact Or.inl (Option.some.inj read).symm
    · obtain ⟨a, address, read⟩ := Option.bind_eq_some_iff.mp read
      obtain ⟨later, rest, same⟩ := Option.bind_eq_some_iff.mp read
      exact Or.inr ⟨a, later, address, rest, (Option.some.inj same).symm⟩

theorem end_of_record {ends : List End} (read : readEnds tokens ends = some r) {e : End} {v : Value}
    (found : r.lookup (.ip e) = some v) : ∃ a, (getVal e.key tokens).bind readEndpoint = some a ∧
      v = .text a.1 ∧ r.lookup (.port e) = some (.int a.2) := by
  induction ends generalizing r with
  | nil =>
    obtain rfl := Option.some.inj read
    cases found
  | cons e' ends ih =>
    rcases ends_cases read with rfl | ⟨a, later, address, rest, rfl⟩
    · cases found
    · by_cases here : e = e'
      · subst here
        rw [List.lookup_cons_self] at found
        rw [lookup_other (by simp), List.lookup_cons_self]
        exact ⟨a, address, (Option.some.inj found).symm, rfl⟩
      · rw [lookup_other (by simpa using here), lookup_other (by simp)] at found
        rw [lookup_other (by simp), lookup_other (by simpa using here)]
        exact ih rest found

theorem no_field_end {ends : List End} (read : readEnds tokens ends = some r) (k : Field) :
    r.lookup (.field k) = none := by
  induction ends generalizing r with
  | nil =>
    obtain rfl := Option.some.inj read
    rfl
  | cons e ends ih =>
    rcases ends_cases read with rfl | ⟨a, later, address, rest, rfl⟩
    · rfl
    · rw [lookup_other (by simp), lookup_other (by simp), ih rest]

theorem fields_cases {k : Field} {fields : List Field}
    (read : readFields tokens (k :: fields) = some r) :
    (getVal k.key tokens = none ∧ readFields tokens fields = some r) ∨
      ∃ val n later, getVal k.key tokens = some val ∧ int0 val = some n ∧
        readFields tokens fields = some later ∧ r = (.field k, .int n) :: later := by
  unfold readFields at read
  cases value : getVal k.key tokens with
  | none =>
    rw [value] at read
    exact Or.inl ⟨rfl, read⟩
  | some val =>
    rw [value] at read
    obtain ⟨n, number, read⟩ := Option.bind_eq_some_iff.mp read
    obtain ⟨later, rest, same⟩ := Option.bind_eq_some_iff.mp read
    exact Or.inr ⟨val, n, later, rfl, number, rest, (Option.some.inj same).symm⟩

theorem only_fields {fields : List Field} (read : readFields tokens fields = some r) {c : Column}
    (other : ∀ k, c ≠ .field k) : r.lookup c = none := by
  induction fields generalizing r with
  | nil =>
    obtain rfl := Option.some.inj read
    rfl
  | cons k fields ih =>
    rcases fields_cases read with ⟨_, rest⟩ | ⟨val, n, later, _, _, rest, rfl⟩
    · exact ih rest
    · rw [lookup_other (other k), ih rest]

theorem field_of_record {fields : List Field} (read : readFields tokens fields = some r) (k : Field) :
    (r.lookup (.field k) = none ∧ (k ∈ fields → getVal k.key tokens = none)) ∨
      ∃ val n, getVal k.key tokens = some val ∧ int0 val = some n ∧
        r.lookup (.field k) = some (.int n) := by
  induction fields generalizing r with
  | nil =>
    obtain rfl := Option.some.inj read
    exact Or.inl ⟨rfl, fun member => absurd member List.not_mem_nil⟩
  | cons k' fields ih =>
    rcases fields_cases read with ⟨missing, rest⟩ | ⟨val, n, later, value, number, rest, rfl⟩
    · rcases ih rest with ⟨none, absent⟩ | stored
      · left
        constructor
        · exact none
        · intro member
          rcases List.mem_cons.mp member with rfl | inside
          · exact missing
          · exact absent inside
      · exact Or.inr stored
    · by_cases here : k = k'
      · subst here
        exact Or.inr ⟨val, n, value, number, List.lookup_cons_self⟩
      · rw [lookup_other (by simpa using here)]
        rcases ih rest with ⟨none, absent⟩ | stored
        · left
          constructor
          · exact none
          · intro member
            exact absent (List.mem_of_ne_of_mem here member)
        · exact Or.inr stored

end

end TcpTokens
