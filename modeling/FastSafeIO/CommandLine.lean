import Mathlib.Data.List.DropRight
import FastSafeIO.WordSearch

/-! parse_iommu_mode of vm_flows_exp.sh and flows_exp.sh: the label of an experiment, from a kernel
command line. -/
namespace CommandLine
open Regex WordSearch

inductive Mode where
  | passthrough
  | off
  | strict
  | lazy
  deriving DecidableEq, Repr

/-- [[:space:]] among the ASCII characters. -/
def isSpace (c : Char) : Bool := c = ' ' || (9 ≤ c.toNat && c.toNat ≤ 13)

abbrev Core := Pattern Char Empty

def word (w : String) : Core := .text w.toList

def oneOf : List String → Core
  | [] => .one fun _ => false
  | [w] => word w
  | w :: ws => .alt (word w) (oneOf ws)

def yes : List String := ["1", "on", "y", "yes", "true"]

def no : List String := ["0", "off", "n", "no", "false"]

/-- name=(1|on|…) -/
def setTo (name : String) (values : List String) : Core :=
  .seq (word name) (oneOf values)

/-- name([^[:space:]]*,)?item([^[:space:]]*) -/
def listed (name item : String) : Core :=
  .seq (word name) (.seq (.maybe (.seq (.many (!isSpace ·)) (word ",")))
    (.seq (word item) (.many (!isSpace ·))))

/-- [[ "$cl" =~ (^|[[:space:]])core($|[[:space:]]) ]] -/
def finds (core : Core) (cl : List Char) : Bool := (search (alone isSpace core) cl).isSome

def modeOf (cl : List Char) : Mode :=
  if finds (.alt (word "iommu=pt") (setTo "iommu.passthrough=" yes)) cl then .passthrough
  else if finds (oneOf ["noiommu", "iommu=off", "intel_iommu=off", "amd_iommu=off"]) cl then .off
  else if finds (setTo "iommu.strict=" yes) cl || finds (listed "intel_iommu=" "strict") cl ||
      finds (listed "amd_iommu=" "strict") cl then .strict
  else if finds (setTo "iommu.strict=" no) cl || finds (listed "intel_iommu=" "nonstrict") cl ||
      finds (listed "amd_iommu=" "nonstrict") cl then .lazy
  else if finds (oneOf ["iommu=on", "intel_iommu=on", "amd_iommu=on"]) cl then .strict
  else .strict

/-- $(…) drops the newlines at the end. -/
def substituted (out : List Char) : List Char := out.rdropWhile (· = '\n')

/-- ${1:-$(</proc/cmdline)} -/
def cmdline (procCmdline arg : List Char) : List Char :=
  if arg = [] then substituted procCmdline else arg

def parseIommuMode (procCmdline arg : List Char) : Mode :=
  modeOf (substituted ((cmdline procCmdline arg).map Char.toLower))

/- The same label read item by item. -/

def HasToken (words : List String) (cl : List Char) : Prop :=
  ∃ t ∈ tokens isSpace cl, ∃ w ∈ words, t = w.toList

def IsSet (name : String) (values : List String) (cl : List Char) : Prop :=
  ∃ t ∈ tokens isSpace cl, ∃ v ∈ values, t = name.toList ++ v.toList

/-- The items of a token name=item,item,… -/
def itemsOf (name : String) (t : List Char) : List (List Char) :=
  if name.toList <+: t then (t.drop name.toList.length).splitOn ',' else []

def HasItem (names : List String) (item : String) (cl : List Char) : Prop :=
  ∃ name ∈ names, ∃ t ∈ tokens isSpace cl, item.toList ∈ itemsOf name t

def vendors : List String := ["intel_iommu=", "amd_iommu="]

def Passthrough (cl : List Char) : Prop :=
  HasToken ["iommu=pt"] cl ∨ IsSet "iommu.passthrough=" yes cl

def Off (cl : List Char) : Prop :=
  HasToken ["noiommu"] cl ∨ HasItem ("iommu=" :: vendors) "off" cl

def Strict (cl : List Char) : Prop := IsSet "iommu.strict=" yes cl ∨ HasItem vendors "strict" cl

def Lazy (cl : List Char) : Prop := IsSet "iommu.strict=" no cl ∨ HasItem vendors "nonstrict" cl

section
variable (cl : List Char)

instance (words : List String) : Decidable (HasToken words cl) :=
  inferInstanceAs (Decidable (∃ t ∈ tokens isSpace cl, ∃ w ∈ words, t = w.toList))

instance (name : String) (values : List String) : Decidable (IsSet name values cl) :=
  inferInstanceAs (Decidable (∃ t ∈ tokens isSpace cl, ∃ v ∈ values, t = name.toList ++ v.toList))

instance (names : List String) (item : String) : Decidable (HasItem names item cl) :=
  inferInstanceAs (Decidable (∃ name ∈ names, ∃ t ∈ tokens isSpace cl, item.toList ∈ itemsOf name t))

instance : Decidable (Passthrough cl) := inferInstanceAs (Decidable (_ ∨ _))

instance : Decidable (Off cl) := inferInstanceAs (Decidable (_ ∨ _))

instance : Decidable (Strict cl) := inferInstanceAs (Decidable (_ ∨ _))

instance : Decidable (Lazy cl) := inferInstanceAs (Decidable (_ ∨ _))

def itemMode : Mode :=
  if Passthrough cl then .passthrough
  else if Off cl then .off
  else if Strict cl then .strict
  else if Lazy cl then .lazy
  else .strict

/-- noiommu, or a list that is nothing but off. -/
def OffAlone : Prop := HasToken ["noiommu", "iommu=off", "intel_iommu=off", "amd_iommu=off"] cl

/-- An item that begins so. -/
def HasItemLike (names : List String) (item : String) : Prop :=
  ∃ name ∈ names, ∃ t ∈ tokens isSpace cl, ∃ i ∈ itemsOf name t, item.toList <+: i

instance : Decidable (OffAlone cl) := inferInstanceAs (Decidable (HasToken _ cl))

instance (names : List String) (item : String) : Decidable (HasItemLike cl names item) :=
  inferInstanceAs (Decidable (∃ name ∈ names, ∃ t ∈ tokens isSpace cl, ∃ i ∈ itemsOf name t,
    item.toList <+: i))

/-- Where the patterns and the items agree: off stands alone in its list, and no item that only
    begins with strict or nonstrict decides. -/
def LabelFits : Prop :=
  Passthrough cl ∨ OffAlone cl ∨ (¬ Off cl ∧ (Strict cl ∨
    (HasItemLike cl vendors "strict" ∧ ¬ Lazy cl) ∨
    (¬ HasItemLike cl vendors "strict" ∧ (Lazy cl ∨ ¬ HasItemLike cl vendors "nonstrict"))))

end

section
variable {cl w t : List Char}

theorem one_of_spans {ws : List String} {first : Bool} :
    Spans (oneOf ws) first w t ↔ ∃ v ∈ ws, w = v.toList := by
  induction ws with
  | nil => simp [oneOf, Spans]
  | cons v ws ih =>
    cases ws with
    | nil => simp [oneOf, word, Spans]
    | cons u us =>
      rw [oneOf, Spans, ih]
      · simp [word, Spans]
      · simp

theorem set_to_spans {name : String} {values : List String} {first : Bool} :
    Spans (setTo name values) first w t ↔ ∃ v ∈ values, w = name.toList ++ v.toList := by
  unfold setTo word Spans
  constructor
  · intro split
    obtain ⟨u, v, rfl, rfl, value⟩ := split
    obtain ⟨x, known, rfl⟩ := one_of_spans.mp value
    exact ⟨x, known, rfl⟩
  · intro known
    obtain ⟨v, member, rfl⟩ := known
    exact ⟨name.toList, v.toList, rfl, rfl, one_of_spans.mpr ⟨v, member, rfl⟩⟩

/-- The pattern of a list finds an item that begins with the word. -/
theorem listed_spans {name item : String} (whole : ',' ∉ item.toList) {first : Bool}
    (solid : ∀ c ∈ w, isSpace c = false) : Spans (listed name item) first w t ↔
      ∃ i ∈ itemsOf name w, item.toList <+: i := by
  unfold listed word Spans itemsOf
  constructor
  · intro split
    obtain ⟨u, v, rfl, rfl, front, back, rfl, before, i, z, rfl, rfl, plain⟩ := split
    rw [if_pos (List.prefix_append _ _), List.drop_left]
    have bounded : Bounded (· == ',') front (z.dropWhile (· ≠ ',')) := by
      constructor
      · intro c last
        rcases before with ⟨a, b, rfl, _, rfl⟩ | rfl
        · rw [List.getLast?_append] at last
          have comma : ',' = c := by simpa using last
          simp [← comma]
        · cases last
      · intro c next
        have comma := List.head?_dropWhile_not (· ≠ ',') z
        rw [Option.mem_def.mp next] at comma
        simpa using comma
    have alone : ∀ c ∈ item.toList ++ z.takeWhile (· ≠ ','), (c == ',') = false := by
      intro c member
      rcases List.mem_append.mp member with mine | more
      · have other : c ≠ ',' := fun same => whole (same ▸ mine)
        simpa using other
      · simpa using List.mem_takeWhile_imp more
    have member := split_bounded alone bounded
    rw [List.append_assoc, List.takeWhile_append_dropWhile] at member
    exact ⟨_, member, List.prefix_append _ _⟩
  · intro found
    obtain ⟨i, member, begins⟩ := found
    split at member
    · rename_i named
      obtain ⟨v, rfl⟩ := named
      obtain ⟨z, rfl⟩ := begins
      rw [List.drop_left] at member
      obtain ⟨_, x, y, rfl, bounded⟩ := bounded_split member
      refine ⟨name.toList, _, rfl, rfl, x, item.toList ++ (z ++ y), by simp, ?_, item.toList, z ++ y,
        rfl, rfl, ?_⟩
      · rcases List.eq_nil_or_concat' x with rfl | ⟨a, c, rfl⟩
        · exact Or.inr rfl
        · have comma : c = ',' := by simpa using bounded.before c (by simp)
          refine Or.inl ⟨a, [','], by rw [comma], ?_, rfl⟩
          intro d inside
          have spaceless := solid d (by simp [inside])
          simp [spaceless]
      · intro d inside
        have spaceless := solid d (by
          rcases List.mem_append.mp inside with left | right
          · simp [left]
          · simp [right])
        simp [spaceless]
    · cases member

/-- Words that can be tokens. -/
def solidWords (ws : List String) : Bool :=
  ws.all fun w => !w.toList.isEmpty && w.toList.all (!isSpace ·)

theorem solid_word {ws : List String} (solid : solidWords ws = true) {v : String}
    (member : v ∈ ws) : v.toList ≠ [] ∧ ∀ c ∈ v.toList, isSpace c = false := by
  have both := List.all_eq_true.mp solid v member
  simpa using both

theorem finds_token {ws : List String} (solid : solidWords ws = true) (cl : List Char) :
    finds (oneOf ws) cl = true ↔ HasToken ws cl := by
  apply search_alone_iff
  · intro first w t
    exact one_of_spans
  · intro w known
    obtain ⟨v, member, rfl⟩ := known
    exact solid_word solid member

theorem finds_set {name : String} {values : List String} (solid : solidWords (name :: values) = true)
    (cl : List Char) : finds (setTo name values) cl = true ↔ IsSet name values cl := by
  apply search_alone_iff
  · intro first w t
    exact set_to_spans
  · intro w known
    obtain ⟨v, member, rfl⟩ := known
    obtain ⟨some_char, plain⟩ := solid_word solid List.mem_cons_self
    have value := (solid_word solid (List.mem_cons_of_mem name member)).2
    constructor
    · simp [some_char]
    · intro c inside
      rcases List.mem_append.mp inside with left | right
      · exact plain c left
      · exact value c right

theorem listed_solid {name item : String} (plain : ∀ c ∈ name.toList, isSpace c = false)
    (spaceless : ∀ c ∈ item.toList, isSpace c = false) {first : Bool}
    (spans : Spans (listed name item) first w t) : ∀ c ∈ w, isSpace c = false := by
  obtain ⟨u, v, rfl, rfl, front, back, rfl, before, i, z, rfl, rfl, rest⟩ := spans
  intro c inside
  simp only [List.mem_append] at inside
  rcases inside with mine | early | mine | late
  · exact plain c mine
  · rcases before with ⟨a, b, rfl, open_part, rfl⟩ | rfl
    · rcases List.mem_append.mp early with left | comma
      · simpa using open_part c left
      · rw [List.mem_singleton.mp comma]
        decide
    · cases early
  · exact spaceless c mine
  · simpa using rest c late

theorem finds_listed {name item : String} (solid : solidWords [name, item] = true)
    (whole : ',' ∉ item.toList) (cl : List Char) : finds (listed name item) cl = true ↔
      ∃ t ∈ tokens isSpace cl, ∃ i ∈ itemsOf name t, item.toList <+: i := by
  obtain ⟨some_char, plain⟩ := solid_word solid List.mem_cons_self
  obtain ⟨_, spaceless⟩ := solid_word solid (List.mem_cons_of_mem name List.mem_cons_self)
  have found : finds (listed name item) cl = true ↔ ∃ w ∈ tokens isSpace cl,
      (∀ c ∈ w, isSpace c = false) ∧ ∃ i ∈ itemsOf name w, item.toList <+: i := by
    apply search_alone_iff
    · intro first w t
      constructor
      · intro spans
        have alone := listed_solid plain spaceless spans
        exact ⟨alone, (listed_spans whole alone).mp spans⟩
      · intro known
        exact (listed_spans whole known.1).mpr known.2
    · intro w known
      obtain ⟨alone, i, member, _⟩ := known
      constructor
      · intro empty
        rw [empty, itemsOf, if_neg (by simpa using some_char)] at member
        cases member
      · exact alone
  rw [found]
  constructor
  · intro known
    obtain ⟨w, member, _, item⟩ := known
    exact ⟨w, member, item⟩
  · intro known
    obtain ⟨w, member, item⟩ := known
    exact ⟨w, member, (token_solid member).2, item⟩

theorem finds_passthrough (cl : List Char) :
    finds (.alt (word "iommu=pt") (setTo "iommu.passthrough=" yes)) cl = true ↔ Passthrough cl := by
  have found : finds (.alt (word "iommu=pt") (setTo "iommu.passthrough=" yes)) cl = true ↔
      ∃ w ∈ tokens isSpace cl, w = "iommu=pt".toList ∨
        ∃ v ∈ yes, w = "iommu.passthrough=".toList ++ v.toList := by
    apply search_alone_iff
    · intro first w t
      exact or_congr_right set_to_spans
    · intro w known
      rcases known with rfl | ⟨v, member, rfl⟩
      · have solid : solidWords ["iommu=pt"] = true := by decide
        exact solid_word solid List.mem_cons_self
      · have all : ∀ v ∈ yes, ("iommu.passthrough=".toList ++ v.toList).all (!isSpace ·) = true := by
          decide
        constructor
        · simp
        · simpa using all v member
  rw [found]
  simp [Passthrough, HasToken, IsSet, and_or_left, exists_or]

theorem tokens_substituted (l : List Char) : tokens isSpace (substituted l) = tokens isSpace l := by
  induction l using List.reverseRecOn with
  | nil => rfl
  | append_singleton l c ih =>
    unfold substituted at ih ⊢
    by_cases newline : c = '\n'
    · rw [List.rdropWhile_concat_pos _ _ _ (by simpa using newline), ih, newline,
        tokens_snoc (by decide)]
    · rw [List.rdropWhile_concat_neg _ _ _ (by simpa using newline)]

theorem off_alone_is_off (cl : List Char) (alone : OffAlone cl) : Off cl := by
  obtain ⟨t, member, w, known, rfl⟩ := alone
  have listed : ∀ w ∈ ["noiommu", "iommu=off", "intel_iommu=off", "amd_iommu=off"], w = "noiommu" ∨
      ∃ name ∈ "iommu=" :: vendors, "off".toList ∈ itemsOf name w.toList := by
    decide
  rcases listed w known with rfl | ⟨name, some_name, item⟩
  · exact Or.inl ⟨_, member, "noiommu", List.mem_cons_self, rfl⟩
  · exact Or.inr ⟨name, some_name, _, member, item⟩

theorem item_like {names : List String} {item : String} (exact_item : HasItem names item cl) :
    HasItemLike cl names item := by
  obtain ⟨name, known, t, member, inside⟩ := exact_item
  exact ⟨name, known, t, member, _, inside, List.prefix_rfl⟩

theorem like_vendors (item : String) (cl : List Char) : HasItemLike cl vendors item ↔
    (∃ t ∈ tokens isSpace cl, ∃ i ∈ itemsOf "intel_iommu=" t, item.toList <+: i) ∨
    ∃ t ∈ tokens isSpace cl, ∃ i ∈ itemsOf "amd_iommu=" t, item.toList <+: i := by
  simp [HasItemLike, vendors]

theorem mode_of_eq (cl : List Char) : modeOf cl =
      if Passthrough cl then .passthrough
      else if OffAlone cl then .off
      else if IsSet "iommu.strict=" yes cl ∨ HasItemLike cl vendors "strict" then .strict
      else if IsSet "iommu.strict=" no cl ∨ HasItemLike cl vendors "nonstrict" then .lazy
      else .strict := by
  have words : solidWords ["noiommu", "iommu=off", "intel_iommu=off", "amd_iommu=off"] = true := by
    decide
  have truthy : solidWords ("iommu.strict=" :: yes) = true := by decide
  have falsy : solidWords ("iommu.strict=" :: no) = true := by decide
  have off := finds_token words cl
  have strictSet := finds_set truthy cl
  have lazySet := finds_set falsy cl
  have listed : ∀ name ∈ vendors, ∀ item ∈ ["strict", "nonstrict"],
      solidWords [name, item] = true ∧ ',' ∉ item.toList := by decide
  have found : ∀ name ∈ vendors, ∀ item ∈ ["strict", "nonstrict"],
      (finds (CommandLine.listed name item) cl = true ↔
        ∃ t ∈ tokens isSpace cl, ∃ i ∈ itemsOf name t, item.toList <+: i) := by
    intro name known item either
    obtain ⟨solid, whole⟩ := listed name known item either
    exact finds_listed solid whole cl
  have like : ∀ item ∈ ["strict", "nonstrict"],
      (finds (CommandLine.listed "intel_iommu=" item) cl ||
        finds (CommandLine.listed "amd_iommu=" item) cl) = true ↔ HasItemLike cl vendors item := by
    intro item either
    rw [Bool.or_eq_true, found _ (by decide) item either, found _ (by decide) item either,
      like_vendors]
  unfold modeOf
  simp only [finds_passthrough, off, Bool.or_assoc, Bool.or_eq_true (finds (setTo _ _) _), strictSet,
    lazySet, like "strict" (by decide), like "nonstrict" (by decide), ite_self]
  rfl

theorem mode_fits_iff (cl : List Char) : modeOf cl = itemMode cl ↔ LabelFits cl := by
  have off := off_alone_is_off cl
  have strict : Strict cl → IsSet "iommu.strict=" yes cl ∨ HasItemLike cl vendors "strict" :=
    Or.imp_right item_like
  have lazy : Lazy cl → IsSet "iommu.strict=" no cl ∨ HasItemLike cl vendors "nonstrict" :=
    Or.imp_right item_like
  have set : IsSet "iommu.strict=" yes cl → Strict cl := Or.inl
  have unset : IsSet "iommu.strict=" no cl → Lazy cl := Or.inl
  rw [mode_of_eq]
  unfold itemMode LabelFits
  by_cases pass : Passthrough cl
  · simp [pass]
  · by_cases alone : OffAlone cl
    · simp [pass, alone, off alone]
    · by_cases item : Off cl
      · -- off among other items: the code goes on to the next patterns
        simp only [pass, alone, item, if_true, if_false, not_true_eq_false, false_and, or_false, iff_false]
        split
        · simp
        · split <;> simp
      · by_cases isStrict : Strict cl
        · simp [pass, alone, item, isStrict, strict isStrict]
        · by_cases like : HasItemLike cl vendors "strict"
          · by_cases isLazy : Lazy cl
            · simp [pass, alone, item, isStrict, like, isLazy]
            · simp [pass, alone, item, isStrict, like, isLazy]
          · have notStrict : ¬ IsSet "iommu.strict=" yes cl := fun isSet => isStrict (set isSet)
            by_cases isLazy : Lazy cl
            · simp [pass, alone, item, isStrict, notStrict, like, isLazy, lazy isLazy]
            · have notSet : ¬ IsSet "iommu.strict=" no cl := fun isSet => isLazy (unset isSet)
              by_cases likeLazy : HasItemLike cl vendors "nonstrict"
              · simp [pass, alone, item, isStrict, notStrict, like, isLazy, likeLazy]
              · simp [pass, alone, item, isStrict, notStrict, like, isLazy, likeLazy, notSet]

/-- The label depends on the tokens alone. -/
theorem label_congr {a b : List Char} (same : tokens isSpace a = tokens isSpace b) :
    itemMode a = itemMode b ∧ (LabelFits a ↔ LabelFits b) := by
  have pass : Passthrough a ↔ Passthrough b := by simp only [Passthrough, HasToken, IsSet, same]
  have off : Off a ↔ Off b := by simp only [Off, HasToken, HasItem, same]
  have strict : Strict a ↔ Strict b := by simp only [Strict, IsSet, HasItem, same]
  have lazy : Lazy a ↔ Lazy b := by simp only [Lazy, IsSet, HasItem, same]
  constructor
  · unfold itemMode
    exact if_congr pass rfl (if_congr off rfl (if_congr strict rfl (if_congr lazy rfl rfl)))
  · simp only [LabelFits, pass, off, strict, lazy, OffAlone, HasItemLike, HasToken, same]

/-- The mode is the one that the options say item by item, in lower case, just when the patterns
    see the deciding items. -/
theorem label_follows_items_iff (procCmdline arg : List Char) :
    parseIommuMode procCmdline arg = itemMode ((cmdline procCmdline arg).map Char.toLower) ↔
      LabelFits ((cmdline procCmdline arg).map Char.toLower) := by
  have same := tokens_substituted ((cmdline procCmdline arg).map Char.toLower)
  obtain ⟨mode, fits⟩ := label_congr same
  rw [← mode, ← fits]
  exact mode_fits_iff _

/-- intel_iommu=on,off turns the IOMMU off, and the pattern for off does not look into lists. -/
theorem off_in_list_missed :
    parseIommuMode [] "root=/dev/sda1 intel_iommu=on,off".toList = .strict ∧
    itemMode ("root=/dev/sda1 intel_iommu=on,off".toList.map Char.toLower) = .off := by
  decide +kernel

end
end CommandLine
