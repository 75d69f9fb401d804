import FastSafeIO.ViewFrames

/- What the batched driver is for: every posted WQE has a batch of 64 pages behind 64
   consecutive IOVA pages, and no two batches share a page or an address. -/
namespace BatchTable
open KernelCalls IommuWorld IovaOwnership UserViews ViewFrames

structure Batch where
  base : Nat
  page : Nat → Page
  positive : base ≠ 0
  aligned : base % PAGE_SIZE = 0
  fits : base + PAGE_SIZE * 64 ≤ 2 ^ 64
  distinct : ∀ i < 64, ∀ j < 64, page i = page j → i = j

def Batch.range (b : Batch) : Range := ⟨b.base, PAGE_SIZE * 64⟩

def Batch.addr (b : Batch) (i : Nat) : Nat := b.base + i * 4096

structure Batch.Apart (b c : Batch) : Prop where
  ranges : b.range.Disjoint c.range
  pages : ∀ i < 64, ∀ j < 64, b.page i ≠ c.page j

theorem apart_symm {b c : Batch} (apart : b.Apart c) : c.Apart b :=
  ⟨disjoint_symm apart.ranges, fun i below j under same => apart.pages j under i below same.symm⟩

/- The batches of one queue, by WQE. -/
abbrev Table : Type := Nat → Option Batch

def Table.set (t : Table) (ix : Nat) (entry : Option Batch) : Table := Function.update t ix entry

/- The queues post and retire whole batches. A new batch is apart from all that are posted. -/
inductive TableStep : (Nat → Table) → (Nat → Table) → Prop where
  | post {tables : Nat → Table} {u ix : Nat} {b : Batch} (free : tables u ix = none)
      (apart : ∀ v jx c, tables v jx = some c → b.Apart c) :
      TableStep tables (Function.update tables u ((tables u).set ix (some b)))
  | retire {tables : Nat → Table} {u ix : Nat} :
      TableStep tables (Function.update tables u ((tables u).set ix none))

def noBatches : Nat → Table := fun _ _ => none

theorem set_some {t : Table} {ix jx : Nat} {entry : Option Batch} {c : Batch}
    (here : t.set ix entry jx = some c) : (jx = ix ∧ entry = some c) ∨ (jx ≠ ix ∧ t jx = some c) := by
  by_cases same : jx = ix
  · subst same
    exact Or.inl ⟨rfl, by simpa [Table.set] using here⟩
  · exact Or.inr ⟨same, by simpa [Table.set, Function.update_of_ne same] using here⟩

theorem set_none_iff {t : Table} {ix jx : Nat} {c : Batch} :
    t.set ix none jx = some c ↔ jx ≠ ix ∧ t jx = some c := by
  constructor
  · intro there
    rcases set_some there with ⟨_, impossible⟩ | found
    · cases impossible
    · exact found
  · rintro ⟨different, there⟩
    simpa [Table.set, Function.update_of_ne different] using there

theorem set_free_iff {t : Table} {ix jx : Nat} {b c : Batch} (free : t ix = none) :
    t.set ix (some b) jx = some c ↔ (jx = ix ∧ b = c) ∨ t jx = some c := by
  constructor
  · intro there
    rcases set_some there with ⟨same, new⟩ | ⟨_, found⟩
    · exact Or.inl ⟨same, Option.some.inj new⟩
    · exact Or.inr found
  · rintro (⟨rfl, rfl⟩ | there)
    · simp [Table.set]
    · have old : jx ≠ ix := by
        rintro rfl
        rw [free] at there
        cases there
      simpa [Table.set, Function.update_of_ne old] using there

theorem tables_set {tables : Nat → Table} {u ix v jx : Nat} {entry : Option Batch} {c : Batch}
    (here : Function.update tables u ((tables u).set ix entry) v jx = some c) :
    ((v, jx) = (u, ix) ∧ entry = some c) ∨ ((v, jx) ≠ (u, ix) ∧ tables v jx = some c) := by
  by_cases same : v = u
  · subst same
    rw [Function.update_self] at here
    rcases set_some here with ⟨rfl, found⟩ | ⟨other, found⟩
    · exact Or.inl ⟨rfl, found⟩
    · exact Or.inr ⟨fun equal => other (Prod.mk.inj equal).2, found⟩
  · rw [Function.update_of_ne same] at here
    exact Or.inr ⟨fun equal => same (Prod.mk.inj equal).1, here⟩

def AllApart (tables : Nat → Table) : Prop :=
  ∀ u ix b v jx c, tables u ix = some b → tables v jx = some c → (u, ix) ≠ (v, jx) → b.Apart c

/-- Posted batches are apart, whoever posted them. -/
theorem posted_apart {tables : Nat → Table} (run : Relation.ReflTransGen TableStep noBatches tables) :
    AllApart tables := by
  induction run with
  | refl =>
    intro u ix b v jx c first
    cases first
  | tail _ step ih =>
    intro u ix b v jx c first second different
    cases step with
    | post free apart =>
      rcases tables_set first with ⟨one, new⟩ | ⟨_, before⟩
      · cases new
        rcases tables_set second with ⟨two, _⟩ | ⟨_, old⟩
        · exact absurd (one.trans two.symm) different
        · exact apart v jx c old
      · rcases tables_set second with ⟨_, new⟩ | ⟨_, old⟩
        · cases new
          exact apart_symm (apart u ix b before)
        · exact ih u ix b v jx c before old different
    | retire =>
      rcases tables_set first with ⟨_, impossible⟩ | ⟨_, before⟩
      · cases impossible
      · rcases tables_set second with ⟨_, impossible⟩ | ⟨_, old⟩
        · cases impossible
        · exact ih u ix b v jx c before old different

/- A batch in the making or in the taking: pages k to i are there, and all before i are
   mapped. -/
structure Part (base : Nat) (pages : Nat → Page) (k i : Nat) (v : UserView) : Prop where
  page : ∀ p a, v.page p = some a ↔ ∃ j, k ≤ j ∧ j < i ∧ pages j = p ∧ base + j * 4096 = a
  range : ∀ r, v.range r ↔ r = ⟨base, PAGE_SIZE * 64⟩
  pt : ∀ x frame, v.pt x = some frame ↔ ∃ j < i, x = base / PAGE_SIZE + j ∧ frame = (pages j).pfn
  cache : v.cache = []

abbrev Whole (b : Batch) (v : UserView) : Prop := Part b.base b.page 0 64 v

/- What a queue with this table sees. -/
structure Shows (t : Table) (v : UserView) : Prop where
  page : ∀ p a, v.page p = some a ↔ ∃ ix b i, t ix = some b ∧ i < 64 ∧ b.page i = p ∧ b.addr i = a
  range : ∀ r, v.range r ↔ ∃ ix b, t ix = some b ∧ r = b.range
  pt : ∀ x frame, v.pt x = some frame ↔
    ∃ ix b i, t ix = some b ∧ i < 64 ∧ x = b.base / PAGE_SIZE + i ∧ frame = (b.page i).pfn
  apart : ∀ ix jx b c, t ix = some b → t jx = some c → ix ≠ jx → b.Apart c

theorem batch_has {b : Batch} {x : Nat} :
    b.range.Has x ↔ ∃ i < 64, x = b.base / PAGE_SIZE + i := by
  simp only [Range.Has, Batch.range, PAGE_SIZE]
  constructor
  · intro inside
    exact ⟨x - b.base / 4096, by omega, by omega⟩
  · rintro ⟨i, below, rfl⟩
    omega

theorem batch_nonempty (b : Batch) : 0 < b.range.size / PAGE_SIZE :=
  show 0 < PAGE_SIZE * 64 / PAGE_SIZE by decide

def Batch.Holds (b : Batch) (p : Page) : Prop := ∃ i < 64, b.page i = p

instance (b : Batch) (p : Page) : Decidable (b.Holds p) :=
  inferInstanceAs (Decidable (∃ i < 64, b.page i = p))

/- A view without a batch. -/
def Batch.others (b : Batch) (v : UserView) : UserView where
  page p := if b.Holds p then none else v.page p
  range r := v.range r ∧ r ≠ b.range
  pt x := if b.range.Has x then none else v.pt x
  cache := []

/- The part of a view that a batch takes up. -/
def Batch.part (b : Batch) (v : UserView) : UserView where
  page p := if b.Holds p then v.page p else none
  range r := r = b.range
  pt x := if b.range.Has x then v.pt x else none
  cache := []

section
variable {t : Table} {v m f : UserView} {b : Batch} {ix : Nat}

theorem shows_page (seen : Shows t v) (here : t ix = some b) {i : Nat} (below : i < 64) :
    v.page (b.page i) = some (b.addr i) :=
  (seen.page _ _).mpr ⟨ix, b, i, here, below, rfl, rfl⟩

theorem shows_entry (seen : Shows t v) (here : t ix = some b) {i : Nat} (below : i < 64) :
    v.pt (b.base / PAGE_SIZE + i) = some (b.page i).pfn :=
  (seen.pt _ _).mpr ⟨ix, b, i, here, below, rfl, rfl⟩

theorem part_beside (seen : Shows t v) (empty : v.cache = []) (here : t ix = some b) :
    Beside (b.part v) (b.others v) v := by
  have other : ∀ {s}, (b.others v).range s → ∃ jx c, t jx = some c ∧ ix ≠ jx ∧ s = c.range := by
    rintro s ⟨had, different⟩
    obtain ⟨jx, c, there, rfl⟩ := (seen.range s).mp had
    refine ⟨jx, c, there, fun same => different ?_, rfl⟩
    subst same
    rw [here] at there
    cases there
    rfl
  refine ⟨fun p => ?_, fun p mine => ?_, fun r => ?_, ?_, ?_, fun x => ?_, fun x there => ?_,
    fun x there => ?_, empty⟩
  · by_cases holds : b.Holds p <;> simp [Batch.part, Batch.others, holds]
  · by_cases holds : b.Holds p
    · simp [Batch.others, holds]
    · simp [Batch.part, holds] at mine
  · simp only [Batch.part, Batch.others]
    constructor
    · intro had
      by_cases same : r = b.range
      · exact Or.inl same
      · exact Or.inr ⟨had, same⟩
    · rintro (rfl | ⟨had, _⟩)
      · exact (seen.range _).mpr ⟨ix, b, here, rfl⟩
      · exact had
  · rintro r s rfl had
    obtain ⟨jx, c, there, different, rfl⟩ := other had
    exact (seen.apart ix jx b c here there different).ranges
  · rintro r rfl
    exact batch_nonempty b
  · by_cases inside : b.range.Has x <;> simp [Batch.part, Batch.others, inside]
  · by_cases inside : b.range.Has x
    · simp [Batch.others, inside] at there
    · simp [Batch.part, inside]
  · have outside : ¬ b.range.Has x := fun inside => there (if_pos inside)
    obtain ⟨frame, present⟩ := Option.ne_none_iff_exists'.mp there
    simp only [Batch.others, outside, ↓reduceIte] at present
    obtain ⟨jx, c, i, found, below, place, _⟩ := (seen.pt x frame).mp present
    have inside : c.range.Has x := batch_has.mpr ⟨i, below, place⟩
    have had : v.range c.range := (seen.range _).mpr ⟨jx, c, found, rfl⟩
    exact ⟨c.range, ⟨had, fun same => outside (same ▸ inside)⟩, inside⟩

theorem part_whole (seen : Shows t v) (here : t ix = some b) : Whole b (b.part v) := by
  refine ⟨fun p a => ?_, fun r => Iff.rfl, fun x frame => ?_, rfl⟩
  · simp only [Batch.part]
    constructor
    · intro stored
      split at stored
      · rename_i holds
        obtain ⟨i, below, rfl⟩ := holds
        rw [shows_page seen here below] at stored
        exact ⟨i, Nat.zero_le i, below, rfl, Option.some.inj stored⟩
      · cases stored
    · rintro ⟨i, _, below, rfl, rfl⟩
      rw [if_pos ⟨i, below, rfl⟩]
      exact shows_page seen here below
  · simp only [Batch.part]
    constructor
    · intro present
      split at present
      · rename_i inside
        obtain ⟨i, below, rfl⟩ := batch_has.mp inside
        rw [shows_entry seen here below] at present
        exact ⟨i, below, rfl, (Option.some.inj present).symm⟩
      · cases present
    · rintro ⟨i, below, rfl, rfl⟩
      rw [if_pos (batch_has.mpr ⟨i, below, rfl⟩)]
      exact shows_entry seen here below

theorem others_shows (seen : Shows t v) (here : t ix = some b) :
    Shows (t.set ix none) (b.others v) := by
  have mine : ∀ {jx c}, t jx = some c → jx = ix → c = b := by
    rintro jx c there rfl
    exact Option.some.inj (there.symm.trans here)
  refine ⟨fun p a => ?_, fun r => ?_, fun x frame => ?_, fun jx kx c d first second => ?_⟩
  · simp only [Batch.others]
    constructor
    · intro stored
      split at stored
      · cases stored
      · rename_i absent
        obtain ⟨jx, c, i, there, below, place, address⟩ := (seen.page p a).mp stored
        refine ⟨jx, c, i, set_none_iff.mpr ⟨fun same => absent ?_, there⟩, below, place, address⟩
        exact ⟨i, below, mine there same ▸ place⟩
    · rintro ⟨jx, c, i, there, below, rfl, rfl⟩
      obtain ⟨different, there⟩ := set_none_iff.mp there
      have absent : ¬ b.Holds (c.page i) := by
        rintro ⟨j, under, same⟩
        exact (seen.apart ix jx b c here there (Ne.symm different)).pages j under i below same
      rw [if_neg absent]
      exact shows_page seen there below
  · simp only [Batch.others]
    constructor
    · rintro ⟨had, different⟩
      obtain ⟨jx, c, there, rfl⟩ := (seen.range r).mp had
      exact ⟨jx, c, set_none_iff.mpr ⟨fun same => different (by rw [mine there same]), there⟩, rfl⟩
    · rintro ⟨jx, c, there, rfl⟩
      obtain ⟨different, there⟩ := set_none_iff.mp there
      refine ⟨(seen.range _).mpr ⟨jx, c, there, rfl⟩, fun same => ?_⟩
      have inside := range_inhabited (batch_nonempty c)
      exact (seen.apart ix jx b c here there (Ne.symm different)).ranges _ (same ▸ inside) inside
  · simp only [Batch.others]
    constructor
    · intro present
      split at present
      · cases present
      · rename_i outside
        obtain ⟨jx, c, i, there, below, place, same⟩ := (seen.pt x frame).mp present
        refine ⟨jx, c, i, set_none_iff.mpr ⟨fun equal => outside ?_, there⟩, below, place, same⟩
        exact batch_has.mpr ⟨i, below, mine there equal ▸ place⟩
    · rintro ⟨jx, c, i, there, below, rfl, rfl⟩
      obtain ⟨different, there⟩ := set_none_iff.mp there
      have outside : ¬ b.range.Has (c.base / PAGE_SIZE + i) := fun inside =>
        (seen.apart ix jx b c here there (Ne.symm different)).ranges _ inside
          (batch_has.mpr ⟨i, below, rfl⟩)
      rw [if_neg outside]
      exact shows_entry seen there below
  · exact seen.apart jx kx c d (set_none_iff.mp first).2 (set_none_iff.mp second).2

/- Nothing is worked on. -/
theorem nothing_beside (seen : Shows t v) (empty : v.cache = []) : Beside nothingSeen v v := by
  refine ⟨fun p => ?_, fun p mine => ?_, fun r => ?_, fun r s mine => ?_, fun r mine => ?_, fun x => ?_,
    fun x _ => rfl, fun x there => ?_, empty⟩
  · rfl
  · exact absurd rfl mine
  · simp [nothingSeen]
  · exact absurd mine id
  · exact absurd mine id
  · rfl
  · obtain ⟨frame, present⟩ := Option.ne_none_iff_exists'.mp there
    obtain ⟨ix, b, i, here, below, place, _⟩ := (seen.pt x frame).mp present
    exact ⟨b.range, (seen.range _).mpr ⟨ix, b, here, rfl⟩, batch_has.mpr ⟨i, below, place⟩⟩

theorem nothing_left (apart : Beside nothingSeen f v) (seen : Shows t f) :
    Shows t v ∧ v.cache = [] := by
  have page : v.page = f.page := funext apart.page
  have pt : v.pt = f.pt := funext apart.pt
  have range : ∀ r, v.range r ↔ f.range r := fun r => by simp [apart.range, nothingSeen]
  refine ⟨⟨fun p a => ?_, fun r => ?_, fun x frame => ?_, seen.apart⟩, apart.cache⟩
  · rw [page]
    exact seen.page p a
  · rw [range]
    exact seen.range r
  · rw [pt]
    exact seen.pt x frame

theorem shows_beside_page (apart : Beside m f v) (seen : Shows t f) {c : Batch} (here : t ix = some c)
    {i : Nat} (below : i < 64) : m.page (c.page i) = none ∧ v.page (c.page i) = some (c.addr i) := by
  have there := shows_page seen here below
  have absent : m.page (c.page i) = none := by
    by_contra present
    rw [apart.pages _ present] at there
    cases there
  exact ⟨absent, by rw [apart.page, absent, Option.none_or, there]⟩

theorem shows_beside_entry (apart : Beside m f v) (seen : Shows t f) {c : Batch}
    (here : t ix = some c) {i : Nat} (below : i < 64) :
    v.pt (c.base / PAGE_SIZE + i) = some (c.page i).pfn := by
  have there := shows_entry seen here below
  rw [apart.pt, apart.entries _ (by simp [there]), Option.none_or, there]

theorem whole_page (whole : Whole b m) {i : Nat} (below : i < 64) :
    m.page (b.page i) = some (b.addr i) :=
  (whole.page _ _).mpr ⟨i, Nat.zero_le i, below, rfl, rfl⟩

theorem whole_apart (apart : Beside m f v) (whole : Whole b m) (seen : Shows t f) {jx : Nat} {c : Batch}
    (there : t jx = some c) : b.Apart c := by
  refine ⟨apart.ranges _ _ ((whole.range _).mpr rfl) ((seen.range _).mpr ⟨jx, c, there, rfl⟩), ?_⟩
  intro i below j under same
  have absent := (shows_beside_page apart seen there under).1
  rw [← same, whole_page whole below] at absent
  cases absent

theorem joined_page (apart : Beside m f v) (whole : Whole b m) (seen : Shows t f) (free : t ix = none)
    (p : Page) (a : Nat) : v.page p = some a ↔
      ∃ jx c i, t.set ix (some b) jx = some c ∧ i < 64 ∧ c.page i = p ∧ c.addr i = a := by
  constructor
  · intro stored
    rw [apart.page] at stored
    cases part : m.page p with
    | some addr =>
      rw [part] at stored
      cases stored
      obtain ⟨i, _, below, place, address⟩ := (whole.page p a).mp part
      exact ⟨ix, b, i, (set_free_iff free).mpr (Or.inl ⟨rfl, rfl⟩), below, place, address⟩
    | none =>
      rw [part, Option.none_or] at stored
      obtain ⟨jx, c, i, there, below, place, address⟩ := (seen.page p a).mp stored
      exact ⟨jx, c, i, (set_free_iff free).mpr (Or.inr there), below, place, address⟩
  · rintro ⟨jx, c, i, there, below, rfl, rfl⟩
    rcases (set_free_iff free).mp there with ⟨_, rfl⟩ | there
    · rw [apart.page, whole_page whole below, Option.some_or]
    · exact (shows_beside_page apart seen there below).2

theorem joined_range (apart : Beside m f v) (whole : Whole b m) (seen : Shows t f) (free : t ix = none)
    (r : Range) : v.range r ↔ ∃ jx c, t.set ix (some b) jx = some c ∧ r = c.range := by
  rw [apart.range, whole.range, seen.range]
  constructor
  · rintro (rfl | ⟨jx, c, there, rfl⟩)
    · exact ⟨ix, b, (set_free_iff free).mpr (Or.inl ⟨rfl, rfl⟩), rfl⟩
    · exact ⟨jx, c, (set_free_iff free).mpr (Or.inr there), rfl⟩
  · rintro ⟨jx, c, there, rfl⟩
    rcases (set_free_iff free).mp there with ⟨_, rfl⟩ | there
    · exact Or.inl rfl
    · exact Or.inr ⟨jx, c, there, rfl⟩

theorem joined_entry (apart : Beside m f v) (whole : Whole b m) (seen : Shows t f) (free : t ix = none)
    (x frame : Nat) : v.pt x = some frame ↔
      ∃ jx c i, t.set ix (some b) jx = some c ∧ i < 64 ∧ x = c.base / PAGE_SIZE + i ∧
        frame = (c.page i).pfn := by
  constructor
  · intro present
    rw [apart.pt] at present
    cases part : m.pt x with
    | some found =>
      rw [part] at present
      cases present
      obtain ⟨i, below, place, same⟩ := (whole.pt x frame).mp part
      exact ⟨ix, b, i, (set_free_iff free).mpr (Or.inl ⟨rfl, rfl⟩), below, place, same⟩
    | none =>
      rw [part, Option.none_or] at present
      obtain ⟨jx, c, i, there, below, place, same⟩ := (seen.pt x frame).mp present
      exact ⟨jx, c, i, (set_free_iff free).mpr (Or.inr there), below, place, same⟩
  · rintro ⟨jx, c, i, there, below, rfl, rfl⟩
    rcases (set_free_iff free).mp there with ⟨_, rfl⟩ | there
    · rw [apart.pt, (whole.pt _ _).mpr ⟨i, below, rfl, rfl⟩, Option.some_or]
    · exact shows_beside_entry apart seen there below

theorem whole_joins (apart : Beside m f v) (whole : Whole b m) (seen : Shows t f)
    (free : t ix = none) : Shows (t.set ix (some b)) v := by
  refine ⟨joined_page apart whole seen free, joined_range apart whole seen free,
    joined_entry apart whole seen free, ?_⟩
  intro jx kx c d first second different
  rcases (set_free_iff free).mp first with ⟨rfl, rfl⟩ | one
  · rcases (set_free_iff free).mp second with ⟨rfl, rfl⟩ | two
    · exact absurd rfl different
    · exact whole_apart apart whole seen two
  · rcases (set_free_iff free).mp second with ⟨rfl, rfl⟩ | two
    · exact apart_symm (whole_apart apart whole seen one)
    · exact seen.apart jx kx c d one two different

/- What a table tells of a queue that may be busy with something else. -/
structure Within (t : Table) (v : UserView) : Prop where
  range : ∀ ix b, t ix = some b → v.range b.range
  page : ∀ ix b i, t ix = some b → i < 64 → v.page (b.page i) = some (b.addr i)
  entry : ∀ ix b i, t ix = some b → i < 64 → v.pt (b.base / PAGE_SIZE + i) = some (b.page i).pfn
  apart : ∀ ix jx b c, t ix = some b → t jx = some c → ix ≠ jx → b.Apart c

theorem beside_within (apart : Beside m f v) (seen : Shows t f) : Within t v := by
  refine ⟨fun ix b here => ?_, fun ix b i here below => ?_, fun ix b i here below => ?_, seen.apart⟩
  · exact (apart.range _).mpr (Or.inr ((seen.range _).mpr ⟨ix, b, here, rfl⟩))
  · exact (shows_beside_page apart seen here below).2
  · exact shows_beside_entry apart seen here below

theorem shows_within (seen : Shows t v) (empty : v.cache = []) : Within t v :=
  beside_within (nothing_beside seen empty) seen

end

end BatchTable
