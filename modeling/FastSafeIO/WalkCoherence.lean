import FastSafeIO.WalkCache
import FastSafeIO.DmaCalls

/- What the caches can hold at any time, and that nothing of an unmap is left in them
   once it has returned. -/
namespace WalkCoherence
open CallTree KernelCalls DmaLayer DmaCalls AgentPool RadixWalk WalkCache
open IommuWorld (Range)

/-- An unmap that is not over yet took the table. -/
def TableUnderway (w : State) (t : Nat) : Prop :=
  ∃ u s, w.current u = some s ∧ w.taker t = some s

/-- An unmap of page x that is not over yet took the mapping. -/
def MappingUnderway (w : State) (x : Nat) (e : Mapping) : Prop :=
  ∃ u s, w.current u = some s ∧ w.clearer x e = some s ∧ (w.unmaps s).range.Has x

/-- The tables in memory: unused identities are blank, nothing in the tree was taken, and
    a removed table holds only what went with it until it is given away. -/
structure MemoryOk (w : State) : Prop where
  root : w.mem.root < w.mem.used
  blank : ∀ t, w.mem.used ≤ t → (∀ i, w.mem.child t i = none) ∧ (∀ x, w.mem.leaf t x = none) ∧
    w.taker t = none
  links : ∀ p i t, p ∉ w.given → w.mem.child p i = some t → t < w.mem.used
  spans : ∀ t x e, t ∉ w.given → w.mem.leaf t x = some e → w.mem.Span t x
  free : ∀ t, Attached w.mem t → w.taker t = none
  closed : ∀ p i t s, w.taker p = some s → p ∉ w.given → w.mem.child p i = some t →
    w.taker t = some s
  takenSpan : ∀ t s x, w.taker t = some s → w.mem.Span t x → (w.unmaps s).range.Has x
  takenLeaf : ∀ t s x e, w.taker t = some s → t ∉ w.given → w.mem.leaf t x = some e →
    w.clearer x e = some s

/-- The record of the unmaps. A table is given away only when its unmap is over, and
    what is mapped in a range was mapped after the last unmap of the page. -/
structure RecordOk (w : State) : Prop where
  given : ∀ t ∈ w.given, ∃ s, w.taker t = some s ∧ ∀ u, w.current u ≠ some s
  current : ∀ u s, w.current u = some s → s < w.made ∧ (w.unmaps s).agent = u
  taker : ∀ t s, w.taker t = some s → s < w.made
  clearer : ∀ x e s, w.clearer x e = some s → s < w.made ∧ e.stamp < w.stamps
  since : ∀ s, s < w.made → (w.unmaps s).since ≤ w.stamps
  live : ∀ x e, Live w.mem x e → w.clearer x e = none ∧ e.stamp < w.stamps ∧
    ∀ s, s < w.made → (w.unmaps s).range.Has x → (w.unmaps s).since ≤ e.stamp

/-- A cached pointer leads into the tree or to a table that is being taken, and a cached
    translation is in the tree or is being cleared. -/
structure CachesOk (w : State) : Prop where
  cached : ∀ t ∈ w.cached, Attached w.mem t ∨ TableUnderway w t
  iotlb : ∀ x e, (x, e) ∈ w.iotlb → Live w.mem x e ∨ MappingUnderway w x e

structure Coherent (w : State) : Prop where
  memory : MemoryOk w
  record : RecordOk w
  caches : CachesOk w

variable {w : State}

theorem attached_not_given (fine : Coherent w) {t : Nat} (attached : Attached w.mem t) :
    t ∉ w.given := by
  intro gone
  obtain ⟨s, taken, _⟩ := fine.record.given t gone
  rw [fine.memory.free t attached] at taken
  cases taken

theorem attached_used (fine : Coherent w) {t : Nat} (attached : Attached w.mem t) :
    t < w.mem.used := by
  have both : Attached w.mem t ∧ t < w.mem.used := by
    apply walkable_induct _ _ _ attached
    · exact ⟨attached_root, fine.memory.root⟩
    · intro t member
      exact absurd member List.not_mem_nil
    · intro p i t before link
      exact ⟨attached_step before.1 link,
        fine.memory.links p i t (attached_not_given fine before.1) link⟩
  exact both.2

theorem underway_not_given (fine : Coherent w) {t : Nat} (taken : TableUnderway w t) :
    t ∉ w.given := by
  obtain ⟨u, s, busy, mine⟩ := taken
  intro gone
  obtain ⟨s', same, ended⟩ := fine.record.given t gone
  rw [mine] at same
  cases same
  exact ended u busy

theorem walk_link (fine : Coherent w) {p i t : Nat}
    (here : Attached w.mem p ∨ TableUnderway w p) (link : w.mem.child p i = some t) :
    Attached w.mem t ∨ TableUnderway w t := by
  rcases here with attached | taken
  · exact Or.inl (attached_step attached link)
  · have kept := underway_not_given fine taken
    obtain ⟨u, s, busy, mine⟩ := taken
    exact Or.inr ⟨u, s, busy, fine.memory.closed p i t s mine kept link⟩

theorem entrance_table (fine : Coherent w) {p : Nat} (start : Entrance w p) :
    Attached w.mem p ∨ TableUnderway w p := by
  rcases start with rfl | cached
  · exact Or.inl attached_root
  · exact fine.caches.cached p cached

/-- What a walk that ends at a leaf entry reads there. -/
theorem walk_leaf (fine : Coherent w) {p x : Nat} {e : Mapping}
    (here : Attached w.mem p ∨ TableUnderway w p) (entry : w.mem.leaf p x = some e) :
    Live w.mem x e ∨ MappingUnderway w x e := by
  rcases here with attached | taken
  · exact Or.inl ⟨p, attached, entry⟩
  · have kept := underway_not_given fine taken
    obtain ⟨u, s, busy, mine⟩ := taken
    exact Or.inr ⟨u, s, busy, fine.memory.takenLeaf p s x e mine kept entry,
      fine.memory.takenSpan p s x mine (fine.memory.spans p x e kept entry)⟩

theorem start_coherent (levels : Nat) : Coherent (startState levels) := by
  have no_leaf : ∀ x e, ¬ Live (startState levels).mem x e := by
    rintro x e ⟨t, _, entry⟩
    cases entry
  constructor
  · constructor
    · exact Nat.zero_lt_one
    · exact fun t _ => ⟨fun _ => rfl, fun _ => rfl, rfl⟩
    · exact fun p i t _ link => nomatch link
    · exact fun t x e _ entry => nomatch entry
    · exact fun t _ => rfl
    · exact fun p i t s taken => nomatch taken
    · exact fun t s x taken => nomatch taken
    · exact fun t s x e taken => nomatch taken
  · constructor
    · exact fun t member => nomatch member
    · exact fun u s busy => nomatch busy
    · exact fun t s taken => nomatch taken
    · exact fun x e s taken => nomatch taken
    · exact fun s small => absurd small (Nat.not_lt_zero s)
    · exact fun x e live => absurd live (no_leaf x e)
  · constructor
    · exact fun t member => nomatch member
    · exact fun x e member => nomatch member

theorem caches_grow {now : State} (fine : CachesOk w) (cached : now.cached = w.cached)
    (iotlb : now.iotlb = w.iotlb)
    (tables : ∀ t, Attached w.mem t ∨ TableUnderway w t →
      Attached now.mem t ∨ TableUnderway now t)
    (mappings : ∀ x e, Live w.mem x e ∨ MappingUnderway w x e →
      Live now.mem x e ∨ MappingUnderway now x e) : CachesOk now := by
  constructor
  · rw [cached]
    exact fun t member => tables t (fine.cached t member)
  · rw [iotlb]
    exact fun x e member => mappings x e (fine.iotlb x e member)

theorem allocate_coherent (fine : Coherent w) {p i : Nat} (below : Attached w.mem p)
    (vacant : w.mem.child p i = none) : Coherent { w with mem := w.mem.attach p i } := by
  obtain ⟨noLink, noLeaf, noTaker⟩ := fine.memory.blank w.mem.used (Nat.le_refl _)
  have attached : ∀ t, Attached (w.mem.attach p i) t ↔ Attached w.mem t ∨ t = w.mem.used :=
    fun t => attached_attach below vacant noLink
  have live : ∀ x e, Live (w.mem.attach p i) x e ↔ Live w.mem x e := by
    intro x e
    constructor
    · rintro ⟨t, here, entry⟩
      rcases (attached t).mp here with old | rfl
      · exact ⟨t, old, entry⟩
      · exact absurd ((noLeaf x).symm.trans entry) (by simp)
    · rintro ⟨t, here, entry⟩
      exact ⟨t, (attached t).mpr (Or.inl here), entry⟩
  have link : ∀ {q j t}, (w.mem.attach p i).child q j = some t →
      (q = p ∧ t = w.mem.used) ∨ w.mem.child q j = some t := by
    intro q j t here
    by_cases new : q = p ∧ j = i
    · have same : some w.mem.used = some t := (if_pos new).symm.trans here
      exact Or.inl ⟨new.1, (Option.some.inj same).symm⟩
    · exact Or.inr ((if_neg new).symm.trans here)
  have span : ∀ {t x}, t ≠ w.mem.used → ((w.mem.attach p i).Span t x ↔ w.mem.Span t x) := by
    intro t x other
    unfold Tables.Span Tables.attach
    simp only [Function.update_of_ne other]
  have taken_old : ∀ {t s}, w.taker t = some s → t ≠ w.mem.used := by
    rintro t s taken rfl
    rw [noTaker] at taken
    cases taken
  constructor
  · constructor
    · exact Nat.lt_succ_of_lt fine.memory.root
    · intro t large
      obtain ⟨children, leaves, taker⟩ := fine.memory.blank t (Nat.le_of_succ_le large)
      refine ⟨fun j => ?_, leaves, taker⟩
      have other : ¬ (t = p ∧ j = i) := by
        rintro ⟨rfl, _⟩
        have := attached_used fine below
        have : w.mem.used + 1 ≤ t := large
        omega
      exact (if_neg other).trans (children j)
    · intro q j t kept here
      rcases link here with ⟨_, rfl⟩ | old
      · exact Nat.lt_succ_self _
      · exact Nat.lt_succ_of_lt (fine.memory.links q j t kept old)
    · intro t x e kept entry
      have other : t ≠ w.mem.used := by
        rintro rfl
        exact absurd ((noLeaf x).symm.trans entry) (by simp)
      exact (span other).mpr (fine.memory.spans t x e kept entry)
    · intro t here
      rcases (attached t).mp here with old | rfl
      · exact fine.memory.free t old
      · exact noTaker
    · intro q j t s taken kept here
      rcases link here with ⟨rfl, _⟩ | old
      · exact absurd ((fine.memory.free q below).symm.trans taken) (by simp)
      · exact fine.memory.closed q j t s taken kept old
    · intro t s x taken inside
      exact fine.memory.takenSpan t s x taken ((span (taken_old taken)).mp inside)
    · exact fine.memory.takenLeaf
  · exact ⟨fine.record.given, fine.record.current, fine.record.taker, fine.record.clearer,
      fine.record.since, fun x e here => fine.record.live x e ((live x e).mp here)⟩
  · refine caches_grow fine.caches rfl rfl ?_ ?_
    · intro t here
      exact here.imp_left fun old => (attached t).mpr (Or.inl old)
    · intro x e here
      exact here.imp_left (live x e).mpr

/-- The caches can change by themselves, as long as what they hold is accounted for. -/
theorem coherent_caches (fine : Coherent w) {cached : List Nat} {iotlb : List (Nat × Mapping)}
    (hops : ∀ t ∈ cached, Attached w.mem t ∨ TableUnderway w t)
    (entries : ∀ x e, (x, e) ∈ iotlb → Live w.mem x e ∨ MappingUnderway w x e) :
    Coherent { w with cached := cached, iotlb := iotlb } :=
  ⟨⟨fine.memory.root, fine.memory.blank, fine.memory.links, fine.memory.spans,
    fine.memory.free, fine.memory.closed, fine.memory.takenSpan, fine.memory.takenLeaf⟩,
    ⟨fine.record.given, fine.record.current, fine.record.taker, fine.record.clearer,
    fine.record.since, fine.record.live⟩, hops, entries⟩

theorem hop_coherent (fine : Coherent w) {p i t : Nat} (start : Entrance w p)
    (link : w.mem.child p i = some t) : Coherent { w with cached := t :: w.cached } := by
  refine coherent_caches fine ?_ fine.caches.iotlb
  intro c member
  rcases List.mem_cons.mp member with rfl | old
  · exact walk_link fine (entrance_table fine start) link
  · exact fine.caches.cached c old

theorem fill_coherent (fine : Coherent w) {p x : Nat} {e : Mapping} (start : Entrance w p)
    (entry : w.mem.leaf p x = some e) : Coherent { w with iotlb := (x, e) :: w.iotlb } := by
  refine coherent_caches fine fine.caches.cached ?_
  intro y f member
  rcases List.mem_cons.mp member with same | old
  · cases same
    exact walk_leaf fine (entrance_table fine start) entry
  · exact fine.caches.iotlb y f old

theorem evict_coherent (fine : Coherent w) {cached : List Nat} {iotlb : List (Nat × Mapping)}
    (fewer : cached ⊆ w.cached) (less : iotlb ⊆ w.iotlb) :
    Coherent { w with cached := cached, iotlb := iotlb } :=
  coherent_caches fine (fun t member => fine.caches.cached t (fewer member))
    fun x e member => fine.caches.iotlb x e (less member)

theorem reuse_coherent (fine : Coherent w) {g : Nat} {child : Nat → Option Nat}
    {leaf : Nat → Option Mapping} (given : g ∈ w.given) :
    Coherent { w with mem := w.mem.overwrite g child leaf } := by
  have off : ∀ {t}, t ∉ w.given → t ≠ g := fun kept same => kept (same ▸ given)
  have children : ∀ {t}, t ∉ w.given → Function.update w.mem.child g child t = w.mem.child t :=
    fun kept => Function.update_of_ne (off kept) _ _
  have leaves : ∀ {t}, t ∉ w.given → Function.update w.mem.leaf g leaf t = w.mem.leaf t :=
    fun kept => Function.update_of_ne (off kept) _ _
  have attached : ∀ t, Attached (w.mem.overwrite g child leaf) t ↔ Attached w.mem t := by
    intro t
    refine attached_congr rfl ?_
    intro p here i
    exact congrFun (children (attached_not_given fine here)) i
  have live : ∀ x e, Live (w.mem.overwrite g child leaf) x e ↔ Live w.mem x e := by
    intro x e
    constructor
    · rintro ⟨t, here, entry⟩
      have old := (attached t).mp here
      have same := congrFun (leaves (attached_not_given fine old)) x
      exact ⟨t, old, same.symm.trans entry⟩
    · rintro ⟨t, here, entry⟩
      have same := congrFun (leaves (attached_not_given fine here)) x
      exact ⟨t, (attached t).mpr here, same.trans entry⟩
  constructor
  · constructor
    · exact fine.memory.root
    · intro t large
      obtain ⟨noLinks, noLeaves, noTaker⟩ := fine.memory.blank t large
      have kept : t ∉ w.given := by
        intro gone
        obtain ⟨s, taken, _⟩ := fine.record.given t gone
        rw [noTaker] at taken
        cases taken
      refine ⟨fun i => ?_, fun x => ?_, noTaker⟩
      · exact (congrFun (children kept) i).trans (noLinks i)
      · exact (congrFun (leaves kept) x).trans (noLeaves x)
    · intro p i t kept link
      exact fine.memory.links p i t kept ((congrFun (children kept) i).symm.trans link)
    · intro t x e kept entry
      exact fine.memory.spans t x e kept ((congrFun (leaves kept) x).symm.trans entry)
    · exact fun t here => fine.memory.free t ((attached t).mp here)
    · intro p i t s taken kept link
      exact fine.memory.closed p i t s taken kept ((congrFun (children kept) i).symm.trans link)
    · exact fine.memory.takenSpan
    · intro t s x e taken kept entry
      exact fine.memory.takenLeaf t s x e taken kept ((congrFun (leaves kept) x).symm.trans entry)
  · exact ⟨fine.record.given, fine.record.current, fine.record.taker, fine.record.clearer,
      fine.record.since, fun x e here => fine.record.live x e ((live x e).mp here)⟩
  · refine caches_grow fine.caches rfl rfl ?_ ?_
    · exact fun t here => here.imp_left (attached t).mpr
    · exact fun x e here => here.imp_left (live x e).mpr

/-- Whatever happens between two calls keeps the caches coherent. -/
theorem background_coherent {now : State} (moved : Background w now) (fine : Coherent w) :
    Coherent now := by
  cases moved with
  | allocate below _ _ vacant => exact allocate_coherent fine below vacant
  | hop start link => exact hop_coherent fine start link
  | fill start entry => exact fill_coherent fine start entry
  | evict fewer less => exact evict_coherent fine fewer less
  | reuse given => exact reuse_coherent fine given

theorem enter_coherent (fine : Coherent w) (r : Range) (paddr : Nat) :
    Coherent (w.enter r paddr) := by
  have attached : ∀ t, Attached (w.enter r paddr).mem t ↔ Attached w.mem t :=
    fun _ => attached_enter
  constructor
  · constructor
    · exact fine.memory.root
    · intro t large
      obtain ⟨noLinks, noLeaves, noTaker⟩ := fine.memory.blank t large
      refine ⟨noLinks, fun x => ?_, noTaker⟩
      cases entry : (w.enter r paddr).mem.leaf t x with
      | none => rfl
      | some e =>
        rcases leaf_enter entry with old | ⟨here, _, _⟩
        · exact absurd ((noLeaves x).symm.trans old) (by simp)
        · exact absurd (attached_used fine here) (Nat.not_lt.mpr large)
    · exact fine.memory.links
    · intro t x e kept entry
      rcases leaf_enter entry with old | ⟨_, inside, _⟩
      · exact fine.memory.spans t x e kept old
      · exact inside
    · exact fun t here => fine.memory.free t ((attached t).mp here)
    · exact fine.memory.closed
    · exact fine.memory.takenSpan
    · intro t s x e taken kept entry
      rcases leaf_enter entry with old | ⟨here, _, _⟩
      · exact fine.memory.takenLeaf t s x e taken kept old
      · exact absurd ((fine.memory.free t here).symm.trans taken) (by simp)
  · constructor
    · exact fine.record.given
    · exact fine.record.current
    · exact fine.record.taker
    · exact fun x e s cleared => ⟨(fine.record.clearer x e s cleared).1,
        Nat.lt_succ_of_lt (fine.record.clearer x e s cleared).2⟩
    · exact fun s small => Nat.le_succ_of_le (fine.record.since s small)
    · rintro x e ⟨t, here, entry⟩
      rcases leaf_enter entry with old | ⟨_, _, new⟩
      · obtain ⟨mine, stamp, since⟩ := fine.record.live x e ⟨t, (attached t).mp here, old⟩
        exact ⟨mine, Nat.lt_succ_of_lt stamp, since⟩
      · refine ⟨?_, ?_, fun s small _ => ?_⟩
        · -- a stamp that was not used before belongs to no unmap
          cases cleared : (w.enter r paddr).clearer x e with
          | none => rfl
          | some s =>
            have := (fine.record.clearer x e s cleared).2
            omega
        · exact new ▸ Nat.lt_succ_self _
        · exact new ▸ fine.record.since s small
  · refine caches_grow fine.caches rfl rfl ?_ ?_
    · exact fun t here => here.imp_left (attached t).mpr
    · intro x e here
      refine here.imp_left ?_
      rintro ⟨t, old, entry⟩
      exact ⟨t, (attached t).mpr old, leaf_enter_old entry⟩

section
variable {u : Nat} {r : Range} {out : List Nat}

theorem taker_out {t : Nat} (gone : t ∈ out) : (w.takeOut u r out).taker t = some w.made :=
  if_pos gone

theorem taker_kept {t : Nat} (stays : t ∉ out) : (w.takeOut u r out).taker t = w.taker t :=
  if_neg stays

theorem taken_stays (fine : Coherent w) (can : CanTakeOut w.mem out r.Has) {t s : Nat}
    (taken : w.taker t = some s) : t ∉ out := by
  intro gone
  rw [fine.memory.free t (can.attached t gone)] at taken
  cases taken

theorem unmaps_kept {s : Nat} (old : s < w.made) :
    (w.takeOut u r out).unmaps s = w.unmaps s :=
  Function.update_of_ne (Nat.ne_of_lt old) _ _

theorem unmaps_new : (w.takeOut u r out).unmaps w.made = ⟨u, r, w.stamps⟩ :=
  Function.update_self ..

theorem clearer_live {x : Nat} {e : Mapping} (live : Live w.mem x e) (inside : r.Has x) :
    (w.takeOut u r out).clearer x e = some w.made := if_pos ⟨live, inside⟩

theorem clearer_kept (fine : Coherent w) {x s : Nat} {e : Mapping}
    (cleared : w.clearer x e = some s) : (w.takeOut u r out).clearer x e = some s := by
  have gone : ¬ (Live w.mem x e ∧ r.Has x) := by
    rintro ⟨live, _⟩
    rw [(fine.record.live x e live).1] at cleared
    cases cleared
  exact (if_neg gone).trans cleared

theorem take_out_memory (fine : Coherent w) (can : CanTakeOut w.mem out r.Has) :
    MemoryOk (w.takeOut u r out) := by
  constructor
  · exact fine.memory.root
  · intro t large
    obtain ⟨noLinks, noLeaves, noTaker⟩ := fine.memory.blank t large
    have stays : t ∉ out := fun gone =>
      absurd (attached_used fine (can.attached t gone)) (Nat.not_lt.mpr large)
    refine ⟨fun i => ?_, fun x => ?_, (taker_kept stays).trans noTaker⟩
    · cases link : (w.takeOut u r out).mem.child t i with
      | none => rfl
      | some c => exact absurd ((noLinks i).symm.trans (child_take_out link).1) (by simp)
    · cases entry : (w.takeOut u r out).mem.leaf t x with
      | none => rfl
      | some e => exact absurd ((noLeaves x).symm.trans (leaf_take_out entry).1) (by simp)
  · exact fun p i t kept link => fine.memory.links p i t kept (child_take_out link).1
  · exact fun t x e kept entry => fine.memory.spans t x e kept (leaf_take_out entry).1
  · intro t here
    obtain ⟨was, stays⟩ := (attached_take_out can).mp here
    exact (taker_kept stays).trans (fine.memory.free t was)
  · intro p i t s taken kept link
    obtain ⟨was, stays⟩ := child_take_out link
    by_cases gone : p ∈ out
    · rw [taker_out gone] at taken
      exact (taker_out (can.below p gone i t was)).trans taken
    · rw [taker_kept gone] at taken
      exact (taker_kept (stays gone)).trans (fine.memory.closed p i t s taken kept was)
  · intro t s x taken inside
    by_cases gone : t ∈ out
    · rw [taker_out gone] at taken
      cases taken
      rw [unmaps_new]
      exact can.whole t gone x inside
    · rw [taker_kept gone] at taken
      rw [unmaps_kept (fine.record.taker t s taken)]
      exact fine.memory.takenSpan t s x taken inside
  · intro t s x e taken kept entry
    have was := (leaf_take_out entry).1
    by_cases gone : t ∈ out
    · rw [taker_out gone] at taken
      rw [← taken]
      exact clearer_live ⟨t, can.attached t gone, was⟩
        (can.whole t gone x (fine.memory.spans t x e kept was))
    · rw [taker_kept gone] at taken
      exact clearer_kept fine (fine.memory.takenLeaf t s x e taken kept was)

theorem live_take_out (can : CanTakeOut w.mem out r.Has) {x : Nat} {e : Mapping}
    (live : Live (w.takeOut u r out).mem x e) : Live w.mem x e ∧ ¬ r.Has x := by
  obtain ⟨t, here, entry⟩ := live
  obtain ⟨was, stays⟩ := (attached_take_out can).mp here
  obtain ⟨old, outside⟩ := leaf_take_out entry
  exact ⟨⟨t, was, old⟩, outside was stays⟩

theorem take_out_record (fine : Coherent w) (can : CanTakeOut w.mem out r.Has)
    (idle : w.current u = none) : RecordOk (w.takeOut u r out) := by
  constructor
  · intro t gone
    obtain ⟨s, taken, ended⟩ := fine.record.given t gone
    refine ⟨s, (taker_kept (taken_stays fine can taken)).trans taken, fun v busy => ?_⟩
    by_cases same : v = u
    · subst same
      have new : some w.made = some s := (Function.update_self v _ _).symm.trans busy
      have old := fine.record.taker t s taken
      cases new
      exact Nat.lt_irrefl _ old
    · exact ended v ((Function.update_of_ne same _ _).symm.trans busy)
  · intro v s busy
    by_cases same : v = u
    · subst same
      have new : some w.made = some s := (Function.update_self v _ _).symm.trans busy
      cases new
      rw [unmaps_new]
      exact ⟨Nat.lt_succ_self _, rfl⟩
    · obtain ⟨small, mine⟩ := fine.record.current v s
        ((Function.update_of_ne same _ _).symm.trans busy)
      rw [unmaps_kept small]
      exact ⟨Nat.lt_succ_of_lt small, mine⟩
  · intro t s taken
    by_cases gone : t ∈ out
    · rw [taker_out gone] at taken
      cases taken
      exact Nat.lt_succ_self _
    · rw [taker_kept gone] at taken
      exact Nat.lt_succ_of_lt (fine.record.taker t s taken)
  · intro x e s cleared
    by_cases here : Live w.mem x e ∧ r.Has x
    · have new : some w.made = some s := (if_pos here).symm.trans cleared
      cases new
      exact ⟨Nat.lt_succ_self _, (fine.record.live x e here.1).2.1⟩
    · have old : w.clearer x e = some s := (if_neg here).symm.trans cleared
      exact ⟨Nat.lt_succ_of_lt (fine.record.clearer x e s old).1,
        (fine.record.clearer x e s old).2⟩
  · intro s small
    rcases Nat.lt_succ_iff_lt_or_eq.mp small with old | rfl
    · rw [unmaps_kept old]
      exact fine.record.since s old
    · rw [unmaps_new]
      exact Nat.le_refl _
  · intro x e live
    obtain ⟨was, outside⟩ := live_take_out can live
    obtain ⟨mine, stamp, since⟩ := fine.record.live x e was
    refine ⟨(if_neg fun here => outside here.2).trans mine, stamp, fun s small inside => ?_⟩
    rcases Nat.lt_succ_iff_lt_or_eq.mp small with old | rfl
    · rw [unmaps_kept old] at inside ⊢
      exact since s old inside
    · rw [unmaps_new] at inside
      exact absurd inside outside

theorem underway_kept (idle : w.current u = none) {v s : Nat} (busy : w.current v = some s) :
    (w.takeOut u r out).current v = some s := by
  have other : v ≠ u := by
    rintro rfl
    rw [idle] at busy
    cases busy
  exact (Function.update_of_ne other _ _).trans busy

theorem current_new : (w.takeOut u r out).current u = some w.made := Function.update_self ..

theorem take_out_coherent (fine : Coherent w) (can : CanTakeOut w.mem out r.Has)
    (idle : w.current u = none) : Coherent (w.takeOut u r out) := by
  refine ⟨take_out_memory fine can, take_out_record fine can idle,
    caches_grow fine.caches rfl rfl ?_ ?_⟩
  · rintro t (attached | ⟨v, s, busy, taken⟩)
    · by_cases gone : t ∈ out
      · exact Or.inr ⟨u, w.made, current_new, taker_out gone⟩
      · exact Or.inl ((attached_take_out can).mpr ⟨attached, gone⟩)
    · exact Or.inr ⟨v, s, underway_kept idle busy,
        (taker_kept (taken_stays fine can taken)).trans taken⟩
  · rintro x e (⟨t, attached, entry⟩ | ⟨v, s, busy, cleared, inside⟩)
    · by_cases here : r.Has x
      · refine Or.inr ⟨u, w.made, current_new, clearer_live ⟨t, attached, entry⟩ here, ?_⟩
        rw [unmaps_new]
        exact here
      · have stays : t ∉ out := fun gone =>
          here (can.whole t gone x
            (fine.memory.spans t x e (attached_not_given fine attached) entry))
        exact Or.inl ⟨t, (attached_take_out can).mpr ⟨attached, stays⟩,
          (if_neg fun cut => here cut.2.2).trans entry⟩
    · refine Or.inr ⟨v, s, underway_kept idle busy, clearer_kept fine cleared, ?_⟩
      rw [unmaps_kept (fine.record.clearer x e s cleared).1]
      exact inside

/-- The flush takes out of the caches whatever still led to the unmap, with the hint or
    without: the hint is only given when no table was removed. -/
theorem sync_coherent (fine : Coherent w) {s ih : Nat} (busy : w.current u = some s)
    (range : (w.unmaps s).range = r) (mine : ∀ t, w.taker t = some s ↔ t ∈ out)
    (hint : ih = if out = [] then 1 else 0) : Coherent (w.sync u r out ih) := by
  have left : ∀ {v s'}, (w.sync u r out ih).current v = some s' → w.current v = some s' := by
    intro v s' still
    by_cases same : v = u
    · subst same
      exact absurd ((Function.update_self v _ _).symm.trans still) (by simp)
    · exact (Function.update_of_ne same _ _).symm.trans still
  have ended : ∀ v, (w.sync u r out ih).current v ≠ some s := by
    intro v still
    have was := left still
    have same : v = u :=
      (fine.record.current v s was).2.symm.trans (fine.record.current u s busy).2
    subst same
    exact absurd ((Function.update_self v _ _).symm.trans still) (by simp)
  have other : ∀ {v s'}, w.current v = some s' → s' ≠ s →
      (w.sync u r out ih).current v = some s' := by
    intro v s' was different
    have apart : v ≠ u := by
      rintro rfl
      rw [busy] at was
      cases was
      exact different rfl
    exact (Function.update_of_ne apart _ _).trans was
  constructor
  · refine ⟨fine.memory.root, fine.memory.blank, fun p i t kept => ?_, fun t x e kept => ?_,
      fine.memory.free, fun p i t s' taken kept => ?_, fine.memory.takenSpan,
      fun t s' x e taken kept => ?_⟩
    · exact fine.memory.links p i t fun gone => kept (List.mem_append_right out gone)
    · exact fine.memory.spans t x e fun gone => kept (List.mem_append_right out gone)
    · exact fine.memory.closed p i t s' taken fun gone => kept (List.mem_append_right out gone)
    · exact fine.memory.takenLeaf t s' x e taken fun gone => kept (List.mem_append_right out gone)
  · refine ⟨fun t gone => ?_, fun v s' still => fine.record.current v s' (left still),
      fine.record.taker, fine.record.clearer, fine.record.since, fine.record.live⟩
    rcases List.mem_append.mp gone with now | before
    · exact ⟨s, (mine t).mpr now, ended⟩
    · obtain ⟨s', taken, done⟩ := fine.record.given t before
      exact ⟨s', taken, fun v still => done v (left still)⟩
  · constructor
    · intro t member
      obtain ⟨was, kept⟩ := cached_sync.mp member
      refine (fine.caches.cached t was).imp_right ?_
      rintro ⟨v, s', underway, taken⟩
      refine ⟨v, s', other underway ?_, taken⟩
      rintro rfl
      have some_table : out ≠ [] := List.ne_nil_of_mem ((mine t).mp taken)
      rw [if_neg some_table] at hint
      have meets : ∃ x, w.mem.Span t x ∧ r.Has x :=
        ⟨_, span_start w.mem t, range ▸ fine.memory.takenSpan t s' _ taken (span_start w.mem t)⟩
      exact kept ⟨hint, meets⟩
    · intro x e member
      obtain ⟨was, kept⟩ := iotlb_sync.mp member
      refine (fine.caches.iotlb x e was).imp_right ?_
      rintro ⟨v, s', underway, cleared, inside⟩
      refine ⟨v, s', other underway ?_, cleared, inside⟩
      rintro rfl
      exact kept (range ▸ inside)

end

end WalkCoherence
