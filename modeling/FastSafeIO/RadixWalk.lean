import Mathlib.Data.List.Basic
import Mathlib.Logic.Function.Basic
import Mathlib.Tactic.Ring

/-!
Radix page tables in memory and the walks of a device over them. A table keeps its
identity for good: the memory of one that was taken out is given away, but its
identity is not used again. A walk starts at the root or at a table whose pointer is
cached, and follows the links in memory.
-/
namespace RadixWalk

/-- A present leaf entry. The stamp tells mappings made at different times apart. -/
structure Mapping where
  frame : Nat
  stamp : Nat
  deriving DecidableEq, Repr

/-- The identities below used are taken; a table of level l and index i translates the
    pages x with x / 512 ^ l = i. -/
structure Tables where
  root : Nat
  used : Nat
  level : Nat → Nat
  index : Nat → Nat
  child : Nat → Nat → Option Nat
  leaf : Nat → Nat → Option Mapping

def Tables.Span (m : Tables) (t x : Nat) : Prop := x / 512 ^ m.level t = m.index t

inductive Walkable (m : Tables) (cached : List Nat) : Nat → Prop where
  | root : Walkable m cached m.root
  | cached {t : Nat} (member : t ∈ cached) : Walkable m cached t
  | step {p i t : Nat} (before : Walkable m cached p) (link : m.child p i = some t) :
      Walkable m cached t

/-- Part of the tree: a walk that uses no cached pointer can get there. -/
def Attached (m : Tables) (t : Nat) : Prop := Walkable m [] t

/-- The translation of page x in the tree. -/
def Live (m : Tables) (x : Nat) (e : Mapping) : Prop := ∃ t, Attached m t ∧ m.leaf t x = some e

variable {m after : Tables} {cached : List Nat} {t p i x : Nat} {e : Mapping}

theorem attached_root : Attached m m.root := .root

theorem attached_step (before : Attached m p) (link : m.child p i = some t) : Attached m t :=
  .step before link

theorem span_start (m : Tables) (t : Nat) : m.Span t (m.index t * 512 ^ m.level t) := by
  unfold Tables.Span
  exact Nat.mul_div_cancel _ (Nat.pow_pos (by decide))

/-- What holds of the root and of the cached tables and follows the links holds of
    every table of a walk. -/
theorem walkable_induct {P : Nat → Prop} (root : P m.root) (start : ∀ t ∈ cached, P t)
    (link : ∀ p i t, P p → m.child p i = some t → P t) (walk : Walkable m cached t) : P t := by
  induction walk with
  | root => exact root
  | cached member => exact start _ member
  | step _ here ih => exact link _ _ _ ih here

theorem attached_congr (root : after.root = m.root)
    (same : ∀ p, Attached m p → ∀ i, after.child p i = m.child p i) :
    Attached after t ↔ Attached m t := by
  constructor
  · intro walk
    apply walkable_induct _ _ _ walk
    · rw [root]
      exact attached_root
    · intro t member
      exact absurd member List.not_mem_nil
    · intro p i t attached link
      rw [same p attached] at link
      exact attached_step attached link
  · intro walk
    have both : Attached m t ∧ Attached after t := by
      apply walkable_induct _ _ _ walk
      · exact ⟨attached_root, root ▸ attached_root⟩
      · intro t member
        exact absurd member List.not_mem_nil
      · intro p i t attached link
        have kept := same p attached.1 i
        exact ⟨attached_step attached.1 link, attached_step attached.2 (kept.trans link)⟩
    exact both.2

/-- A new empty table below p. -/
def Tables.attach (m : Tables) (p i : Nat) : Tables :=
  { m with
    used := m.used + 1
    level := Function.update m.level m.used (m.level p - 1)
    index := Function.update m.index m.used i
    child := fun q j => if q = p ∧ j = i then some m.used else m.child q j }

theorem attached_attach (below : Attached m p) (vacant : m.child p i = none)
    (empty : ∀ j, m.child m.used j = none) :
    Attached (m.attach p i) t ↔ Attached m t ∨ t = m.used := by
  have old : ∀ {t}, Attached m t → Attached (m.attach p i) t := by
    intro t walk
    apply walkable_induct (P := Attached (m.attach p i)) _ _ _ walk
    · exact attached_root
    · intro t member
      exact absurd member List.not_mem_nil
    · intro q j t attached link
      have other : ¬ (q = p ∧ j = i) := by
        rintro ⟨rfl, rfl⟩
        rw [vacant] at link
        cases link
      exact attached_step (i := j) attached ((if_neg other).trans link)
  constructor
  · intro walk
    apply walkable_induct _ _ _ walk
    · exact Or.inl attached_root
    · intro t member
      exact absurd member List.not_mem_nil
    · intro q j t attached link
      by_cases here : q = p ∧ j = i
      · have new : some m.used = some t := (if_pos here).symm.trans link
        cases new
        exact Or.inr rfl
      · have kept : m.child q j = some t := (if_neg here).symm.trans link
        rcases attached with attached | rfl
        · exact Or.inl (attached_step attached kept)
        · rw [empty] at kept
          cases kept
  · rintro (attached | rfl)
    · exact old attached
    · exact attached_step (i := i) (old below) (if_pos ⟨rfl, rfl⟩)

/-- The memory of table t after someone else has written to it. -/
def Tables.overwrite (m : Tables) (t : Nat) (child : Nat → Option Nat)
    (leaf : Nat → Option Mapping) : Tables :=
  { m with
    child := Function.update m.child t child
    leaf := Function.update m.leaf t leaf }

open Classical in
/-- Enters the pages into the leaf tables of the tree; an entry that is present stays. -/
noncomputable def Tables.enter (m : Tables) (pages : Nat → Prop) (frame : Nat → Nat)
    (stamp : Nat) : Tables :=
  { m with
    leaf := fun t x =>
      if Attached m t ∧ m.level t = 1 ∧ m.Span t x ∧ pages x ∧ m.leaf t x = none then
        some ⟨frame x, stamp⟩
      else m.leaf t x }

theorem attached_enter {pages : Nat → Prop} {frame : Nat → Nat} {stamp : Nat} :
    Attached (m.enter pages frame stamp) t ↔ Attached m t :=
  attached_congr rfl fun _ _ _ => rfl

theorem leaf_enter {pages : Nat → Prop} {frame : Nat → Nat} {stamp : Nat}
    (entry : (m.enter pages frame stamp).leaf t x = some e) :
    m.leaf t x = some e ∨ (Attached m t ∧ m.Span t x ∧ e.stamp = stamp) := by
  unfold Tables.enter at entry
  dsimp only at entry
  split at entry
  · rename_i new
    cases entry
    exact Or.inr ⟨new.1, new.2.2.1, rfl⟩
  · exact Or.inl entry

theorem leaf_enter_old {pages : Nat → Prop} {frame : Nat → Nat} {stamp : Nat}
    (entry : m.leaf t x = some e) : (m.enter pages frame stamp).leaf t x = some e := by
  unfold Tables.enter
  dsimp only
  split
  · rename_i new
    exact absurd (new.2.2.2.2.symm.trans entry) (by simp)
  · exact entry

open Classical in
/-- Takes the tables out of the tree and clears the other entries of the pages in it. A
    table that is taken out keeps what it holds. -/
noncomputable def Tables.takeOut (m : Tables) (out : List Nat) (pages : Nat → Prop) : Tables :=
  { m with
    child := fun p i => if p ∉ out ∧ ∃ t ∈ out, m.child p i = some t then none else m.child p i
    leaf := fun t x => if Attached m t ∧ t ∉ out ∧ pages x then none else m.leaf t x }

/-- A table goes only when all its pages do, and everything below goes with it. -/
structure CanTakeOut (m : Tables) (out : List Nat) (pages : Nat → Prop) : Prop where
  attached : ∀ t ∈ out, Attached m t
  notRoot : m.root ∉ out
  whole : ∀ t ∈ out, ∀ x, m.Span t x → pages x
  below : ∀ p ∈ out, ∀ i t, m.child p i = some t → t ∈ out

section
variable {out : List Nat} {pages : Nat → Prop}

theorem child_take_out (link : (m.takeOut out pages).child p i = some t) :
    m.child p i = some t ∧ (p ∉ out → t ∉ out) := by
  unfold Tables.takeOut at link
  dsimp only at link
  split at link
  · cases link
  · rename_i kept
    refine ⟨link, fun stays goes => kept ⟨stays, t, goes, link⟩⟩

theorem leaf_take_out (entry : (m.takeOut out pages).leaf t x = some e) :
    m.leaf t x = some e ∧ (Attached m t → t ∉ out → ¬ pages x) := by
  unfold Tables.takeOut at entry
  dsimp only at entry
  split at entry
  · cases entry
  · rename_i kept
    exact ⟨entry, fun attached stays inside => kept ⟨attached, stays, inside⟩⟩

theorem attached_take_out (can : CanTakeOut m out pages) :
    Attached (m.takeOut out pages) t ↔ Attached m t ∧ t ∉ out := by
  constructor
  · intro walk
    apply walkable_induct _ _ _ walk
    · exact ⟨attached_root, can.notRoot⟩
    · intro t member
      exact absurd member List.not_mem_nil
    · intro p i t attached link
      obtain ⟨was, stays⟩ := child_take_out link
      exact ⟨attached_step attached.1 was, stays attached.2⟩
  · rintro ⟨walk, stays⟩
    have all : t ∉ out → Attached (m.takeOut out pages) t := by
      apply walkable_induct (P := fun t => t ∉ out → Attached (m.takeOut out pages) t) _ _ _ walk
      · exact fun _ => attached_root
      · intro t member
        exact absurd member List.not_mem_nil
      · intro p i t ih link stays
        have above : p ∉ out := fun goes => stays (can.below p goes i t link)
        have kept : ¬ (p ∉ out ∧ ∃ t ∈ out, m.child p i = some t) := by
          rintro ⟨_, c, goes, same⟩
          rw [link] at same
          cases same
          exact stays goes
        exact attached_step (i := i) (ih above) ((if_neg kept).trans link)
    exact all stays

end

end RadixWalk
