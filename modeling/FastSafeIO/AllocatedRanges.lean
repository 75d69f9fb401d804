import FastSafeIO.IovaOwnership
import Mathlib.Data.Set.Insert

/-! Which ranges the IOVA allocator has handed out, whatever the page table holds. -/
namespace AllocatedRanges
open CallTree KernelCalls IommuWorld IovaOwnership

/-- A range counts as allocated while every page of it is still its user's. -/
def allocated (w : World) : Set (Nat × Range) :=
  {e | e ∈ w.live ∧ ∀ x, e.2.Has x → w.owner x = .user e.1}

/-- A state in which the allocator's two records agree. -/
structure Allocator where
  world : World
  apart : world.live.Pairwise fun e f => e.2.Disjoint f.2
  nonempty : ∀ e ∈ world.live, 0 < e.2.size / PAGE_SIZE
  owner : ∀ e ∈ world.live, ∀ x, e.2.Has x → world.owner x = .user e.1

theorem allocated_same {a b : World} (owner : b.owner = a.owner) (live : b.live = a.live) :
    allocated b = allocated a := by
  unfold allocated
  rw [owner, live]

section
variable {a : Allocator} {u : Nat} {r : Range}

theorem live_allocated {e : Nat × Range} : e ∈ allocated a.world ↔ e ∈ a.world.live :=
  ⟨fun here => here.1, fun live => ⟨live, a.owner e live⟩⟩

theorem available_apart {w : World} (available : w.Available r) {e : Nat × Range}
    (here : e ∈ allocated w) : e.2.Disjoint r := by
  intro x inside other
  have free := available_free available other
  rw [here.2 x inside] at free
  cases free

theorem available_new {w : World} (available : w.Available r) (pages : 0 < r.size / PAGE_SIZE) :
    (u, r) ∉ allocated w := by
  intro here
  have inside := range_inhabited pages
  exact available_apart available here _ inside inside

theorem allocated_allocate (available : a.world.Available r) :
    allocated (a.world.allocate u r) = insert (u, r) (allocated a.world) := by
  ext e
  constructor
  · intro here
    rcases List.mem_cons.mp here.1 with rfl | live
    · exact Set.mem_insert _ _
    · exact Set.mem_insert_of_mem _ (live_allocated.mpr live)
  · intro here
    rcases Set.mem_insert_iff.mp here with rfl | old
    · exact ⟨List.mem_cons_self, fun x inside => fill_in inside⟩
    · refine ⟨List.mem_cons_of_mem _ old.1, fun x inside => ?_⟩
      exact (fill_out (available_apart available old x inside)).trans (old.2 x inside)

/-- Giving a range back takes every allocated range with it that it touches. -/
theorem allocated_release (w : World) (r : Range) :
    allocated (w.release r) = {e ∈ allocated w | e.2 ≠ r ∧ e.2.Disjoint r} := by
  ext e
  constructor
  · rintro ⟨live, owner⟩
    have kept := List.mem_filter.mp live
    have apart : e.2.Disjoint r := by
      intro x inside other
      have freed := (fill_in other).symm.trans (owner x inside)
      cases freed
    refine ⟨⟨kept.1, fun x inside => ?_⟩, by simpa using kept.2, apart⟩
    exact (fill_out (apart x inside)).symm.trans (owner x inside)
  · rintro ⟨⟨live, owner⟩, other, apart⟩
    refine ⟨List.mem_filter.mpr ⟨live, by simpa using other⟩, fun x inside => ?_⟩
    exact (fill_out (apart x inside)).trans (owner x inside)

/-- The allocator forgets a range that was allocated and given back. -/
theorem allocated_allocate_release {w : World} (available : w.Available r)
    (pages : 0 < r.size / PAGE_SIZE) : allocated ((w.allocate u r).release r) = allocated w := by
  rw [allocated_release]
  ext e
  constructor
  · rintro ⟨⟨live, owner⟩, other, apart⟩
    rcases List.mem_cons.mp live with rfl | live
    · exact absurd rfl other
    · exact ⟨live, fun x inside => (fill_out (apart x inside)).symm.trans (owner x inside)⟩
  · intro here
    have apart := available_apart available here
    refine ⟨⟨List.mem_cons_of_mem _ here.1, fun x inside => ?_⟩, ?_, apart⟩
    · exact (fill_out (apart x inside)).trans (here.2 x inside)
    · rintro rfl
      exact available_new available pages here

theorem release_keeps_iff : allocated (a.world.release r) = allocated a.world ↔
    ∀ e ∈ allocated a.world, e.2.Disjoint r := by
  rw [allocated_release]
  constructor
  · intro same e here
    rw [← same] at here
    exact here.2.2
  · intro apart
    ext e
    constructor
    · exact fun here => here.1
    · intro here
      refine ⟨here, fun same => ?_, apart e here⟩
      have inside := range_inhabited (a.nonempty e here.1)
      exact apart e here _ inside (same ▸ inside)

end

/-- Handing out free pages keeps the two records in agreement. -/
def Allocator.allocate (a : Allocator) (u : Nat) (r : Range) (available : a.world.Available r)
    (pages : 0 < r.size / PAGE_SIZE) : Allocator where
  world := a.world.allocate u r
  apart := List.pairwise_cons.mpr
    ⟨fun _ live => disjoint_symm (available_apart available (live_allocated.mpr live)), a.apart⟩
  nonempty e live := by
    rcases List.mem_cons.mp live with rfl | live
    · exact pages
    · exact a.nonempty e live
  owner e live := by
    have here : e ∈ allocated (a.world.allocate u r) := by
      rw [allocated_allocate available]
      rcases List.mem_cons.mp live with rfl | live
      · exact Set.mem_insert _ _
      · exact Set.mem_insert_of_mem _ (live_allocated.mpr live)
    exact here.2

/-- So does taking back a range that is allocated as a whole. -/
def Allocator.release (a : Allocator) {u : Nat} {r : Range} (mine : (u, r) ∈ a.world.live) :
    Allocator where
  world := a.world.release r
  apart := a.apart.sublist List.filter_sublist
  nonempty e live := a.nonempty e (List.mem_filter.mp live).1
  owner e live x inside := by
    obtain ⟨old, other⟩ := List.mem_filter.mp live
    have symmetric : Std.Symm fun e f : Nat × Range => e.2.Disjoint f.2 :=
      ⟨fun _ _ apart => disjoint_symm apart⟩
    have apart : e.2.Disjoint r := by
      refine a.apart.forall old mine fun same => ?_
      rw [same] at other
      simp at other
    exact (fill_out (apart x inside)).trans (a.owner e old x inside)

def Allocator.same (a : Allocator) (w : World) (owner : w.owner = a.world.owner)
    (live : w.live = a.world.live) : Allocator where
  world := w
  apart := live ▸ a.apart
  nonempty := live ▸ a.nonempty
  owner := by
    rw [live, owner]
    exact a.owner

end AllocatedRanges
