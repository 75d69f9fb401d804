import FastSafeIO.AllocatedRanges
import FastSafeIO.BatchMapping

/-! What __iommu_dma_map does to the allocated ranges, with and without an address from its
caller. -/
namespace FailedMapping
open CallTree KernelCalls DmaLayer IommuWorld BatchMapping AllocatedRanges
set_option linter.style.nameCheck false

/-- What the calls made by one __iommu_dma_map come back with. -/
structure Outcome where
  attachFails : Bool
  allocIova : Nat
  mapRet : Int
  deriving DecidableEq, Repr

def Outcome.answers (o : Outcome) : (op : KernelOp) → op.Ans → Bool
  | .iommu .iommuDeferredAttach, fails => fails == o.attachFails
  | .iommu (.iommuDmaAllocIova _), iova => (iova : Nat) == o.allocIova
  | .iommu (.__iommuMap _ _ _), ret => (ret : Int) == o.mapRet
  | _, _ => true

/-- The address to be mapped; 0 when there is none. -/
def Outcome.iova (o : Outcome) (iovaAddr : Nat) : Nat :=
  if iovaAddr ≠ 0 then iovaAddr else o.allocIova

/-- __iommu_dma_map comes to its last return statement. -/
def Outcome.Succeeds (o : Outcome) (iovaAddr : Nat) : Prop :=
  o.attachFails = false ∧ o.iova iovaAddr ≠ 0 ∧ o.mapRet = 0

instance (o : Outcome) (iovaAddr : Nat) : Decidable (o.Succeeds iovaAddr) :=
  inferInstanceAs (Decidable (_ ∧ _ ∧ _))

/-- The whole pages that are mapped for size bytes from phys on. -/
def mapRange (iova phys size : Nat) : Range := ⟨iova, iovaAlign (size + iovaOffset phys)⟩

/-- The range holds the returned address and the bytes behind it, in as many whole pages
    as the call asks for. -/
structure Covers (r : Range) (phys size result : Nat) : Prop where
  low : r.base ≤ result
  inside : result < r.base + r.size
  bytes : result + size ≤ r.base + r.size
  aligned : r.size = iovaAlign (size + iovaOffset phys)

/-- With an address from the caller, or when the call fails, the allocated ranges are the
    same; otherwise there is exactly one more, around the returned address. -/
structure RangesRight (u iovaAddr phys size : Nat) (o : Outcome) (a : World) (result : Nat)
    (b : World) : Prop where
  callers : iovaAddr ≠ 0 → allocated b = allocated a
  fails : iovaAddr = 0 → ¬ o.Succeeds iovaAddr → allocated b = allocated a
  succeeds : iovaAddr = 0 → o.Succeeds iovaAddr → ∃ r, Covers r phys size result ∧
    (u, r) ∉ allocated a ∧ allocated b = insert (u, r) (allocated a)

section
variable {u : Nat} {dev : Device} {phys iovaAddr size iova : Nat} {firstIova : Bool} {o : Outcome}
  {w : World}

theorem attach_answer {attach : Bool}
    (answer : o.answers (.iommu .iommuDeferredAttach) attach = true) : attach = o.attachFails :=
  eq_of_beq (show (attach == o.attachFails) = true from answer)

theorem alloc_answer {length base : Nat}
    (answer : o.answers (.iommu (.iommuDmaAllocIova length)) base = true) : base = o.allocIova :=
  eq_of_beq (show (base == o.allocIova) = true from answer)

theorem map_answer {paddr length : Nat} {ret : Int}
    (answer : o.answers (.iommu (.__iommuMap iova paddr length)) ret = true) : ret = o.mapRet :=
  eq_of_beq (show (ret == o.mapRet) = true from answer)

theorem map_atomic_answers {paddr : Nat} :
    Ensures (limited o.answers (exec u)) (iommuMapAtomic dev iova firstIova paddr size) w
      fun _ ret _ => ret = o.mapRet := by
  unfold iommuMapAtomic _iommuMap
  apply Ensures.call
  intro ret mid here
  have same : ret = o.mapRet := map_answer (limited_some.mp here).1
  simp only [Tree.bind_eq, Tree.done_bind]
  split
  · apply Ensures.call
    intro ans mid here
    exact Ensures.done same
  · exact Ensures.done same

/-- The end of __iommu_dma_map: a failed map gives the range back, whoever allocated it. -/
theorem place_outcome (some_iova : iova ≠ 0) :
    Ensures (limited o.answers (exec u))
      (placeAt dev phys (iovaOffset phys) (iovaAlign (size + iovaOffset phys)) iova firstIova) w
      fun _ result last =>
        if o.mapRet = 0 then
          result = iova + iovaOffset phys ∧
            last = w.mapPages (mapRange iova phys size) (phys - iovaOffset phys)
        else result = DMA_MAPPING_ERROR ∧ last = w.release (mapRange iova phys size) := by
  unfold placeAt
  rw [if_neg some_iova]
  apply Ensures.bind (map_atomic_answers.and map_atomic_ensures.limited)
  rintro trace ret mid ⟨rfl, rfl⟩
  by_cases mapped : o.mapRet = 0
  · rw [if_neg (not_not_intro mapped), if_pos mapped]
    exact Ensures.done (by rw [if_pos mapped]; exact ⟨rfl, rfl⟩)
  · rw [if_pos mapped, if_neg mapped]
    apply Ensures.call
    intro ans mid here
    rw [exec_free_iova.mp (limited_some.mp here).2]
    exact Ensures.done (by rw [if_neg mapped]; exact ⟨rfl, rfl⟩)

theorem callers_outcome (given : iovaAddr ≠ 0) :
    Ensures (limited o.answers (exec u)) (__iommuDmaMap dev phys iovaAddr firstIova size) w
      fun _ _ last => allocated last =
        if o.attachFails = true ∨ o.mapRet = 0 then allocated w
        else allocated (w.release (mapRange iovaAddr phys size)) := by
  rw [dma_map_eq]
  apply Ensures.call
  intro attach mid here
  obtain ⟨same, here⟩ := limited_some.mp here
  have same : attach = o.attachFails := attach_answer same
  cases exec_deferred_attach.mp here
  cases attach with
  | true => exact Ensures.done (if_pos (Or.inl same.symm)).symm
  | false =>
    rw [if_neg Bool.false_ne_true, if_pos given]
    apply (place_outcome given).mono
    intro trace result last after
    rw [← same]
    by_cases mapped : o.mapRet = 0
    · rw [if_pos mapped] at after
      rw [if_pos (Or.inr mapped), after.2]
      exact allocated_same rfl rfl
    · rw [if_neg mapped] at after
      rw [if_neg (by simp [mapped]), after.2]

theorem map_range_covers (positive : 0 < (mapRange iova phys size).size / PAGE_SIZE) :
    Covers (mapRange iova phys size) phys size (iova + iovaOffset phys) where
  low := Nat.le_add_right _ _
  inside := by
    unfold mapRange iovaAlign iovaOffset PAGE_SIZE at *
    dsimp only at *
    omega
  bytes := by
    unfold mapRange iovaAlign iovaOffset PAGE_SIZE
    dsimp only
    omega
  aligned := rfl

theorem own_outcome {a : Allocator} :
    Ensures (limited o.answers (exec u)) (__iommuDmaMap dev phys 0 firstIova size) a.world
      fun _ result last => ∃ b : Allocator, b.world = last ∧
        (¬ o.Succeeds 0 → allocated last = allocated a.world) ∧
        (o.Succeeds 0 → Covers (mapRange o.allocIova phys size) phys size result ∧
          (u, mapRange o.allocIova phys size) ∉ allocated a.world ∧
          allocated last = insert (u, mapRange o.allocIova phys size) (allocated a.world)) := by
  rw [dma_map_eq]
  apply Ensures.call
  intro attach mid here
  obtain ⟨same, here⟩ := limited_some.mp here
  have attached : attach = o.attachFails := attach_answer same
  cases exec_deferred_attach.mp here
  have failed : ∀ result, ¬ o.Succeeds 0 → ∃ b : Allocator, b.world = a.world ∧
      (¬ o.Succeeds 0 → allocated a.world = allocated a.world) ∧
      (o.Succeeds 0 → Covers (mapRange o.allocIova phys size) phys size result ∧
        (u, mapRange o.allocIova phys size) ∉ allocated a.world ∧
        allocated a.world = insert (u, mapRange o.allocIova phys size) (allocated a.world)) :=
    fun result bad => ⟨a, rfl, fun _ => rfl, fun good => absurd good bad⟩
  cases attach with
  | true => exact Ensures.done (failed _ fun good => by rw [good.1] at attached; cases attached)
  | false =>
    rw [if_neg Bool.false_ne_true, if_neg (not_not_intro rfl)]
    apply Ensures.call
    intro iova mid here
    obtain ⟨same, here⟩ := limited_some.mp here
    obtain rfl : iova = o.allocIova := alloc_answer same
    rcases exec_alloc_iova.mp here with ⟨zero, rfl⟩ | ⟨got, _, _, pages, available, rfl⟩
    · unfold placeAt
      rw [if_pos zero]
      exact Ensures.done (failed _ fun good => good.2.1 (by rw [Outcome.iova, zero]; rfl))
    · apply (place_outcome got).mono
      intro trace result last after
      have fresh := available_new (u := u) available pages
      have more := allocated_allocate (u := u) available
      by_cases mapped : o.mapRet = 0
      · rw [if_pos mapped] at after
        obtain ⟨rfl, rfl⟩ := after
        refine ⟨(a.allocate u _ available pages).same
          (World.mapPages _ (mapRange o.allocIova phys size) (phys - iovaOffset phys)) rfl rfl, rfl,
           fun bad => ?_, fun _ => ?_⟩
        · exact absurd ⟨attached.symm, got, mapped⟩ bad
        · exact ⟨map_range_covers pages, fresh, more⟩
      · rw [if_neg mapped] at after
        obtain ⟨rfl, rfl⟩ := after
        refine ⟨(a.allocate u _ available pages).release (u := u) List.mem_cons_self, rfl, fun _ => ?_,
          fun good => absurd good.2.2 mapped⟩
        exact allocated_allocate_release available pages

/-- The allocated ranges come out right exactly when no failing map was given an address
    inside an allocated range. -/
theorem allocated_ranges_right_iff {a : Allocator} {b : World} {trace : List KernelEvent}
    {result : Nat} (run : Exec (limited o.answers (exec u))
      (__iommuDmaMap dev phys iovaAddr firstIova size) a.world trace result b) :
    RangesRight u iovaAddr phys size o a.world result b ↔
      iovaAddr = 0 ∨ o.attachFails = true ∨ o.mapRet = 0 ∨
        ∀ e ∈ allocated a.world, e.2.Disjoint (mapRange iovaAddr phys size) := by
  by_cases given : iovaAddr = 0
  · subst given
    obtain ⟨_, _, bad, good⟩ := own_outcome.holds run
    refine ⟨fun _ => Or.inl rfl, fun _ => ⟨fun some_iova => absurd rfl some_iova, fun _ => bad, ?_⟩⟩
    intro _ succeeds
    exact ⟨_, good succeeds⟩
  · have after := (callers_outcome given).holds run
    have callers : RangesRight u iovaAddr phys size o a.world result b ↔
        allocated b = allocated a.world :=
      ⟨fun right => right.callers given, fun same =>
        ⟨fun _ => same, fun zero => absurd zero given, fun zero => absurd zero given⟩⟩
    rw [callers, after]
    by_cases quiet : o.attachFails = true ∨ o.mapRet = 0
    · rw [if_pos quiet]
      exact ⟨fun _ => Or.inr (quiet.imp_right Or.inl), fun _ => rfl⟩
    · obtain ⟨attached, failed⟩ := not_or.mp quiet
      rw [if_neg quiet, release_keeps_iff]
      constructor
      · exact fun apart => Or.inr (Or.inr (Or.inr apart))
      · rintro (zero | fails | mapped | apart)
        · exact absurd zero given
        · exact absurd fails attached
        · exact absurd mapped failed
        · exact apart

end

def emptyAllocator : Allocator where
  world := startWorld false
  apart := .nil
  nonempty := fun _ impossible => absurd impossible List.not_mem_nil
  owner := fun _ impossible => absurd impossible List.not_mem_nil

/-- A queue has got the range of a batch, and no page of it is mapped yet. -/
def batchAllocator : Allocator :=
  emptyAllocator.allocate 0 ⟨0x100000, PAGE_SIZE * 64⟩ (fun _ _ => rfl) (by decide)

def refused : Outcome := ⟨false, 0x200000, -12⟩

def refusing : Choices where
  cacheGet _ := none
  cacheTakes := false
  freshPage _ := none
  iovaBase _ := refused.allocIova
  attachFails _ := refused.attachFails
  mapFails _ := true

theorem own_range_given_back : ∃ trace last,
    Exec (limited refused.answers (exec 0)) (__iommuDmaMap translated 0x7000 0 false 4096)
      batchAllocator.world trace DMA_MAPPING_ERROR last ∧
    RangesRight 0 0 0x7000 4096 refused batchAllocator.world DMA_MAPPING_ERROR last := by
  have run : ∃ trace last, Exec (limited refused.answers (exec 0))
      (__iommuDmaMap translated 0x7000 0 false 4096) batchAllocator.world trace DMA_MAPPING_ERROR last :=
    ⟨_, _, runBy_exec (show runBy _ refusing.answer _ _ = some (_, _, _) from rfl)⟩
  obtain ⟨trace, last, run⟩ := run
  exact ⟨trace, last, run, (allocated_ranges_right_iff run).mpr (Or.inl rfl)⟩

theorem first_page_refused : ∃ trace last,
    Exec (limited refused.answers (exec 0)) (__iommuDmaMap translated 0x7000 0x100000 true 4096)
      batchAllocator.world trace DMA_MAPPING_ERROR last :=
  ⟨_, _, runBy_exec (show runBy _ refusing.answer _ _ = some (_, _, _) from rfl)⟩

/-- A page that cannot be mapped takes the range of its batch with it. -/
theorem failed_page_loses_batch : ¬ ∀ (u : Nat) (dev : Device) (phys iovaAddr size : Nat)
    (firstIova : Bool) (o : Outcome) (a : Allocator) (b : World) (trace : List KernelEvent)
    (result : Nat), Exec (limited o.answers (exec u))
      (__iommuDmaMap dev phys iovaAddr firstIova size) a.world trace result b →
    RangesRight u iovaAddr phys size o a.world result b := by
  intro always
  obtain ⟨trace, last, run⟩ := first_page_refused
  have same := (always 0 translated 0x7000 0x100000 4096 true refused batchAllocator last trace
    DMA_MAPPING_ERROR run).callers (by decide)
  have after := (callers_outcome (by decide)).holds run
  rw [if_neg (by decide), same] at after
  have apart := release_keeps_iff.mp after.symm (0, ⟨0x100000, PAGE_SIZE * 64⟩)
    (live_allocated.mpr List.mem_cons_self)
  exact apart 0x100 (by decide) (by decide)

end FailedMapping
