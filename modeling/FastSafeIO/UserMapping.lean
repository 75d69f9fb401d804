import FastSafeIO.DmaLayer
import FastSafeIO.UserViews

/- The DMA mapping layer as one user sees it: a map that allocates brings one new range,
   mapped as a whole, or nothing; an unmap takes the range away with all that was in it. -/
namespace UserMapping
open CallTree KernelCalls DmaLayer IommuWorld LocalViews UserViews
set_option linter.style.nameCheck false

/- The user makes only fair calls, and the result meets post. -/
abbrev Alone {α : Type} (t : Kernel α) (post : α → UserView → Prop) (v : UserView) : Prop :=
  Meets UserStep Fair post t v

def withRange (v : UserView) (r : Range) (paddr : Nat) : UserView :=
  { v.mapPages r paddr with range := fun s => s = r ∨ v.range s }

def withoutRange (v : UserView) (r : Range) : UserView :=
  { v with range := fun s => v.range s ∧ s ≠ r, pt := fill v.pt r none }

structure New (v : UserView) (r : Range) : Prop where
  positive : r.base ≠ 0
  aligned : r.base % PAGE_SIZE = 0
  nonempty : 0 < r.size / PAGE_SIZE
  apart : ∀ s, v.range s → r.Disjoint s
  empty : ∀ x, r.Has x → v.pt x = none

section
variable {α : Type} {v : UserView} {post : α → UserView → Prop}

theorem New.not_had {r : Range} (new : New v r) : ¬ v.range r := fun had =>
  new.apart r had _ (IovaOwnership.range_inhabited new.nonempty)
    (IovaOwnership.range_inhabited new.nonempty)

theorem call_alone {op : KernelOp} {rest : op.Ans → Kernel α} (fair : Fair op v)
    (more : ∀ r b, UserStep op r v b → Alone (rest r) post b) : Alone (.call op rest) post v :=
  ⟨fair, more⟩

theorem quiet_call {op : KernelOp} {rest : op.Ans → Kernel α} (fair : ∀ v, Fair op v)
    (same : ∀ r b, UserStep op r v b → b = v) (more : ∀ r, Alone (rest r) post v) :
    Alone (.call op rest) post v :=
  ⟨fair v, fun r b step => same r b step ▸ more r⟩

/- The tail of a page map or unmap: a bounce buffer is given back. -/
theorem swiotlb_tail {phys size : Nat} {t : Kernel α} (last : Alone t post v) :
    Alone (.call (.iommu (.isSwiotlbBuffer phys)) fun bounced =>
      if bounced = true then .call (.iommu (.swiotlbTblUnmapSingle phys size)) fun _ => t
      else t) post v := by
  refine quiet_call (fun _ => trivial) (fun _ _ step => step) fun bounced => ?_
  split
  · exact quiet_call (fun _ => trivial) (fun _ _ step => step) fun _ => last
  · exact last

theorem unmap_iova_alone {dmaAddr size : Nat} (mine : v.range (unmapRange dmaAddr size)) :
    Alone (__iommuDmaUnmapIova dmaAddr size (unmapRange dmaAddr size).size true)
      (fun _ b => b = withoutRange v (unmapRange dmaAddr size)) v := by
  have free : ∀ gather, Alone (.call (.iommu (.iommuDmaFreeIova (unmapRange dmaAddr size).base
      (unmapRange dmaAddr size).size gather)) .done)
      (fun (_ : Unit) b => b = withoutRange v (unmapRange dmaAddr size))
      { v with pt := fill v.pt (unmapRange dmaAddr size) none } :=
    fun gather => ⟨⟨mine, fun x inside => fill_in inside⟩, fun _ b step => step⟩
  simp only [__iommuDmaUnmapIova, iommuCall, Tree.bind_eq, Tree.ask_bind, ↓reduceIte]
  refine quiet_call (fun _ => trivial) (fun _ _ step => step) fun queued => ?_
  refine call_alone ⟨_, mine, fun _ inside => inside⟩ fun out b step => ?_
  obtain ⟨rfl, rfl⟩ := step
  split
  · exact quiet_call (fun _ => trivial) (fun _ _ step => step) fun _ => free _
  · exact free _

/- What is mapped at the address is found and given back; else nothing happens. -/
theorem unmap_page_alone {dmaAddr size : Nat} (mine : v.range (unmapRange dmaAddr size)) :
    Alone (iommuDmaUnmapPageIova dmaAddr size (unmapRange dmaAddr size).size true)
      (fun _ b => b = withoutRange v (unmapRange dmaAddr size) ∨
        b = v ∧ ∀ frame, v.pt (dmaAddr / PAGE_SIZE) = some frame → frame = 0) v := by
  simp only [iommuDmaUnmapPageIova, iommuCall, Tree.bind_eq, Tree.ask_bind, Tree.pure_eq]
  refine call_alone trivial fun phys b step => ?_
  obtain ⟨found, rfl⟩ := step
  split
  · rename_i zero
    refine Or.inr ⟨rfl, fun frame present => ?_⟩
    have none : frame * PAGE_SIZE + dmaAddr % PAGE_SIZE = 0 := (found frame present).symm.trans zero
    unfold PAGE_SIZE at none
    omega
  · refine Meets.bind (unmap_iova_alone mine) ?_
    rintro _ _ rfl
    exact swiotlb_tail (Or.inl rfl)

theorem map_atomic_alone {dev : Device} {iova paddr size : Nat} {firstIova : Bool}
    (inside : v.Inside ⟨iova, size⟩) (empty : ∀ x, (⟨iova, size⟩ : Range).Has x → v.pt x = none) :
    Alone (iommuMapAtomic dev iova firstIova paddr size)
      (fun ret b => b = if ret = 0 then v.mapPages ⟨iova, size⟩ paddr else v) v := by
  simp only [iommuMapAtomic, _iommuMap, iommuCall, Tree.bind_eq, Tree.ask_bind]
  refine call_alone ⟨inside, empty⟩ fun ret b step => ?_
  split
  · exact quiet_call (fun _ => trivial) (fun _ _ step => step) fun _ => step
  · exact step

/- An allocating map of this many bytes: an error and nothing new, or a new range that is
   all mapped. -/
def Placed (v : UserView) (phys size ret : Nat) (b : UserView) : Prop :=
  (ret = DMA_MAPPING_ERROR ∧ b = v) ∨ ∃ iova,
    New v ⟨iova, iovaAlign (size + iovaOffset phys)⟩ ∧ ret = iova + iovaOffset phys ∧
      b = withRange v ⟨iova, iovaAlign (size + iovaOffset phys)⟩ (phys - iovaOffset phys)

theorem place_alone {dev : Device} {phys iovaOff size iova : Nat} {firstIova : Bool}
    (new : New v ⟨iova, size⟩) :
    Alone (placeAt dev phys iovaOff size iova firstIova)
      (fun ret b => (ret = DMA_MAPPING_ERROR ∧ b = v) ∨
        ret = iova + iovaOff ∧ b = withRange v ⟨iova, size⟩ (phys - iovaOff))
      { v with range := fun s => s = ⟨iova, size⟩ ∨ v.range s } := by
  simp only [placeAt, show ¬ iova = 0 from new.positive, ↓reduceIte]
  refine Meets.bind (map_atomic_alone ⟨⟨iova, size⟩, Or.inl rfl, fun _ inside => inside⟩ new.empty) ?_
  intro ret b mapped
  by_cases good : ret = 0
  · rw [if_pos good] at mapped
    subst mapped
    simp only [good, ne_eq, not_true_eq_false, ↓reduceIte]
    exact Or.inr ⟨rfl, rfl⟩
  · rw [if_neg good] at mapped
    subst mapped
    simp only [good, ne_eq, not_false_eq_true, ↓reduceIte]
    refine call_alone ⟨Or.inl rfl, new.empty⟩ fun _ b freed => Or.inl ⟨rfl, ?_⟩
    -- the range is new, so taking it away again leaves what there was
    refine freed.trans (UserView.ext rfl (funext fun s => ?_) rfl rfl)
    simp only [eq_iff_iff]
    constructor
    · rintro ⟨rfl | had, other⟩
      · exact absurd rfl other
      · exact had
    · intro had
      exact ⟨Or.inr had, fun same => new.not_had (same ▸ had)⟩

theorem dma_map_alone {dev : Device} {phys size : Nat} {firstIova : Bool} :
    Alone (__iommuDmaMap dev phys 0 firstIova size) (Placed v phys size) v := by
  rw [dma_map_eq]
  refine quiet_call (fun _ => trivial) (fun _ _ step => step) fun attach => ?_
  split
  · exact Or.inl ⟨rfl, rfl⟩
  · simp only [ne_eq, not_true_eq_false, ↓reduceIte]
    refine call_alone trivial fun iova b step => ?_
    rcases step with ⟨none, rfl⟩ | ⟨got, aligned, _, nonempty, apart, empty, rfl⟩
    · simp only [placeAt, show iova = 0 from none, ↓reduceIte]
      exact Or.inl ⟨rfl, rfl⟩
    · have new : New v ⟨iova, iovaAlign (size + iovaOffset phys)⟩ := ⟨got, aligned, nonempty, apart, empty⟩
      exact Meets.mono (place_alone new) fun _ _ placed =>
        placed.imp_right fun here => ⟨iova, new, here⟩

theorem map_tail_alone {dev : Device} {phys size : Nat} {firstIova : Bool} :
    Alone (mapPageTail dev phys 0 firstIova size) (Placed v phys size) v := by
  simp only [mapPageTail, iommuCall, Tree.bind_eq, Tree.ask_bind, Tree.pure_eq]
  refine Meets.bind dma_map_alone fun ret b placed => ?_
  split
  · exact swiotlb_tail placed
  · exact placed

/- Any page map; a bounce buffer may stand in for the page. -/
theorem map_page_alone {dev : Device} {page : Page} {offset size : Nat} {firstIova : Bool} :
    Alone (iommuDmaMapPageIova dev page 0 firstIova offset size)
      (fun ret b => ∃ phys, Placed v phys size ret b) v := by
  have tail : ∀ phys, Alone (mapPageTail dev phys 0 firstIova size)
      (fun ret b => ∃ phys, Placed v phys size ret b) v :=
    fun phys => Meets.mono map_tail_alone fun _ _ placed => ⟨phys, placed⟩
  simp only [iommuDmaMapPageIova, iommuCall, Tree.bind_eq, Tree.ask_bind, Tree.pure_eq]
  split
  · refine quiet_call (fun _ => trivial) (fun _ _ step => step) fun active => ?_
    split
    · refine quiet_call (fun _ => trivial) (fun _ _ step => step) fun phys => ?_
      split
      · exact ⟨phys, Or.inl ⟨rfl, rfl⟩⟩
      · exact tail phys
    · exact ⟨0, Or.inl ⟨rfl, rfl⟩⟩
  · exact tail _

theorem map_whole_page_alone {dev : Device} {page : Page} {firstIova : Bool} :
    Alone (iommuDmaMapPageIova dev page 0 firstIova 0 PAGE_SIZE)
      (fun ret b => (ret = DMA_MAPPING_ERROR ∧ b = v) ∨
        ret ≠ DMA_MAPPING_ERROR ∧ New v ⟨ret, PAGE_SIZE⟩ ∧
          b = withRange v ⟨ret, PAGE_SIZE⟩ (pageToPhys page)) v := by
  have whole : iovaAlign (PAGE_SIZE + 0) = PAGE_SIZE := by decide
  rw [map_page_iova_eq]
  refine Meets.mono map_tail_alone fun ret b placed => placed.imp_right ?_
  rintro ⟨iova, new, rfl, rfl⟩
  rw [page_address_aligned, whole] at new ⊢
  refine ⟨fun error => ?_, new, rfl⟩
  have aligned := new.aligned
  simp only [DMA_MAPPING_ERROR, PAGE_SIZE] at error aligned
  omega

end

end UserMapping
