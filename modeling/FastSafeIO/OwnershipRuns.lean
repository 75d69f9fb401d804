import FastSafeIO.SharedDomain

/- The driver functions against the ownership of IOVA ranges, and from them every run
   of a shared domain. -/
namespace OwnershipRuns
open CallTree KernelCalls DmaLayer RxDriver IommuWorld AgentPool RxQueue IovaOwnership SlotFields
  SharedDomain

/- The range that page 63 of a WQE stands for. -/
def batchRange (wi : MpwInfo) : Range := ⟨(wi.dmaInfo 63).iova - 63 * 4096, PAGE_SIZE * 64⟩

/- A slot copied from the page cache knows no batch. -/
def HasBatch (wi : MpwInfo) : Prop := (wi.dmaInfo 63).iova ≠ 0

structure Batched (wi : MpwInfo) : Prop where
  aligned : (batchRange wi).base % PAGE_SIZE = 0
  last : (wi.dmaInfo 63).iova = (batchRange wi).base + 63 * 4096

/- Runs in which batches stay whole. While a WQE is allocated its batch gets a base, no
   mapping of a batch page fails, and a page that the unwinding unmaps alone is not mapped any
   more; a batch unmap that finds something mapped starts at the WQE's own base; a page that
   leaves alone is not mapped any more. -/
def wholeBatches : DomainLimits where
  start _ _ _ _ := True
  call _ job party op r _ :=
    match job, party, op, r with
    | .queue (.allocRxMpwqe _), _, .iommu (.iommuDmaAllocIova _), base => base ≠ (0 : Nat)
    | .queue (.allocRxMpwqe _), _, .iommu (.__iommuMap _ _ _), ret => ret = (0 : Int)
    | .queue (.allocRxMpwqe _), _, .iommu (.iommuIovaToPhys _), phys => phys = (0 : Nat)
    | .queue (.freeRxMpwqe ix _), .queue _ mem, .iommu (.iommuIovaToPhys iova), phys =>
      phys = (0 : Nat) ∨ iova + 63 * 4096 = ((mem.wqe ix).dmaInfo 63).iova
    | .queue (.xdpRedirect _ _), _, .iommu (.iommuIovaToPhys _), phys => phys = (0 : Nat)
    | .queue (.xdpTxComplete _), _, .iommu (.iommuIovaToPhys _), phys => phys = (0 : Nat)
    | .queue .freeRq, _, .iommu (.iommuIovaToPhys _), phys => phys = (0 : Nat)
    | _, _, _, _ => True

theorem aligned_unmap_range {base : Nat} (aligned : base % PAGE_SIZE = 0) :
    unmapRange base (PAGE_SIZE * 64) = ⟨base, PAGE_SIZE * 64⟩ := by
  have whole : iovaAlign (PAGE_SIZE * 64) = PAGE_SIZE * 64 := by decide
  simp [unmapRange, iovaOffset, aligned, whole]

section
variable {u : Nat} {S T : Range → Prop} {w : World} {rq : Rq} (api : DmaApi rq.dev)

include api

theorem batch_unmap_keeps {ix : Nat} {recycle : Bool} {mem : RxMem} {page : Page}
    (kept : HasBatch (mem.wqe ix) → Batched (mem.wqe ix)) (now : Holds u S w)
    (smaller : ∀ r, T r → S r) (out : HasBatch (mem.wqe ix) → ¬ T (batchRange (mem.wqe ix)))
    (mine : HasBatch (mem.wqe ix) → S (batchRange (mem.wqe ix))) :
    Keeps u wholeBatches (.queue (.freeRxMpwqe ix recycle)) (.queue rq mem) rq T
      (mlx5ePageDmaUnmap page (4096 * 64) true) w := by
  simp only [mlx5ePageDmaUnmap, ne_eq, show ¬ (4096 * 64 = 0) by decide, not_false_eq_true, ↓reduceIte,
    Tree.bind_eq]
  refine keeps_page_call now fun addr w owned holds => ?_
  refine keeps_bind owned ?_ fun _ w _ holds => keeps_page_call holds fun _ w _ holds => keeps_done holds
  simp only [Keeps, onDevice, dmaCall, Tree.ask, Tree.interp_call, Tree.interp_done, dmaImpl,
    unmap_iova_route api, Tree.bind_done]
  refine unmap_page_owned (fun r inside => holds r (smaller r inside)) fun phys a found allowed => ?_
  have limit := allowed.resolve_left found
  have batch : HasBatch (mem.wqe ix) := by
    unfold HasBatch
    omega
  have start : sub64 addr (63 * 4096) = (batchRange (mem.wqe ix)).base := by
    rw [(kept batch).last] at limit
    omega
  rw [start, aligned_unmap_range (kept batch).aligned]
  exact ⟨rfl, out batch, holds _ (mine batch)⟩

theorem free_loop_keeps {ix i left : Nat} {recycle noXdpXmit : Bool} {bitmap : Nat → Bool} {mem : RxMem}
    {dmaInfo : Nat → DmaInfo} (kept : HasBatch (mem.wqe ix) → Batched (mem.wqe ix)) (owned : Owned w)
    (now : Holds u S w) (smaller : ∀ r, T r → S r)
    (out : HasBatch (mem.wqe ix) → ¬ T (batchRange (mem.wqe ix)))
    (mine : HasBatch (mem.wqe ix) → S (batchRange (mem.wqe ix))) (fits : i + left = MLX5_MPWRQ_PAGES_PER_WQE) :
    Keeps u wholeBatches (.queue (.freeRxMpwqe ix recycle)) (.queue rq mem) rq T
      (freeLoop rq noXdpXmit bitmap recycle left i dmaInfo) w := by
  simp only [MLX5_MPWRQ_PAGES_PER_WQE] at fits
  induction left generalizing i dmaInfo w with
  | zero => exact keeps_done fun r inside => now r (smaller r inside)
  | succ left ih =>
    unfold freeLoop
    split
    · simp only [api.mapped, ↓reduceIte, Tree.bind_eq]
      by_cases last : i = 63
      · -- page 63 gives the batch back, and no page is left
        subst last
        obtain rfl : left = 0 := by omega
        refine keeps_bind owned (release_keeps now smaller
          (fun page w _ holds => batch_unmap_keeps api kept holds smaller out mine) owned) ?_
        exact fun _ w _ holds => keeps_done holds
      · simp only [inner_slot (show i < 63 by omega)]
        refine keeps_bind owned (release_keeps (S := S) (T := S) now (fun _ inside => inside)
          (fun page w _ holds => skipped_unmap_keeps (show 4096 * 64 ≠ 0 by decide) holds) owned) ?_
        exact fun _ w owned holds => ih owned holds (by omega)
    · exact ih owned now (by omega)

theorem page_alloc_keeps {ix base i : Nat} {party : Party} {dmaInfo : DmaInfo}
    (now : Holds u S w) (some_base : base ≠ 0) (below : i < 64)
    (member : S ⟨base, PAGE_SIZE * 64⟩) :
    Keeps u wholeBatches (.queue (.allocRxMpwqe ix)) party rq S
      (mlx5ePageAlloc rq (prepareSlot true base i dmaInfo)) w := by
  obtain ⟨batched, place, -, -⟩ := prepare_slot_batched base i dmaInfo
  generalize prepareSlot true base i dmaInfo = slot at *
  unfold mlx5ePageAlloc
  split
  · refine keeps_page_call now fun got w _ holds => ?_
    cases got <;> exact keeps_done holds
  · simp only [mlx5ePageAllocPool, Tree.bind_eq]
    refine keeps_page_call now fun got w _ holds => ?_
    cases got with
    | some got => exact keeps_done holds
    | none =>
      refine keeps_page_call holds fun got w owned holds => ?_
      cases got with
      | none => exact keeps_done holds
      | some page =>
        refine keeps_bind (S := S) owned ?_ fun addr w _ holds => ?_
        · simp only [mapSlotPage, batched, ↓reduceIte, Keeps, onDevice, dmaCall, Tree.ask,
            Tree.interp_call, Tree.interp_done, dmaImpl, map_iova_route api, Tree.bind_done]
          refine batch_map_owned owned holds (by omega) member ?_ fun _ _ _ _ allowed => allowed
          rintro x ⟨low, high⟩
          simp only [Range.Has, PAGE_SIZE] at low high ⊢
          omega
        · split
          · exact keeps_page_call holds fun _ w _ holds => keeps_done holds
          · exact keeps_page_call holds fun _ w _ holds => keeps_done holds

theorem alloc_loop_keeps {ix base i left : Nat} {party : Party} {dmaInfo : Nat → DmaInfo}
    {mtts : Nat → Nat} (owned : Owned w) (now : Holds u S w) (some_base : base ≠ 0)
    (member : S ⟨base, PAGE_SIZE * 64⟩) (fits : i + left = 64) :
    Keeps u wholeBatches (.queue (.allocRxMpwqe ix)) party rq S
      (allocLoop rq base left i dmaInfo mtts) w := by
  induction left generalizing i dmaInfo mtts w with
  | zero => exact keeps_done now
  | succ left ih =>
    simp only [allocLoop, api.mapped, Tree.bind_eq]
    refine keeps_bind owned (page_alloc_keeps api now some_base (by omega) member) ?_
    rintro ⟨err, di⟩ w owned holds
    dsimp only
    split
    · exact keeps_done holds
    · exact ih owned holds (by omega)

/- A batched slot is without free_iova, so that unwinding it unmaps nothing; a page from the
   cache is unmapped alone. -/
theorem err_unmap_keeps {L : DomainLimits} {job : DomainJob} {party : Party} {count : Nat}
    {dmaInfo : Nat → DmaInfo} (owned : Owned w) (now : Holds u S w)
    (slots : ∀ i < count, (dmaInfo i).batchIova = true →
      (dmaInfo i).iovaSize ≠ 0 ∧ (dmaInfo i).freeIova = false)
    (gone : ∀ iova phys a, L.call u job party (.iommu (.iommuIovaToPhys iova)) phys a →
      phys = (0 : Nat)) :
    Keeps u L job party rq S (errUnmap rq count dmaInfo) w := by
  induction count generalizing dmaInfo w with
  | zero => exact keeps_done now
  | succ i ih =>
    simp only [errUnmap, Tree.bind_eq]
    refine keeps_bind owned (release_keeps (S := S) (T := S) now (fun _ inside => inside)
      (fun page w _ holds => ?_) owned) fun _ w owned holds => ih owned holds fun j below => ?_
    · split
      · rename_i batched
        obtain ⟨some_size, kept⟩ := slots i (by omega) batched
        rw [kept]
        exact skipped_unmap_keeps some_size holds
      · exact single_unmap_keeps api holds gone
    · rw [Function.update_of_ne (by omega)]
      exact slots j (by omega)

omit api in
theorem holds_with {r : Range} (holds : Holds u S w) (mine : Owns u r w) :
    Holds u (with_range S r) w := by
  rintro s (inside | rfl)
  · exact holds s inside
  · exact mine

/- What an allocation leaves: nothing of its own when it failed or lost sight of its batch,
   else a batch that is new to the queue. -/
def AllocResult (u : Nat) (S : Range → Prop) (out : Int × MpwInfo × (Nat → Nat)) (w : World) : Prop :=
  Holds u S w ∧ (out.1 = 0 → HasBatch out.2.1 →
    Batched out.2.1 ∧ ¬ S (batchRange out.2.1) ∧ Owns u (batchRange out.2.1) w)

omit api in
theorem alloc_result_later {out : Int × MpwInfo × (Nat → Nat)} {a b : World}
    (result : AllocResult u S out a) (moved : Undisturbed u a b) : AllocResult u S out b :=
  ⟨holds_later result.1 moved, fun good batch =>
    ⟨(result.2 good batch).1, (result.2 good batch).2.1, moved.1 _ (result.2 good batch).2.2⟩⟩

theorem alloc_batch_keeps {ix base : Nat} {party : Party} {wi : MpwInfo} (owned : Owned w)
    (holds : Holds u (with_range S ⟨base, PAGE_SIZE * 64⟩) w) (some_base : base ≠ 0)
    (aligned : base % PAGE_SIZE = 0) (out : ¬ S ⟨base, PAGE_SIZE * 64⟩)
    (last : FreesLast wi.dmaInfo) :
    Safe owning wholeBatches u (.queue (.allocRxMpwqe ix)) party (AllocResult u S)
      (onDevice rq.dev (allocBatch rq wi base)) w := by
  have smaller : ∀ w, Holds u (with_range S ⟨base, PAGE_SIZE * 64⟩) w → Holds u S w :=
    fun w holds r inside => holds r (Or.inl inside)
  simp only [allocBatch, onDevice, Tree.bind_eq, Tree.pure_eq, Tree.interp_bind]
  refine Safe.bind owned (Safe.returning (alloc_loop_keeps api owned holds some_base (Or.inr rfl) rfl)
    (alloc_loop_fields rq base MLX5_MPWRQ_PAGES_PER_WQE 0 wi.dmaInfo _).interp) ?_
  rintro run w owned ⟨holds, fields⟩
  have visited : ∀ i < run.count, AllocFields rq (prepareSlot true base i (wi.dmaInfo i)) (run.dmaInfo i) :=
    fun i reached => api.mapped ▸ fields.visited i (Nat.zero_le i) reached
  split
  · rename_i bad
    have cut : run.count < 64 := by simpa [MLX5_MPWRQ_PAGES_PER_WQE] using fields.cut bad
    simp only [Tree.interp_bind]
    refine Safe.bind owned (err_unmap_keeps (S := with_range S ⟨base, PAGE_SIZE * 64⟩) api owned holds
      (fun i below batched => ?_) fun _ _ _ allowed => allowed) fun _ w _ holds => ?_
    · have same := alloc_fields_batched (visited i below) (Or.inl batched)
      rw [same.2.2.2.1, (prepare_slot_batched base i (wi.dmaInfo i)).2.2.2]
      exact ⟨by decide, fields.free i (last i (by omega))⟩
    · exact owned_done (fun _ _ => alloc_result_later) ⟨smaller w holds, fun good => absurd good bad⟩
  · rename_i good
    have all : run.count = 64 := by
      simpa [MLX5_MPWRQ_PAGES_PER_WQE] using fields.done (not_not.mp good)
    refine owned_done (fun _ _ => alloc_result_later) ⟨smaller w holds, fun _ batch => ?_⟩
    have place : (run.dmaInfo 63).iova = base + 63 * 4096 :=
      (alloc_fields_batched (visited 63 (by omega)) (Or.inr batch)).2.1.trans
        (prepare_slot_batched base 63 (wi.dmaInfo 63)).2.1
    have range : batchRange ⟨run.dmaInfo, fun _ => false⟩ = ⟨base, PAGE_SIZE * 64⟩ := by
      unfold batchRange
      rw [place, Nat.add_sub_cancel]
    have kept : Batched ⟨run.dmaInfo, fun _ => false⟩ := by
      constructor
      · rw [range]
        exact aligned
      · rw [range]
        exact place
    refine ⟨kept, ?_⟩
    dsimp only
    rw [range]
    exact ⟨out, holds _ (Or.inr rfl)⟩

theorem alloc_wqe_keeps {ix : Nat} {party : Party} {wi : MpwInfo} (now : Holds u S w)
    (owned : Owned w) (last : FreesLast wi.dmaInfo) :
    Safe owning wholeBatches u (.queue (.allocRxMpwqe ix)) party (AllocResult u S)
      (onDevice rq.dev (mlx5eAllocRxMpwqe rq wi)) w := by
  have based : ∀ w, Owned w → Holds u S w →
      Safe owning wholeBatches u (.queue (.allocRxMpwqe ix)) party (AllocResult u S)
        (onDevice rq.dev ((batchBase rq).bind (allocBatch rq wi))) w := by
    intro w owned holds
    simp only [batchBase, api.mapped, ↓reduceIte]
    refine owned_call (fun _ _ => holds_later) holds (fun _ _ => trivial) ?_
    intro a base b owned kept holds some_base run
    rcases exec_alloc_iova.mp run with ⟨none, _⟩ | ⟨_, aligned, _, nonempty, available, rfl⟩
    · exact absurd none some_base
    · obtain ⟨fresh, out⟩ := allocated_fresh owned holds available nonempty
      exact alloc_batch_keeps api kept (holds_with fresh.1 fresh.2.1) some_base aligned out last
  simp only [mlx5eAllocRxMpwqe, Tree.bind_eq, Tree.pure_eq]
  split
  · refine keeps_page_call now fun enough w owned holds => ?_
    split
    · exact based w owned holds
    · exact owned_done (fun _ _ => alloc_result_later)
        ⟨holds, fun good => absurd good (show ¬ -ENOMEM = 0 by decide)⟩
  · exact based w owned now

theorem xdp_handle_keeps {L : DomainLimits} {job : DomainJob} {party : Party} {page : Page}
    (owned : Owned w) (now : Holds u S w)
    (gone : ∀ iova phys a, L.call u job party (.iommu (.iommuIovaToPhys iova)) phys a →
      phys = (0 : Nat)) : Keeps u L job party rq S (mlx5eXdpHandle rq page) w := by
  simp only [mlx5eXdpHandle, Tree.bind_eq]
  split
  · refine keeps_bind owned (single_unmap_keeps api now gone) fun _ w _ holds => ?_
    exact keeps_page_call holds fun _ w _ holds => keeps_done holds
  · exact keeps_page_call now fun _ w _ holds => keeps_done holds

theorem drain_keeps {L : DomainLimits} {job : DomainJob} {party : Party} {pages : List Page}
    (owned : Owned w) (now : Holds u S w)
    (gone : ∀ iova phys a, L.call u job party (.iommu (.iommuIovaToPhys iova)) phys a →
      phys = (0 : Nat)) : Keeps u L job party rq S (drainPages pages) w := by
  induction pages generalizing w with
  | nil => exact keeps_done now
  | cons page rest ih =>
    simp only [drainPages, Tree.bind_eq]
    refine keeps_bind owned (release_dynamic_keeps (S := S) (T := S) now (fun _ inside => inside)
      (fun w _ holds => single_unmap_keeps api holds gone) owned) ?_
    exact fun _ w owned holds => ih owned holds

end

/- WQE ix is posted with batch r. -/
def PostedAt (mem : RxMem) (ix : Nat) (r : Range) : Prop :=
  mem.posted ix = true ∧ HasBatch (mem.wqe ix) ∧ r = batchRange (mem.wqe ix)

def PostedBut (ix : Nat) (mem : RxMem) (r : Range) : Prop := ∃ iy, iy ≠ ix ∧ PostedAt mem iy r

def Posted (mem : RxMem) (r : Range) : Prop := ∃ ix, PostedAt mem ix r

structure QueueOwns (u : Nat) (rq : Rq) (mem : RxMem) (w : World) : Prop where
  api : DmaApi rq.dev
  last : ∀ ix, FreesLast (mem.wqe ix).dmaInfo
  batched : ∀ ix r, PostedAt mem ix r → Batched (mem.wqe ix)
  distinct : ∀ ix iy r, PostedAt mem ix r → PostedAt mem iy r → ix = iy
  holds : Holds u (Posted mem) w

def InUse (mapped : Nat → Option (Nat × Nat)) (r : Range) : Prop :=
  ∃ h e, mapped h = some e ∧ r = unmapRange e.1 e.2

structure ClientOwns (u : Nat) (dev : Device) (mapped : Nat → Option (Nat × Nat)) (w : World) :
    Prop where
  api : DmaApi dev
  distinct : ∀ h k d e, mapped h = some d → mapped k = some e →
    unmapRange d.1 d.2 = unmapRange e.1 e.2 → h = k
  holds : Holds u (InUse mapped) w

def PartyOwns (u : Nat) : Party → World → Prop
  | .queue rq mem, w => QueueOwns u rq mem w
  | .client dev mapped, w => ClientOwns u dev mapped w

theorem party_owns_later {u : Nat} {party : Party} {a b : World} (owns : PartyOwns u party a)
    (moved : Undisturbed u a b) : PartyOwns u party b := by
  cases party with
  | queue rq mem => exact { owns with holds := holds_later owns.holds moved }
  | client dev mapped => exact { owns with holds := holds_later owns.holds moved }

section
variable {u : Nat} {rq : Rq} {mem : RxMem} {w : World} {wi : MpwInfo} {ix : Nat}

/- Marking or rewriting a WQE without moving its batch. -/
theorem queue_owns_same {mem' : RxMem} (owns : QueueOwns u rq mem w)
    (posted : mem'.posted = mem.posted)
    (same : ∀ ix, (mem'.wqe ix).dmaInfo = (mem.wqe ix).dmaInfo) : QueueOwns u rq mem' w := by
  have range : ∀ ix, batchRange (mem'.wqe ix) = batchRange (mem.wqe ix) := fun ix => by
    unfold batchRange
    rw [same]
  have before : ∀ ix r, PostedAt mem' ix r → PostedAt mem ix r := by
    rintro ix r ⟨up, batch, rfl⟩
    refine ⟨posted ▸ up, ?_, range ix⟩
    unfold HasBatch at batch ⊢
    rwa [← same]
  exact
    { api := owns.api
      last := fun ix => by rw [same]; exact owns.last ix
      batched := fun ix r up => by
        have old := owns.batched ix r (before ix r up)
        exact ⟨by rw [range]; exact old.aligned, by rw [range, same]; exact old.last⟩
      distinct := fun ix iy r first second =>
        owns.distinct ix iy r (before ix r first) (before iy r second)
      holds := by
        rintro r ⟨ix, up⟩
        exact owns.holds r ⟨ix, before ix r up⟩ }

theorem mark_xdp_same (mem : RxMem) (ix i : Nat) (j : Nat) :
    ((mem.markXdp ix i).wqe j).dmaInfo = (mem.wqe j).dmaInfo := by
  simp only [RxMem.markXdp]
  by_cases same : j = ix
  · subst same
    simp [MpwInfo.setBit]
  · rw [Function.update_of_ne same]

theorem last_set_wqe {posted : Bool} (last : ∀ ix, FreesLast (mem.wqe ix).dmaInfo)
    (here : FreesLast wi.dmaInfo) (j : Nat) : FreesLast ((mem.setWqe ix wi posted).wqe j).dmaInfo := by
  simp only [RxMem.setWqe]
  by_cases same : j = ix
  · subst same
    simpa using here
  · simpa [Function.update_of_ne same] using last j

/- The WQE is no longer posted, or not yet. -/
theorem queue_owns_without (owns : QueueOwns u rq mem w) (here : FreesLast wi.dmaInfo)
    {now : World} (holds : Holds u (PostedBut ix mem) now) :
    QueueOwns u rq (mem.setWqe ix wi false) now := by
  have other : ∀ {j r}, PostedAt (mem.setWqe ix wi false) j r →
      j ≠ ix ∧ PostedAt mem j r ∧ (mem.setWqe ix wi false).wqe j = mem.wqe j := by
    rintro j r ⟨up, batch, rfl⟩
    have distinct : j ≠ ix := by
      rintro rfl
      simp [RxMem.setWqe] at up
    simp only [RxMem.setWqe, Function.update_of_ne distinct] at up batch ⊢
    exact ⟨distinct, ⟨up, batch, rfl⟩, trivial⟩
  exact
    { api := owns.api
      last := last_set_wqe owns.last here
      batched := fun j r up => by
        obtain ⟨_, before, same⟩ := other up
        rw [same]
        exact owns.batched j r before
      distinct := fun j k r first second =>
        owns.distinct j k r (other first).2.1 (other second).2.1
      holds := by
        rintro r ⟨j, up⟩
        exact holds r ⟨j, (other up).1, (other up).2.1⟩ }

/- The WQE is posted; its batch, if it has one, is new to the queue. -/
theorem queue_owns_with (owns : QueueOwns u rq mem w) (here : FreesLast wi.dmaInfo)
    {now : World} (holds : Holds u (Posted mem) now)
    (fresh : HasBatch wi → Batched wi ∧ ¬ Posted mem (batchRange wi) ∧ Owns u (batchRange wi) now) :
    QueueOwns u rq (mem.setWqe ix wi true) now := by
  have self : (mem.setWqe ix wi true).wqe ix = wi := by simp [RxMem.setWqe]
  have either : ∀ {j r}, PostedAt (mem.setWqe ix wi true) j r →
      j = ix ∧ HasBatch wi ∧ r = batchRange wi ∨
      j ≠ ix ∧ PostedAt mem j r ∧ (mem.setWqe ix wi true).wqe j = mem.wqe j := by
    rintro j r ⟨up, batch, rfl⟩
    by_cases same : j = ix
    · subst same
      rw [self] at batch
      exact Or.inl ⟨rfl, batch, by rw [self]⟩
    · simp only [RxMem.setWqe, Function.update_of_ne same] at up batch ⊢
      exact Or.inr ⟨same, ⟨up, batch, rfl⟩, trivial⟩
  exact
    { api := owns.api
      last := last_set_wqe owns.last here
      batched := fun j r up => by
        rcases either up with ⟨rfl, batch, _⟩ | ⟨_, before, same⟩
        · rw [self]
          exact (fresh batch).1
        · rw [same]
          exact owns.batched j r before
      distinct := fun j k r first second => by
        rcases either first with ⟨rfl, batch, rfl⟩ | ⟨_, before, _⟩
        · rcases either second with ⟨rfl, _⟩ | ⟨_, taken, _⟩
          · rfl
          · exact absurd ⟨k, taken⟩ (fresh batch).2.1
        · rcases either second with ⟨rfl, batch, rfl⟩ | ⟨_, after, _⟩
          · exact absurd ⟨j, before⟩ (fresh batch).2.1
          · exact owns.distinct j k r before after
      holds := by
        rintro r ⟨j, up⟩
        rcases either up with ⟨_, batch, rfl⟩ | ⟨_, before, _⟩
        · exact (fresh batch).2.2
        · exact holds r ⟨j, before⟩ }

theorem queue_owns_mtts (owns : QueueOwns u rq mem w) (mtts : Nat → Nat → Nat) :
    QueueOwns u rq { mem with inlineMtts := mtts } w :=
  queue_owns_same owns rfl fun _ => rfl

end

section
variable {u : Nat} {w : World}

theorem party_done {L : DomainLimits} {job : DomainJob} {party out : Party}
    (now : PartyOwns u out w) :
    Safe owning L u job party (PartyOwns u) (.done out) w :=
  owned_done (fun _ _ owns moved => party_owns_later owns moved) now

theorem queue_job_is_safe {rq : Rq} {mem : RxMem} {job : RxJob} (owned : Owned w)
    (owns : QueueOwns u rq mem w) (can : poolJobs job ∧ RxQueue.ready job mem) :
    Safe owning wholeBatches u (.queue job) (.queue rq mem) (PartyOwns u)
      (domainBody (.queue job) (.queue rq mem)) w := by
  simp only [domainBody, Tree.bind_eq, Tree.pure_eq]
  cases job with
  | allocRxMpwqe ix =>
    simp only [RxQueue.body, Tree.bind_eq, Tree.pure_eq, Tree.bind_assoc]
    refine Safe.bind owned (Safe.returning (alloc_wqe_keeps owns.api owns.holds owned (owns.last ix))
      (alloc_wqe_frees_last rq (owns.last ix)).interp) ?_
    rintro ⟨err, wi, mtts⟩ w _ ⟨⟨holds, result⟩, here⟩
    refine party_done (show QueueOwns u rq _ _ from queue_owns_mtts ?_ _)
    by_cases good : err = 0
    · simpa [good] using queue_owns_with owns here holds (result good)
    · have bad : (err == 0) = false := by simpa using good
      rw [bad]
      refine queue_owns_without owns here ?_
      exact fun r ⟨iy, _, up⟩ => holds r ⟨iy, up⟩
  | freeRxMpwqe ix recycle =>
    simp only [RxQueue.body, mlx5eFreeRxMpwqe, onDevice, Tree.bind_eq, Tree.pure_eq, Tree.interp_bind,
      Tree.interp_done, Tree.bind_assoc, Tree.done_bind]
    have smaller : ∀ r, PostedBut ix mem r → Posted mem r := fun r ⟨iy, _, up⟩ => ⟨iy, up⟩
    have own : HasBatch (mem.wqe ix) → PostedAt mem ix (batchRange (mem.wqe ix)) :=
      fun batch => ⟨can.2, batch, rfl⟩
    have out : HasBatch (mem.wqe ix) → ¬ PostedBut ix mem (batchRange (mem.wqe ix)) := by
      rintro batch ⟨iy, other, up⟩
      exact other (owns.distinct ix iy _ (own batch) up).symm
    refine Safe.bind owned (Safe.returning (free_loop_keeps owns.api
      (fun batch => owns.batched ix _ (own batch)) owned owns.holds smaller out
      (fun batch => ⟨ix, own batch⟩) rfl)
      (free_loop_frees_last rq _ _ recycle _ _ (owns.last ix)).interp) ?_
    rintro dmaInfo w _ ⟨holds, here⟩
    exact party_done (queue_owns_without owns here holds)
  | xdpRedirect ix i =>
    simp only [RxQueue.body]
    split
    · simp only [Tree.bind_eq, Tree.pure_eq, Tree.bind_assoc, Tree.done_bind]
      refine Safe.bind owned
        (xdp_handle_keeps owns.api owned owns.holds fun _ _ _ allowed => allowed) ?_
      intro _ w _ holds
      exact party_done (queue_owns_same { owns with holds := holds } rfl (mark_xdp_same mem ix i))
    · exact party_done owns
  | xdpTx ix i =>
    simp only [RxQueue.body]
    split
    · exact party_done (queue_owns_same owns rfl (mark_xdp_same mem ix i))
    · exact party_done owns
  | xdpTxComplete recycle =>
    simp only [RxQueue.body]
    split
    · exact party_done owns
    · simp only [Tree.bind_eq, Tree.pure_eq, Tree.bind_assoc, Tree.done_bind, mlx5eFreeXdpsqDesc]
      refine Safe.bind owned (release_dynamic_keeps (S := Posted mem) (T := Posted mem) owns.holds
        (fun _ inside => inside)
        (fun w _ holds => single_unmap_keeps owns.api holds fun _ _ _ allowed => allowed) owned) ?_
      intro _ w _ holds
      exact party_done (queue_owns_same { owns with holds := holds } rfl fun _ => rfl)
  | freeRq =>
    simp only [RxQueue.body, mlx5eFreeRq, onDevice, Tree.bind_eq, Tree.pure_eq]
    have drained : ∀ w, Owned w → Holds u (Posted mem) w →
        Keeps u wholeBatches (.queue .freeRq) (.queue rq mem) rq (Posted mem) mlx5eFreeRq w := by
      intro w _ holds
      refine keeps_page_call holds fun pages w owned holds => ?_
      exact drain_keeps owns.api owned holds fun _ _ _ allowed => allowed
    simp only [Tree.bind_assoc, Tree.done_bind]
    refine Safe.bind owned (drained w owned owns.holds) ?_
    intro _ w _ holds
    exact party_done { owns with holds := holds }
  | buildShampoHdUmr => exact absurd can.1 id
  | shampoDeallocHd => exact absurd can.1 id
  | freeRxShampoHdEntry => exact absurd can.1 id

theorem client_job_is_safe {dev : Device} {mapped : Nat → Option (Nat × Nat)} {job : DomainJob}
    (owned : Owned w) (owns : ClientOwns u dev mapped w)
    (can : domainReady job (.client dev mapped)) :
    Safe owning wholeBatches u job (.client dev mapped) (PartyOwns u)
      (domainBody job (.client dev mapped)) w := by
  cases job with
  | queue job => exact absurd can id
  | dmaMapPageAttrs h page offset size =>
    simp only [domainBody, map_route owns.api, Tree.bind_eq, Tree.pure_eq]
    refine Safe.bind owned (map_page_owned owned owns.holds) ?_
    rintro addr w _ ⟨holds, result⟩
    split
    · exact party_done { owns with holds := holds }
    · rename_i good
      obtain ⟨mine, out⟩ := result good
      refine party_done ⟨owns.api, fun j k d e first second equal => ?_, ?_⟩
      · by_cases left : j = h
        · by_cases right : k = h
          · rw [left, right]
          · subst left
            rw [Function.update_self] at first
            rw [Function.update_of_ne right] at second
            cases first
            exact absurd ⟨k, e, second, equal⟩ out
        · by_cases right : k = h
          · subst right
            rw [Function.update_self] at second
            rw [Function.update_of_ne left] at first
            cases second
            exact absurd ⟨j, d, first, equal.symm⟩ out
          · rw [Function.update_of_ne left] at first
            rw [Function.update_of_ne right] at second
            exact owns.distinct j k d e first second equal
      · rintro r ⟨j, e, entry, rfl⟩
        by_cases here : j = h
        · subst here
          rw [Function.update_self] at entry
          cases entry
          exact mine
        · rw [Function.update_of_ne here] at entry
          exact holds _ ⟨j, e, entry, rfl⟩
  | dmaUnmapPageAttrs h =>
    simp only [domainBody]
    split
    · exact party_done owns
    · rename_i addr size entry
      have other : ∀ {j e}, Function.update mapped h none j = some e → j ≠ h ∧ mapped j = some e := by
        intro j e present
        have distinct : j ≠ h := by
          rintro rfl
          simp at present
        exact ⟨distinct, by rwa [Function.update_of_ne distinct] at present⟩
      have smaller : ∀ r, InUse (Function.update mapped h none) r → InUse mapped r := by
        rintro r ⟨j, e, present, rfl⟩
        exact ⟨j, e, (other present).2, rfl⟩
      have out : ¬ InUse (Function.update mapped h none) (unmapRange addr size) := by
        rintro ⟨j, e, present, equal⟩
        obtain ⟨distinct, before⟩ := other present
        exact distinct (owns.distinct h j _ e entry before equal).symm
      simp only [unmap_route owns.api, Tree.bind_eq, Tree.pure_eq]
      refine Safe.bind owned (unmap_page_owned (S := InUse (Function.update mapped h none))
        (fun r inside => owns.holds r (smaller r inside)) fun _ _ _ _ =>
          ⟨rfl, out, owns.holds _ ⟨h, _, entry, rfl⟩⟩) ?_
      intro _ w _ holds
      refine party_done ⟨owns.api, fun j k d e first second equal => ?_, holds⟩
      exact owns.distinct j k d e (other first).2 (other second).2 equal

theorem party_job_is_safe {party : Party} {job : DomainJob} (owned : Owned w)
    (owns : PartyOwns u party w) (can : domainReady job party) :
    Safe owning wholeBatches u job party (PartyOwns u) (domainBody job party) w := by
  cases party with
  | client dev mapped => exact client_job_is_safe owned owns can
  | queue rq mem =>
    cases job with
    | queue job => exact queue_job_is_safe owned owns can
    | dmaMapPageAttrs => exact absurd can id
    | dmaUnmapPageAttrs => exact absurd can id

end

/- A queue or a client that has done nothing yet. -/
def Newcomer : Party → Prop
  | .queue rq mem => DmaApi rq.dev ∧ mem = .initial
  | .client dev mapped => DmaApi dev ∧ mapped = fun _ => none

def startDomain (fq : Bool) (party : Nat → Party) : DomainConfig :=
  ⟨fun u => .idle (party u), startWorld fq⟩

theorem newcomer_owns {u : Nat} {party : Party} {w : World} (new : Newcomer party) :
    PartyOwns u party w := by
  cases party with
  | queue rq mem =>
    obtain ⟨api, rfl⟩ := new
    have none : ∀ ix r, ¬ PostedAt .initial ix r := fun _ _ up => Bool.false_ne_true up.1
    exact ⟨api, fun _ _ _ => rfl, fun ix r up => absurd up (none ix r),
      fun ix _ r up => absurd up (none ix r), fun r ⟨ix, up⟩ => absurd up (none ix r)⟩
  | client dev mapped =>
    obtain ⟨api, rfl⟩ := new
    refine ⟨api, fun _ _ _ _ entry => by simp at entry, ?_⟩
    rintro r ⟨h, e, entry, _⟩
    simp at entry

theorem start_world_owned (fq : Bool) : Owned (startWorld fq) where
  apart := List.Pairwise.nil
  nonempty e live := by simp [startWorld] at live
  owner e live := by simp [startWorld] at live
  parkedApart := List.Pairwise.nil
  parkedOwner e waiting := by simp [startWorld] at waiting
  mapped x f present := by simp [startWorld] at present

/- Live ranges are disjoint, every PTE lies inside exactly one of them, and every call
   that gives a range back names one of them. -/
structure WellOwned (d : DomainConfig) : Prop where
  disjoint : d.world.live.Pairwise fun e f => e.2.Disjoint f.2
  inside : ∀ x frame, d.world.pt x = some frame → ∃! e, e ∈ d.world.live ∧ e.2.Has x
  named : ∀ u job party iova size gather (rest : Unit → Kernel Party),
    d.phase u = .busy job party (.call (.iommu (.iommuDmaFreeIova iova size gather)) rest) →
    ∃ v, (v, (⟨iova, size⟩ : Range)) ∈ d.world.live

def OwnershipKept (L : DomainLimits) (fq : Bool) (party : Nat → Party) : Prop :=
  ∀ d, Reaches domainPool L (startDomain fq party) d → WellOwned d

theorem whole_batches_keep_ownership (fq : Bool) (party : Nat → Party)
    (new : ∀ u, Newcomer (party u)) : OwnershipKept wholeBatches fq party := by
  intro d run
  have stable : ∀ u mem a b, PartyOwns u mem a → owning.inv b → owning.rely u a b → PartyOwns u mem b :=
    fun _ _ _ _ owns _ moved => party_owns_later owns moved
  have jobs : ∀ u job party w, owning.inv w → PartyOwns u party w → domainPool.ready u job party →
      wholeBatches.start u job party w →
      Safe owning wholeBatches u job party (Ended owning PartyOwns u job party)
        (domainPool.body job party) w :=
    fun _ _ _ _ owned owns can _ => Safe.mono (party_job_is_safe owned owns can)
      fun _ _ _ owns => ⟨owns, trivial⟩
  have start : ConfigOk owning wholeBatches PartyOwns (startDomain fq party) :=
    ⟨start_world_owned fq, fun u => newcomer_owns (new u)⟩
  have owned := (run_keeps_config_ok PartyOwns stable jobs start run).1
  exact ⟨owned.apart, fun _ _ present => mapped_in_one owned present,
    fun _ _ _ _ _ _ _ busy => run_calls_ok PartyOwns stable jobs start run busy⟩

def idleClient : Party := .client regularRq.dev fun _ => none

def idleQueue : Party := .queue regularRq .initial

theorem idle_client_new : Newcomer idleClient := ⟨regular_rq_api, rfl⟩

theorem idle_queue_new : Newcomer idleQueue := ⟨regular_rq_api, rfl⟩

/- Answers under which the batches of a queue stay whole; slot 63 of the WQE lies at last. -/
def wholeAnswer (last : Nat) : (op : KernelOp) → op.Ans → Bool
  | .iommu (.iommuDmaAllocIova _), base => base != (0 : Nat)
  | .iommu (.__iommuMap _ _ _), ret => ret == (0 : Int)
  | .iommu (.iommuIovaToPhys iova), phys => phys == (0 : Nat) || iova + 63 * 4096 == last
  | _, _ => true

theorem whole_alloc_call {u ix : Nat} {mem : RxMem} {op : KernelOp} {r : op.Ans} {w : World}
    (whole : wholeAnswer 0 op r = true) :
    wholeBatches.call u (.queue (.allocRxMpwqe ix)) (.queue regularRq mem) op r w := by
  cases op with
  | page op => trivial
  | iommu op =>
    cases op
    case iommuDmaAllocIova => simpa [wholeAnswer, wholeBatches] using whole
    case __iommuMap => simpa [wholeAnswer, wholeBatches] using whole
    case iommuIovaToPhys => simpa [wholeAnswer, wholeBatches] using whole
    all_goals trivial

theorem whole_free_call {u ix : Nat} {recycle : Bool} {mem : RxMem} {op : KernelOp} {r : op.Ans}
    {w : World} (whole : wholeAnswer ((mem.wqe ix).dmaInfo 63).iova op r = true) :
    wholeBatches.call u (.queue (.freeRxMpwqe ix recycle)) (.queue regularRq mem) op r w := by
  cases op with
  | page op => trivial
  | iommu op =>
    cases op
    case iommuIovaToPhys => simpa [wholeAnswer, wholeBatches] using whole
    all_goals trivial

/- A queue fills a WQE, a client of the same domain is given a range, and the queue frees its WQE
   up to the call that gives the batch back. -/

def firstBatch : Option (List KernelEvent × RxMem × World) :=
  runBy (limited (wholeAnswer 0) (exec 0)) plentiful.answer (body regularRq (.allocRxMpwqe 0) .initial)
    (startWorld false)

def clientAsks (w : World) : Option (Kernel Party × World) :=
  advance (exec 1) plentiful.answer 2 (domainBody (.dmaMapPageAttrs 0 samplePage 0 4096) idleClient) w

def batchLeaves (mem : RxMem) (w : World) : Option (Kernel Party × World) :=
  advance (limited (wholeAnswer ((mem.wqe 0).dmaInfo 63).iova) (exec 0)) plentiful.answer 257
    (domainBody (.queue (.freeRxMpwqe 0 false)) (.queue regularRq mem)) w

def freedNext : Kernel Party → Option Range
  | .call (.iommu (.iommuDmaFreeIova iova size _)) _ => some ⟨iova, size⟩
  | _ => none

theorem freed_next_call {t : Kernel Party} {r : Range} (next : freedNext t = some r) :
    ∃ gather rest, t = .call (.iommu (.iommuDmaFreeIova r.base r.size gather)) rest := by
  unfold freedNext at next
  split at next
  · cases next
    exact ⟨_, _, rfl⟩
  · cases next

theorem batch_and_client_run : (firstBatch.bind fun first => (clientAsks first.2.2).bind fun mid =>
    (batchLeaves first.2.1 mid.2).map fun out => (first.2.1.posted 0, freedNext out.1, out.2.live)) =
      some (true, some ⟨0x100000, 0x40000⟩, [(1, ⟨0x200000, 0x1000⟩), (0, ⟨0x100000, 0x40000⟩)]) := by
  decide +kernel

def queueAndClient (u : Nat) : Party := if u = 0 then idleQueue else idleClient

theorem queue_and_client_new (u : Nat) : Newcomer (queueAndClient u) := by
  unfold queueAndClient
  split
  · exact idle_queue_new
  · exact idle_client_new

/-- The 64 pages of a WQE give back the range of their batch as a whole, while a client holds a range
    of its own. -/
theorem freed_batch_is_well_owned : ∃ (d : DomainConfig) (mem : RxMem) (gather : Option IotlbGather)
    (rest : Unit → Kernel Party), Reaches domainPool wholeBatches (startDomain false queueAndClient) d ∧
      d.phase 0 = .busy (.queue (.freeRxMpwqe 0 false)) (.queue regularRq mem)
        (.call (.iommu (.iommuDmaFreeIova 0x100000 0x40000 gather)) rest) ∧
      d.world.live = [(1, ⟨0x200000, 0x1000⟩), (0, ⟨0x100000, 0x40000⟩)] ∧ WellOwned d := by
  obtain ⟨⟨trace, mem, filled⟩, ran, rest⟩ := Option.bind_eq_some_iff.mp batch_and_client_run
  obtain ⟨⟨asked, mid⟩, asks, rest⟩ := Option.bind_eq_some_iff.mp rest
  obtain ⟨⟨left, last⟩, leaves, facts⟩ := Option.map_eq_some_iff.mp rest
  obtain ⟨posted, facts⟩ := Prod.mk.inj facts
  obtain ⟨next, live⟩ := Prod.mk.inj facts
  obtain ⟨gather, cont, rfl⟩ := freed_next_call next
  have ready : poolJobs (.allocRxMpwqe 0) ∧ RxQueue.ready (.allocRxMpwqe 0) .initial := ⟨trivial, rfl⟩
  have alloc := queue_job_reaches (L := wholeBatches) (u := 0)
    (f := (startDomain false queueAndClient).phase) rfl ready trivial
    (fun _ _ _ _ here => ⟨whole_alloc_call (limited_some.mp here).1, (limited_some.mp here).2⟩)
    (runBy_exec ran)
  let filledQueue : DomainConfig :=
    ⟨Function.update (startDomain false queueAndClient).phase 0 (.idle (.queue regularRq mem)), filled⟩
  have client := start_advance_reaches (P := domainPool) (L := wholeBatches) (u := 1) (c := filledQueue)
    (.dmaMapPageAttrs 0 samplePage 0 4096) idleClient rfl rfl trivial
    (fun _ _ _ _ same => ⟨trivial, same⟩) asks
  have free := start_advance_reaches (P := domainPool) (L := wholeBatches) (u := 0)
    (c := ⟨Function.update filledQueue.phase 1
      (.busy (.dmaMapPageAttrs 0 samplePage 0 4096) idleClient asked), mid⟩)
    (.queue (.freeRxMpwqe 0 false)) (.queue regularRq mem) rfl ⟨trivial, posted⟩ trivial
    (fun _ _ _ _ here => ⟨whole_free_call (limited_some.mp here).1, (limited_some.mp here).2⟩) leaves
  have run := (alloc.trans client).trans free
  exact ⟨_, mem, gather, cont, run, rfl, live,
    whole_batches_keep_ownership false _ queue_and_client_new _ run⟩

def mapRefused : Choices where
  cacheGet _ := none
  cacheTakes := true
  freshPage _ := some samplePage
  iovaBase _ := 0x100000
  attachFails _ := false
  mapFails _ := true

/- When the mapping of page 0 fails, 4096 bytes of the batch are given back as if they
   were a range of their own. -/
theorem failed_batch_map_frees_part : ¬ ∀ fq party, (∀ u, Newcomer (party u)) →
    OwnershipKept .unlimited fq party := by
  intro always
  have out : ∃ last after, advance (exec 0) mapRefused.answer 5
      (domainBody (.queue (.allocRxMpwqe 0)) idleQueue) (startWorld false) =
        some (.call (.iommu (.iommuDmaFreeIova 0x100000 4096 none)) last, after) ∧
      after.live = [(0, ⟨0x100000, 0x40000⟩)] := ⟨_, _, rfl, rfl⟩
  obtain ⟨last, after, out, live⟩ := out
  have run := start_advance_reaches (P := domainPool) (L := .unlimited) (u := 0)
    (c := startDomain false fun _ => idleQueue) (.queue (.allocRxMpwqe 0)) idleQueue rfl ⟨trivial, rfl⟩ trivial
    (fun _ _ _ _ same => ⟨trivial, same⟩) out
  obtain ⟨v, named⟩ := (always false _ (fun _ => idle_queue_new) _ run).named 0 _ _ _ _ _ _ rfl
  simp [live] at named

end OwnershipRuns
