import FastSafeIO.TraceReplay
import FastSafeIO.AllocatedRanges
import FastSafeIO.RouteAgreement
import FastSafeIO.BatchReturn

/-! Mapping a batch and unmapping it again, in strict mode. -/
namespace BatchIdentity
open CallTree TraceReplay KernelCalls DmaLayer RxDriver IommuWorld SingleCalls SlotFields BatchMapping
  BatchRelease UnmapTrace RouteAgreement AllocatedRanges
open BatchReturn (freshWqe sample_life free_only_runs)
set_option linter.style.nameCheck false

/-- What the IOMMU and the IOVA allocator keep for the domain. -/
structure Domain where
  pt : Nat → Option Nat
  owner : Nat → Owner
  live : List (Nat × Range)

def domainOf (w : World) : Domain := ⟨w.pt, w.owner, w.live⟩

/-- Calls that reach the IOMMU or the IOVA allocator. -/
def onDomain : KernelEvent → Bool
  | ⟨.iommu (.iommuDmaAllocIova _), _⟩ => true
  | ⟨.iommu (.iommuDmaFreeIova _ _ _), _⟩ => true
  | ⟨.iommu (.__iommuMap _ _ _), _⟩ => true
  | ⟨.iommu (.iommuUnmapFast _ _ _), _⟩ => true
  | ⟨.iommu (.iommuIotlbSync _), _⟩ => true
  | ⟨.iommu (.dmaDirectUnmapPage _ _), _⟩ => true
  | ⟨.iommu (.unmapPage _ _), _⟩ => true
  | _ => false

def effect (u : Nat) : KernelEvent → Domain → Domain
  | ⟨.iommu (.iommuDmaAllocIova size), base⟩, d =>
    if base = (0 : Nat) then d
    else { d with owner := fill d.owner ⟨base, size⟩ (.user u), live := (u, ⟨base, size⟩) :: d.live }
  | ⟨.iommu (.iommuDmaFreeIova iova size gather), _⟩, d =>
    { d with
      owner := fill d.owner ⟨iova, size⟩ (if gather.any (·.queued) then .parked else .free),
      live := d.live.filter fun e => e.2 ≠ ⟨iova, size⟩ }
  | ⟨.iommu (.__iommuMap iova paddr size), ret⟩, d =>
    if ret = (0 : Int) then
      { d with pt := fun x =>
          if (⟨iova, size⟩ : Range).Has x then some (paddr / PAGE_SIZE + (x - iova / PAGE_SIZE)) else d.pt x }
    else d
  | ⟨.iommu (.iommuUnmapFast iova size _), _⟩, d => { d with pt := fill d.pt ⟨iova, size⟩ none }
  | _, d => d

theorem exec_domain {u : Nat} {e : KernelEvent} {a b : World} (run : exec u e.1 e.2 a = some b) :
    domainOf b = effect u e (domainOf a) := by
  obtain ⟨op, r⟩ := e
  cases op with
  | page op =>
    have same := page_keeps_iommu run
    change domainOf b = domainOf a
    unfold domainOf
    rw [same.pt, same.owner, same.live]
  | iommu op =>
    cases op
    case iommuDmaAllocIova size =>
      rcases exec_alloc_iova.mp run with ⟨zero, rfl⟩ | ⟨got, _, _, _, _, rfl⟩
      · exact (if_pos zero).symm
      · exact (if_neg got).symm
    case iommuDmaFreeIova iova size gather =>
      rw [exec_free_iova.mp run]
      simp only [effect]
      split <;> rfl
    case __iommuMap iova paddr size =>
      rw [exec_map.mp run]
      simp only [effect]
      split <;> rfl
    case fqDomain => rw [(exec_fq_domain.mp run).2]; rfl
    case iommuUnmapFast => rw [(exec_unmap_fast.mp run).2]; rfl
    case iommuIotlbSync => rw [exec_sync.mp run]; split <;> rfl
    case iommuIovaToPhys => rw [(exec_iova_to_phys.mp run).2]; rfl
    all_goals
      cases some_state.mp run
      rfl

theorem replay_domain {u : Nat} {trace : List KernelEvent} {w last : World}
    (run : replay (exec u) trace w = some last) :
    domainOf last = trace.foldl (fun d e => effect u e d) (domainOf w) :=
  replay_part (fun _ _ _ here => exec_domain here) run

/-- The range that a call invalidates in the IOTLB; none when it names no range. -/
def syncing : KernelEvent → Option (Option (Nat × Nat))
  | ⟨.iommu (.iommuIotlbSync gather), _⟩ => some gather.range
  | _ => none

def syncs (trace : List KernelEvent) : List (Option (Nat × Nat)) := trace.filterMap syncing

/-- At most a map inside the range. -/
structure MapsOnly (r : Range) (e : KernelEvent) : Prop where
  inside : ∀ d x, ¬ r.Has x → (effect 0 e d).pt x = d.pt x
  owner : ∀ d, (effect 0 e d).owner = d.owner
  live : ∀ d, (effect 0 e d).live = d.live
  unmaps : unmapping e = none
  syncs : syncing e = none
  frees : freedRange e = none

theorem map_maps_only {r : Range} {iova paddr size : Nat} {ret : Int}
    (within : ∀ x, (⟨iova, size⟩ : Range).Has x → r.Has x) :
    MapsOnly r ⟨.iommu (.__iommuMap iova paddr size), ret⟩ where
  inside d x outside := by
    simp only [effect]
    split
    · exact if_neg fun here => outside (within x here)
    · rfl
  owner d := by
    simp only [effect]
    split <;> rfl
  live d := by
    simp only [effect]
    split <;> rfl
  unmaps := rfl
  syncs := rfl
  frees := rfl

theorem alloc_effect {u size base : Nat} (based : base ≠ 0) (d : Domain) :
    effect u ⟨.iommu (.iommuDmaAllocIova size), base⟩ d =
      ⟨d.pt, fill d.owner ⟨base, size⟩ (.user u), (u, ⟨base, size⟩) :: d.live⟩ := if_neg based

theorem unseen_effect (u : Nat) {e : KernelEvent} (unseen : onDomain e = false) (d : Domain) :
    effect u e d = d := by
  obtain ⟨op, r⟩ := e
  cases op with
  | page op => rfl
  | iommu op => cases op <;> first | rfl | cases unseen

theorem unseen_quiet {e : KernelEvent} (unseen : onDomain e = false) :
    unmapping e = none ∧ syncing e = none ∧ freedRange e = none := by
  obtain ⟨op, r⟩ := e
  cases op with
  | page op => exact ⟨rfl, rfl, rfl⟩
  | iommu op => cases op <;> first | exact ⟨rfl, rfl, rfl⟩ | cases unseen

theorem unseen_maps_only (r : Range) {e : KernelEvent} (unseen : onDomain e = false) :
    MapsOnly r e where
  inside d x _ := by rw [unseen_effect 0 unseen]
  owner d := by rw [unseen_effect 0 unseen]
  live d := by rw [unseen_effect 0 unseen]
  unmaps := (unseen_quiet unseen).1
  syncs := (unseen_quiet unseen).2.1
  frees := (unseen_quiet unseen).2.2

/- The allocation: one call to the allocator, then maps inside the batch. -/

section
variable {u : Nat} {dev : Device} {page : Page} {iova : Nat} {firstIova : Bool} {w : World} {r : Range}
  (within : ∀ x, (⟨iova, PAGE_SIZE⟩ : Range).Has x → r.Has x)
include within

theorem place_maps_only : Ensures (exec u) (placePage dev page iova firstIova) w
    fun trace addr _ => addr ≠ DMA_MAPPING_ERROR → ∀ e ∈ trace, MapsOnly r e := by
  unfold placePage placeAt
  split
  · exact Ensures.done fun good => absurd rfl good
  · have mapped : Ensures (exec u)
        (iommuMapAtomic dev iova firstIova (pageToPhys page - 0) PAGE_SIZE) w
        fun trace _ _ => ∀ e ∈ trace, MapsOnly r e := by
      unfold iommuMapAtomic _iommuMap
      apply Ensures.call
      intro ret mid here
      have first : MapsOnly r ⟨.iommu (.__iommuMap iova (pageToPhys page - 0) PAGE_SIZE), ret⟩ :=
        map_maps_only within
      simp only [Tree.bind_eq, Tree.done_bind]
      split
      · apply Ensures.call
        intro ans mid here
        apply Ensures.done
        have second : MapsOnly r ⟨.iommu (.iotlbSyncMap iova (PAGE_SIZE * 64)), ans⟩ :=
          unseen_maps_only r rfl
        simpa using And.intro first second
      · apply Ensures.done
        simpa using first
    apply Ensures.bind mapped
    intro trace ret mid only
    split
    · apply Ensures.call
      intro ans last here
      exact Ensures.done fun good => absurd rfl good
    · apply Ensures.done
      intro _
      rw [List.append_nil]
      exact only

theorem map_page_maps_only (some_iova : iova ≠ 0) :
    Ensures (exec u) (iommuDmaMapPageIova dev page iova firstIova 0 PAGE_SIZE) w
      fun trace addr _ => addr ≠ DMA_MAPPING_ERROR → ∀ e ∈ trace, MapsOnly r e := by
  have placed : Ensures (exec u) (__iommuDmaMap dev (pageToPhys page) iova firstIova PAGE_SIZE) w
      fun trace addr _ => addr ≠ DMA_MAPPING_ERROR → ∀ e ∈ trace, MapsOnly r e := by
    rw [dma_map_page_eq]
    apply Ensures.call
    intro attach mid here
    have first : MapsOnly r ⟨.iommu .iommuDeferredAttach, attach⟩ := unseen_maps_only r rfl
    cases attach with
    | true => exact Ensures.done fun good => absurd rfl good
    | false =>
      rw [if_neg Bool.false_ne_true, if_pos some_iova]
      apply (place_maps_only within).mono
      intro trace addr last only good
      exact List.forall_mem_cons.mpr ⟨first, only good⟩
  rw [map_page_iova_eq]
  unfold mapPageTail
  apply Ensures.bind placed
  intro trace addr mid only
  by_cases failed : addr = DMA_MAPPING_ERROR
  · rw [if_pos failed]
    constructor
    intro more result last ran good
    have same := exec_returns (P := fun result => result = addr) ran (fun bounced => by
      cases bounced
      · exact rfl
      · exact fun _ => rfl)
    exact absurd (same.trans failed) good
  · rw [if_neg failed]
    apply Ensures.done
    rw [List.append_nil]
    exact only

end

section
variable {rq : Rq} (api : DmaApi rq.dev) (regular : rq.xskPool = false) {r : Range}
include api regular

theorem page_alloc_maps_only {di : DmaInfo} {w : World} (batched : di.batchIova = true)
    (some_iova : di.iova ≠ 0) (within : ∀ x, (⟨di.iova, PAGE_SIZE⟩ : Range).Has x → r.Has x) :
    Ensures (limited cacheEmpty (exec 0)) (onDevice rq.dev (mlx5ePageAlloc rq di)) w
      fun trace out _ => out.1 = 0 → ∀ e ∈ trace, MapsOnly r e := by
  unfold mlx5ePageAlloc
  rw [regular]
  simp only [Bool.false_eq_true, ↓reduceIte, mlx5ePageAllocPool, Tree.bind_eq, Tree.pure_eq]
  apply device_page_call
  intro got mid here
  have first : MapsOnly r ⟨.page .rxCacheGet, got⟩ := unseen_maps_only r rfl
  cases got with
  | some got => cases (limited_some.mp here).1
  | none =>
    apply device_page_call
    intro got mid here
    have second : MapsOnly r ⟨.page .pagePoolDevAllocPages, got⟩ := unseen_maps_only r rfl
    cases got with
    | none => exact device_done fun good => absurd good (by simp [ENOMEM])
    | some page =>
      have mapped : Ensures (limited cacheEmpty (exec 0)) (onDevice rq.dev (mapSlotPage di page)) mid
          fun trace addr _ => addr ≠ DMA_MAPPING_ERROR → ∀ e ∈ trace, MapsOnly r e := by
        unfold mapSlotPage
        rw [if_pos batched]
        apply device_dma_call
        apply Ensures.limited
        simp only [dmaImpl, map_iova_route api]
        exact map_page_maps_only within some_iova
      apply device_bind mapped
      intro trace addr mid only
      by_cases failed : addr = DMA_MAPPING_ERROR
      · rw [if_pos failed]
        apply device_page_call
        intro ans last here
        exact device_done fun good => absurd good (by simp [ENOMEM])
      · rw [if_neg failed]
        apply device_page_call
        intro ans last here
        apply device_done
        intro _
        have third : MapsOnly r ⟨.page (.pagePoolSetDmaAddr page addr), ans⟩ := unseen_maps_only r rfl
        have rest := List.forall_mem_append.mpr ⟨only failed, List.forall_mem_singleton.mpr third⟩
        exact List.forall_mem_cons.mpr ⟨first, List.forall_mem_cons.mpr ⟨second, rest⟩⟩

theorem alloc_loop_maps_only {base : Nat} (based : base ≠ 0) (left : Nat) {i : Nat}
    (inside : i + left ≤ 64) {dmaInfo : Nat → DmaInfo} {mtts : Nat → Nat} {w : World} :
    Ensures (limited cacheEmpty (exec 0)) (onDevice rq.dev (allocLoop rq base left i dmaInfo mtts)) w
      fun trace out _ => out.err = 0 → ∀ e ∈ trace, MapsOnly ⟨base, batchSize⟩ e := by
  induction left generalizing i dmaInfo mtts w with
  | zero => exact device_done fun _ e member => absurd member List.not_mem_nil
  | succ left ih =>
    obtain ⟨batched, place, _⟩ := prepare_slot_batched base i (dmaInfo i)
    have within : ∀ x, (⟨(prepareSlot true base i (dmaInfo i)).iova, PAGE_SIZE⟩ : Range).Has x →
        (⟨base, batchSize⟩ : Range).Has x := by
      intro x here
      rw [place, place_has] at here
      unfold Range.Has batchSize MLX5_MPWRQ_PAGES_PER_WQE PAGE_SIZE at *
      dsimp only
      omega
    simp only [allocLoop, Tree.bind_eq, Tree.pure_eq, api.mapped]
    apply device_bind (page_alloc_maps_only api regular batched (by omega) within)
    intro trace out mid only
    by_cases failed : out.1 = 0
    · rw [if_neg (not_not_intro failed)]
      apply (ih (by omega)).mono
      intro more run last rest good
      exact List.forall_mem_append.mpr ⟨only failed, rest good⟩
    · rw [if_pos failed]
      exact device_done fun good => absurd good failed

/-- A successful allocation from fresh pages: the range, then maps inside it. -/
theorem alloc_wqe_maps_only (wi : MpwInfo) (w : World) :
    Ensures (limited cacheEmpty (exec 0)) (onDevice rq.dev (mlx5eAllocRxMpwqe rq wi)) w
      fun trace out _ => ∃ base rest mid, trace = ⟨.iommu (.iommuDmaAllocIova batchSize), base⟩ :: rest ∧
        exec 0 (.iommu (.iommuDmaAllocIova batchSize)) base w = some mid ∧
        (out.1 = 0 → base ≠ 0 → ∀ e ∈ rest, MapsOnly ⟨base, batchSize⟩ e) := by
  simp only [mlx5eAllocRxMpwqe, regular, Bool.false_eq_true, ↓reduceIte, Tree.bind_eq, Tree.pure_eq,
    Tree.done_bind, batchBase, api.mapped]
  apply Ensures.call
  intro base mid here
  by_cases based : base = 0
  · exact ⟨fun _ => ⟨base, _, mid, rfl, (limited_some.mp here).2, fun _ some_base => absurd based some_base⟩⟩
  · have only : Ensures (limited cacheEmpty (exec 0)) (onDevice rq.dev (allocBatch rq wi base)) mid
        fun trace out _ => out.1 = 0 → ∀ e ∈ trace, MapsOnly ⟨base, batchSize⟩ e := by
      exact device_alloc_batch rq (P := fun trace _ _ _ => ∀ e ∈ trace, MapsOnly ⟨base, batchSize⟩ e)
        (alloc_loop_maps_only api regular based 64 (Nat.le_refl 64))
    exact only.mono fun rest out last fine =>
      ⟨base, rest, mid, rfl, (limited_some.mp here).2, fun good _ => fine good⟩

end

/- The release: 63 pages that only lose their address, and one that undoes the batch. -/

/-- What the unmap of the batch has gathered for the IOTLB. -/
def gathered (base : Nat) : IotlbGather := { IotlbGather.init false with range := some (base, batchSize) }

def undoCalls (base : Nat) : List KernelEvent :=
  [⟨.iommu (.iommuUnmapFast base batchSize (.init false)), (batchSize, gathered base)⟩,
    ⟨.iommu (.iommuIotlbSync (gathered base)), ()⟩,
    ⟨.iommu (.iommuDmaFreeIova base batchSize (some (gathered base))), ()⟩]

def seen (trace : List KernelEvent) : List KernelEvent := trace.filter onDomain

theorem seen_append (a b : List KernelEvent) : seen (a ++ b) = seen a ++ seen b :=
  List.filter_append ..

section
variable {u base : Nat} {w : World} (strict : w.fq = false) (aligned : iovaOffset base = 0)
include strict aligned

theorem unmap_batch_seen : Ensures (exec u) (__iommuDmaUnmapIova base batchSize batchSize true) w
    fun trace _ _ => seen trace = undoCalls base := by
  rw [unmap_aligned_eq batchSize true aligned (by decide)]
  apply Ensures.call
  intro queued mid here
  obtain ⟨rfl, rfl⟩ := exec_fq_domain.mp here
  rw [strict]
  apply Ensures.call
  intro out mid here
  obtain ⟨rfl, rfl⟩ := exec_unmap_fast.mp here
  split
  · rename_i queued
    cases queued
  · apply Ensures.call
    intro ans mid here
    unfold giveBack
    rw [if_pos rfl]
    apply Ensures.call
    intro ans last here
    exact Ensures.done rfl

theorem unmap_present_seen {frame : Nat} (present : w.pt (base / PAGE_SIZE) = some frame)
    (positive : 0 < frame) :
    Ensures (exec u) (iommuDmaUnmapPageIova base batchSize batchSize true) w
      fun trace _ _ => seen trace = undoCalls base := by
  apply unmap_page_ensures (present_phys present positive) (unmap_batch_seen strict aligned)
  intro trace last tail undone bounce
  have quiet : seen tail = [] := by cases bounce <;> rfl
  change seen (trace ++ tail) = _
  rw [seen_append, undone, quiet, List.append_nil]

end

section
variable {rq : Rq} {page : Page} {w : World}

theorem inner_release_seen {dev : Device} {iovaSize : Nat} (some_size : iovaSize ≠ 0) :
    Ensures (exec 0) (onDevice dev (mlx5ePageReleaseDynamic page false iovaSize false)) w
      fun trace _ last => seen trace = [] ∧ last = (w.setDmaAddr page 0).hold page false := by
  simp only [mlx5ePageReleaseDynamic, page_dma_unmap_eq, unmapCall, if_pos some_size, Tree.bind_eq,
    Bool.false_eq_true, ↓reduceIte, Tree.bind_assoc, Tree.done_bind]
  apply device_page_call
  intro addr mid here
  obtain ⟨rfl, rfl⟩ := exec_get_addr.mp here
  apply device_page_call
  intro ans mid here
  cases exec_set_addr.mp here
  apply device_page_call
  intro ans mid here
  cases exec_release_page.mp here
  apply Ensures.call
  intro ans last here
  cases exec_put_page.mp here
  exact Ensures.done ⟨rfl, rfl⟩

theorem last_release_seen (api : DmaApi rq.dev) (strict : w.fq = false) {base frame : Nat}
    (aligned : base % PAGE_SIZE = 0) (bound : base + batchSize ≤ 2 ^ 64)
    (stored : w.dmaAddr page = base + 63 * 4096) (first : w.pt (base / PAGE_SIZE) = some frame)
    (positive : 0 < frame) :
    Ensures (exec 0) (onDevice rq.dev (mlx5ePageReleaseDynamic page false batchSize true)) w
      fun trace _ _ => seen trace = undoCalls base := by
  have start : sub64 (base + 63 * 4096) (63 * 4096) = base := by
    apply sub64_back
    unfold batchSize MLX5_MPWRQ_PAGES_PER_WQE at bound
    omega
  simp only [mlx5ePageReleaseDynamic, page_dma_unmap_eq, Tree.bind_eq, Bool.false_eq_true, ↓reduceIte,
    Tree.bind_assoc]
  apply device_page_call
  intro addr mid here
  obtain ⟨rfl, rfl⟩ := exec_get_addr.mp here
  unfold unmapCall
  rw [if_pos (by decide), if_pos rfl, stored, start]
  have undone : Ensures (exec 0) (onDevice rq.dev
      (dmaCall (.dmaUnmapPageAttrsIova base (PAGE_SIZE * 64) batchSize true))) mid
      fun trace _ _ => seen trace = undoCalls base := by
    apply device_dma_call
    simp only [dmaImpl, unmap_iova_route api]
    exact unmap_present_seen strict aligned first positive
  apply device_bind undone
  intro trace _ mid undone
  apply device_page_call
  intro ans mid here
  apply device_page_call
  intro ans mid here
  apply Ensures.call
  intro ans last here
  apply Ensures.done
  change seen (trace ++ _) = _
  rw [seen_append, undone]
  rfl

theorem free_loop_seen (api : DmaApi rq.dev) (regular : rq.xskPool = false) {base frame : Nat}
    (aligned : base % PAGE_SIZE = 0) (bound : base + batchSize ≤ 2 ^ 64) (positive : 0 < frame)
    {bitmap : Nat → Bool} (recycle : Bool) {m i : Nat} (all : i + m = 63) {dmaInfo : Nat → DmaInfo}
    (strict : w.fq = false) (stored : ∀ j, i ≤ j → j < 64 →
      ∃ page, (dmaInfo j).buffer = .page page ∧ w.dmaAddr page = base + j * 4096)
    (first : w.pt (base / PAGE_SIZE) = some frame) :
    Ensures (exec 0) (onDevice rq.dev (freeLoop rq true bitmap recycle (m + 1) i dmaInfo)) w
      fun trace _ _ => seen trace = undoCalls base := by
  induction m generalizing i dmaInfo w with
  | zero =>
    obtain rfl : i = 63 := by omega
    obtain ⟨page, here, addr⟩ := stored 63 (by omega) (by omega)
    simp only [freeLoop, Bool.true_or, ↓reduceIte, api.mapped, Tree.bind_eq]
    rw [page_release_eq regular (D := { dmaInfo 63 with
      iovaSize := 4096 * 64, batchIova := true, freeIova := 63 == MLX5_MPWRQ_PAGES_PER_WQE - 1 }) here]
    apply device_bind (last_release_seen api strict aligned bound addr first positive)
    intro trace _ mid undone
    apply device_done
    rw [List.append_nil]
    exact undone
  | succ m ih =>
    obtain ⟨page, here, addr⟩ := stored i (by omega) (by omega)
    have inner := inner_slot (i := i) (by omega)
    unfold freeLoop
    simp only [Bool.true_or, ↓reduceIte, api.mapped, Tree.bind_eq, inner]
    rw [page_release_eq regular (D := { dmaInfo i with
      iovaSize := 4096 * 64, batchIova := true, freeIova := false }) here]
    apply device_bind (inner_release_seen (show 4096 * 64 ≠ 0 by decide))
    rintro trace _ mid ⟨quiet, rfl⟩
    apply (ih (by omega) (by exact strict) (fun j low high => ?_) (by exact first)).mono
    · intro more _ last undone
      rw [seen_append, quiet, undone]
      rfl
    · exact stored_later stored addr rfl j low high

/-- The whole of mlx5e_free_rx_mpwqe reaches the IOMMU by three calls. -/
theorem free_wqe_seen (api : DmaApi rq.dev) (regular : rq.xskPool = false) {base : Nat}
    (aligned : base % PAGE_SIZE = 0) (bound : base + batchSize ≤ 2 ^ 64) {wi : MpwInfo}
    (clear : wi.xdpXmitBitmap = fun _ => false) (recycle : Bool) (strict : w.fq = false)
    (standing : ∀ i < 64, ∃ page, (wi.dmaInfo i).buffer = .page page ∧ Stands base i page w) :
    Ensures (exec 0) (onDevice rq.dev (mlx5eFreeRxMpwqe rq wi recycle)) w
      fun trace _ _ => seen trace = undoCalls base := by
  obtain ⟨first, _, stands⟩ := standing 0 (by omega)
  have empty : bitmapEmpty wi.xdpXmitBitmap = true := by
    rw [clear]
    decide
  simp only [mlx5eFreeRxMpwqe, Tree.bind_eq, empty]
  apply device_bind (free_loop_seen api regular aligned bound first.pos recycle (m := 63)
    (by omega) strict (fun j _ below => ?_) stands.pte)
  · intro trace _ mid undone
    apply device_done
    rw [List.append_nil]
    exact undone
  · obtain ⟨page, buffer, stands⟩ := standing j below
    exact ⟨page, buffer, stands.addr⟩

end

/- The whole life of a batch, from the events alone. -/

theorem run_keeps_fq {u : Nat} {t : Kernel α} {trace : List KernelEvent} {w last : World} {a : α}
    (run : Exec (exec u) t w trace a last) : last.fq = w.fq := by
  induction run with
  | done a w => rfl
  | call here _ ih => exact ih.trans (exec_keeps_fq here)

theorem fold_outside {r : Range} {trace : List KernelEvent}
    (inside : ∀ e ∈ trace, ∀ d x, ¬ r.Has x → (effect 0 e d).pt x = d.pt x) (d : Domain) {x : Nat}
    (outside : ¬ r.Has x) : (trace.foldl (fun d e => effect 0 e d) d).pt x = d.pt x := by
  induction trace generalizing d with
  | nil => rfl
  | cons e trace ih =>
    rw [List.foldl_cons, ih fun f member => inside f (List.mem_cons_of_mem e member)]
    exact inside e List.mem_cons_self d x outside

theorem fold_keeps_ranges {r : Range} {trace : List KernelEvent} (only : ∀ e ∈ trace, MapsOnly r e)
    (d : Domain) : (trace.foldl (fun d e => effect 0 e d) d).owner = d.owner ∧
      (trace.foldl (fun d e => effect 0 e d) d).live = d.live := by
  induction trace generalizing d with
  | nil => exact ⟨rfl, rfl⟩
  | cons e trace ih =>
    obtain ⟨owner, live⟩ := ih (fun f member => only f (List.mem_cons_of_mem e member)) (effect 0 e d)
    have first := only e List.mem_cons_self
    exact ⟨owner.trans (first.owner d), live.trans (first.live d)⟩

theorem undo_inside {base : Nat} {trace : List KernelEvent} (undone : seen trace = undoCalls base) :
    ∀ e ∈ trace, ∀ d x, ¬ (⟨base, batchSize⟩ : Range).Has x → (effect 0 e d).pt x = d.pt x := by
  intro e member d x outside
  cases here : onDomain e with
  | false => rw [unseen_effect 0 here]
  | true =>
    have listed : e ∈ undoCalls base := undone ▸ List.mem_filter.mpr ⟨member, here⟩
    simp only [undoCalls, List.mem_cons, List.not_mem_nil, or_false] at listed
    rcases listed with rfl | rfl | rfl
    · exact fill_out outside
    · rfl
    · rfl

theorem seen_filterMap {β : Type} {f : KernelEvent → Option β}
    (unseen : ∀ e, onDomain e = false → f e = none) (trace : List KernelEvent) :
    trace.filterMap f = (seen trace).filterMap f := by
  induction trace with
  | nil => rfl
  | cons e trace ih =>
    cases here : onDomain e with
    | false =>
      rw [List.filterMap_cons_none (unseen e here), ih, seen, seen, List.filter_cons_of_neg (by simp [here])]
    | true =>
      rw [seen, List.filter_cons_of_pos here, List.filterMap_cons, List.filterMap_cons, ih]
      rfl

theorem undo_effect (base : Nat) (d : Domain) :
    (undoCalls base).foldl (fun d e => effect 0 e d) d =
      ⟨fill d.pt ⟨base, batchSize⟩ none, fill d.owner ⟨base, batchSize⟩ .free,
        d.live.filter fun e => e.2 ≠ ⟨base, batchSize⟩⟩ := rfl

/-- Nothing is left of a batch, and nothing but its own range was touched. -/
structure Undone (base : Nat) (w : World) (trace : List KernelEvent) (last : World) : Prop where
  pages : last.pt = w.pt
  ranges : allocated last = allocated w
  outside : ∀ before after now, trace = before ++ after → replay (exec 0) before w = some now →
    ∀ x, ¬ (⟨base, batchSize⟩ : Range).Has x → now.pt x = w.pt x
  unmapped : unmaps trace = [⟨base, batchSize⟩]
  synced : syncs trace = [some (base, batchSize)]
  once : freed trace = [⟨base, batchSize⟩]

section
variable {rq : Rq} {wi posted freedWi : MpwInfo} {w mid last : World} {allocTrace trace : List KernelEvent}
  {mtts : Nat → Nat} {base : Nat} {recycle : Bool}

/-- mlx5e_alloc_rx_mpwqe and then mlx5e_free_rx_mpwqe put the domain back as it was. -/
theorem batch_map_unmap_is_identity (api : DmaApi rq.dev) (regular : rq.xskPool = false)
    (strict : w.fq = false) (alloc : Exec (limited cacheEmpty (exec 0))
      (onDevice rq.dev (mlx5eAllocRxMpwqe rq wi)) w allocTrace (0, posted, mtts) mid)
    (handed : batchOf allocTrace = some base) (based : base ≠ 0)
    (absent : ∀ x, (⟨base, batchSize⟩ : Range).Has x → w.pt x = none)
    (free : Exec (exec 0) (onDevice rq.dev (mlx5eFreeRxMpwqe rq posted recycle)) mid trace freedWi last) :
    Undone base w (allocTrace ++ trace) last := by
  obtain ⟨_, first, postedAt⟩ := (alloc_wqe_posts api regular wi w).holds alloc
  cases handed.symm.trans first
  obtain ⟨aligned, bound, posts⟩ := (postedAt rfl).2 based
  obtain ⟨_, rest, start, rfl, here, only⟩ := (alloc_wqe_maps_only api regular wi w).holds alloc
  cases handed.symm.trans (batch_of_first _ rest)
  have only := only rfl based
  have undone := (free_wqe_seen api regular aligned bound
    (exec_returns alloc (alloc_clears_bitmap rq wi).interp rfl) recycle
    ((run_keeps_fq (exec_of_limited alloc)).trans strict) (by
      intro i below
      obtain ⟨page, slot⟩ := posts i below
      exact ⟨page, slot.buffer, slot.stands⟩)).holds free
  have inside : ∀ e ∈ ⟨.iommu (.iommuDmaAllocIova batchSize), base⟩ :: rest ++ trace, ∀ d x,
      ¬ (⟨base, batchSize⟩ : Range).Has x → (effect 0 e d).pt x = d.pt x := by
    intro e member
    rcases List.mem_append.mp member with member | member
    · rcases List.mem_cons.mp member with rfl | member
      · intro d x _
        rw [alloc_effect based]
      · exact (only e member).inside
    · exact undo_inside undone e member
  have whole : replay (exec 0) (⟨.iommu (.iommuDmaAllocIova batchSize), base⟩ :: rest ++ trace) w =
      some last := by
    rw [replay_append, exec_replay (exec_of_limited alloc)]
    exact exec_replay free
  have ended := replay_domain whole
  rw [List.foldl_append, List.foldl_cons, alloc_effect based,
    foldl_seen (fun e d unseen => unseen_effect 0 unseen d) trace] at ended
  rw [show trace.filter onDomain = undoCalls base from undone, undo_effect,
    (fold_keeps_ranges only _).1, (fold_keeps_ranges only _).2] at ended
  have quiet : ∀ {β : Type} {f : KernelEvent → Option β}, (∀ e ∈ rest, f e = none) →
      (∀ e, onDomain e = false → f e = none) → f ⟨.iommu (.iommuDmaAllocIova batchSize), base⟩ = none →
      (⟨.iommu (.iommuDmaAllocIova batchSize), base⟩ :: rest ++ trace).filterMap f =
        (undoCalls base).filterMap f := by
    intro β f mapping unseen start
    rw [List.filterMap_append, List.filterMap_cons_none start, List.filterMap_eq_nil_iff.mpr mapping,
      seen_filterMap unseen trace, undone, List.nil_append]
  constructor
  · funext x
    by_cases here : (⟨base, batchSize⟩ : Range).Has x
    · have tables := congrArg Domain.pt ended
      rw [absent x here]
      exact (congrFun tables x).trans (fill_in here)
    · have reached := replay_domain whole
      exact (congrArg (fun d => Domain.pt d x) reached).trans (fold_outside inside (domainOf w) here)
  · rcases exec_alloc_iova.mp here with ⟨zero, _⟩ | ⟨_, _, _, pages, available, _⟩
    · exact absurd zero based
    · rw [← allocated_allocate_release (u := 0) available pages]
      apply allocated_same
      · exact congrArg Domain.owner ended
      · exact congrArg Domain.live ended
  · intro before after now split run x outside
    have reached := replay_domain run
    have same := fold_outside (fun e member => inside e (split ▸ List.mem_append_left after member))
      (domainOf w) outside
    exact (congrArg (fun d => Domain.pt d x) reached).trans same
  · exact quiet (fun e member => (only e member).unmaps) (fun e unseen => (unseen_quiet unseen).1) rfl
  · exact quiet (fun e member => (only e member).syncs) (fun e unseen => (unseen_quiet unseen).2.1) rfl
  · exact quiet (fun e member => (only e member).frees) (fun e unseen => (unseen_quiet unseen).2.2) rfl

end

/-- A queue's first batch, mapped from a full pool and freed untouched. -/
theorem first_batch_undone : ∃ allocTrace posted mtts mid trace freedWi last,
    Exec (limited cacheEmpty (exec 0)) (onDevice regularRq.dev (mlx5eAllocRxMpwqe regularRq freshWqe))
      (startWorld false) allocTrace (0, posted, mtts) mid ∧
    Exec (exec 0) (onDevice regularRq.dev (mlx5eFreeRxMpwqe regularRq posted false)) mid trace freedWi last ∧
    Undone 0x100000 (startWorld false) (allocTrace ++ trace) last := by
  obtain ⟨allocTrace, posted, mtts, mid, trace, last, alloc, handed, released, _⟩ :=
    sample_life free_only_runs
  have clear := exec_returns alloc (alloc_clears_bitmap regularRq freshWqe).interp rfl
  have same : { posted with xdpXmitBitmap := fun _ => false } = posted := by
    rw [← clear]
  rw [same] at released
  cases released with
  | next first rest =>
    cases rest
    have ran := exec_of_limited first
    simp only [BatchReturn.Release.body, Tree.bind_eq, onDevice, Tree.interp_bind] at ran
    obtain ⟨trace, freedWi, after, _, free, ended, rfl⟩ := exec_bind_iff.mp ran
    obtain ⟨rfl, _, rfl⟩ := exec_done_iff.mp ended
    exact ⟨allocTrace, posted, mtts, mid, trace, freedWi, last, alloc, free,
      batch_map_unmap_is_identity regular_rq_api rfl rfl alloc handed (by decide) (fun _ _ => rfl) free⟩

end BatchIdentity
