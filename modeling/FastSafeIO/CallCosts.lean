import FastSafeIO.CallCredits
import FastSafeIO.DmaCalls

/- What the functions of the DMA layer spend on the IOMMU. -/
namespace CallCosts
open CallTree KernelCalls DmaLayer DmaCalls CallCredits
set_option linter.style.nameCheck false

/- What each kind of call costs; a failed map and the pages that leave a page cache, or do not
   get into it, may bring something in. A failed map pays for giving the range back, and a
   drained or refused page for unmapping it. -/
structure Weights where
  unmap : Int
  sync : Int
  free : Int
  alloc : Int
  failed : Int
  syncMap : Int
  drained : Int
  refused : Int
  failed_pays : failed + max 0 free ≤ 0
  drained_pays : max 0 (unmap + max 0 sync + max 0 free) + drained ≤ 0
  refused_pays : max 0 (unmap + max 0 sync + max 0 free) + refused ≤ 0

def Weights.iommuCost (w : Weights) : (op : IommuOp) → op.Ans → Int
  | .iommuUnmapFast _ _ _, _ => w.unmap
  | .iommuIotlbSync _, _ => w.sync
  | .iommuDmaFreeIova _ _ _, _ => w.free
  | .iommuDmaAllocIova _, iova => if iova = 0 then 0 else w.alloc
  | .__iommuMap _ _ _, ret => if ret = 0 then 0 else w.failed
  | .iotlbSyncMap _ _, _ => w.syncMap
  | _, _ => 0

def Weights.cost (w : Weights) : (op : KernelOp) → op.Ans → Int
  | .page .rxCacheEntries, pages => w.drained * pages.length
  | .page (.rxCachePut _), taken => if taken then 0 else w.refused
  | .page _, _ => 0
  | .iommu op, r => w.iommuCost op r

/- What one unmap, one allocated range and one synced range can come to. -/
def Weights.unmapPrice (w : Weights) : Int := max 0 (w.unmap + max 0 w.sync + max 0 w.free)

def Weights.allocPrice (w : Weights) : Int := max 0 w.alloc

def Weights.syncMapPrice (w : Weights) : Int := max 0 w.syncMap

def Weights.mapPrice (w : Weights) (iovaAddr : Nat) (firstIova : Bool) : Int :=
  (if iovaAddr = 0 then w.allocPrice else 0) + if firstIova then w.syncMapPrice else 0

/- What each call of the IOMMU layer comes to. -/

section
variable {w : Weights}

theorem cost_unmap {iova size : Nat} {gather : IotlbGather} {out : Nat × IotlbGather} :
    w.cost (.iommu (.iommuUnmapFast iova size gather)) out = w.unmap := rfl

theorem cost_sync {gather : IotlbGather} {ans : Unit} :
    w.cost (.iommu (.iommuIotlbSync gather)) ans = w.sync := rfl

theorem cost_free {iova size : Nat} {gather : Option IotlbGather} {ans : Unit} :
    w.cost (.iommu (.iommuDmaFreeIova iova size gather)) ans = w.free := rfl

theorem cost_alloc {size iova : Nat} :
    w.cost (.iommu (.iommuDmaAllocIova size)) iova = if iova = 0 then 0 else w.alloc := rfl

theorem cost_map {iova paddr size : Nat} {ret : Int} :
    w.cost (.iommu (.__iommuMap iova paddr size)) ret = if ret = 0 then 0 else w.failed := rfl

theorem cost_sync_map {iova size : Nat} {ans : Unit} :
    w.cost (.iommu (.iotlbSyncMap iova size)) ans = w.syncMap := rfl

theorem cost_fq_domain {queued : Bool} : w.cost (.iommu .fqDomain) queued = 0 := rfl

theorem cost_iova_to_phys {iova phys : Nat} : w.cost (.iommu (.iommuIovaToPhys iova)) phys = 0 := rfl

theorem cost_deferred_attach {failed : Bool} : w.cost (.iommu .iommuDeferredAttach) failed = 0 := rfl

theorem cost_swiotlb_active {active : Bool} : w.cost (.iommu .isSwiotlbActive) active = 0 := rfl

theorem cost_swiotlb_map {phys size allocSize ans : Nat} :
    w.cost (.iommu (.swiotlbTblMapSingle phys size allocSize)) ans = 0 := rfl

end

section
variable (w : Weights)

theorem unmap_price_nonneg : 0 ≤ w.unmapPrice := by
  unfold Weights.unmapPrice
  omega

theorem alloc_price_nonneg : 0 ≤ w.allocPrice := by
  unfold Weights.allocPrice
  omega

theorem sync_map_price_nonneg : 0 ≤ w.syncMapPrice := by
  unfold Weights.syncMapPrice
  omega

theorem map_price_nonneg (iovaAddr : Nat) (firstIova : Bool) : 0 ≤ w.mapPrice iovaAddr firstIova := by
  have alloc := alloc_price_nonneg w
  have sync := sync_map_price_nonneg w
  unfold Weights.mapPrice
  split <;> split <;> omega

/- The tail of the unmap: the bounce buffer, if there is one, costs nothing. -/
theorem bounce_affords (phys size : Nat) :
    Affords w.cost (fun _ => True) ((Tree.ask (KernelOp.iommu (.isSwiotlbBuffer phys))).bind fun bounced =>
      if bounced then iommuCall (.swiotlbTblUnmapSingle phys size) else .done ()) 0 := by
  refine ⟨Int.le_refl 0, fun bounced => ?_⟩
  cases bounced with
  | true => exact ⟨Int.le_refl 0, fun _ => ⟨Int.le_refl 0, trivial⟩⟩
  | false => exact ⟨Int.le_refl 0, trivial⟩

theorem give_back_affords (iova iovaSize : Nat) (freeIova : Bool) (gather : IotlbGather) {credit : Int}
    (solvent : 0 ≤ credit) (enough : w.free ≤ credit) :
    Affords w.cost (fun _ => True) (giveBack iova iovaSize freeIova gather) credit := by
  unfold giveBack
  split
  · refine ⟨solvent, fun _ => ⟨?_, trivial⟩⟩
    rw [cost_free]
    omega
  · exact ⟨solvent, trivial⟩

theorem unmap_iova_affords (dmaAddr size iovaSize : Nat) (freeIova : Bool) :
    Affords w.cost (fun _ => True) (__iommuDmaUnmapIova dmaAddr size iovaSize freeIova) w.unmapPrice := by
  have solvent := unmap_price_nonneg w
  have price : w.unmapPrice = max 0 (w.unmap + max 0 w.sync + max 0 w.free) := rfl
  simp only [__iommuDmaUnmapIova, iommuCall, Tree.bind_eq, Tree.ask_bind]
  refine ⟨solvent, fun queued => ⟨?_, fun out => ?_⟩⟩
  · rwa [cost_fq_domain, Int.sub_zero]
  · simp only [cost_fq_domain, cost_unmap, Int.sub_zero]
    split
    · refine ⟨by omega, fun _ => ?_⟩
      rw [cost_sync]
      exact give_back_affords w _ iovaSize freeIova out.2 (by omega) (by omega)
    · exact give_back_affords w _ iovaSize freeIova out.2 (by omega) (by omega)

theorem unmap_page_affords (dmaHandle size iovaSize : Nat) (freeIova : Bool) :
    Affords w.cost (fun _ => True) (iommuDmaUnmapPageIova dmaHandle size iovaSize freeIova)
      w.unmapPrice := by
  simp only [iommuDmaUnmapPageIova, iommuCall, Tree.bind_eq, Tree.ask_bind, Tree.pure_eq]
  refine ⟨unmap_price_nonneg w, fun phys => ?_⟩
  simp only [cost_iova_to_phys, Int.sub_zero]
  split
  · exact ⟨unmap_price_nonneg w, trivial⟩
  · rw [← Int.add_zero w.unmapPrice]
    exact affords_bind (unmap_iova_affords w dmaHandle size iovaSize freeIova)
      (fun _ _ => bounce_affords w phys size) (Int.le_refl 0)

theorem map_atomic_affords (dev : Device) (iova : Nat) (firstIova : Bool) (paddr size : Nat) {credit : Int}
    (enough : (if firstIova then w.syncMapPrice else 0) ≤ credit) :
    Pays w.cost (fun ret left => ret ≠ 0 → w.free ≤ left) (iommuMapAtomic dev iova firstIova paddr size)
      credit := by
  have pays := w.failed_pays
  have price : w.syncMapPrice = max 0 w.syncMap := rfl
  have solvent : 0 ≤ credit := by
    split at enough <;> omega
  simp only [iommuMapAtomic, _iommuMap, iommuCall, Tree.bind_eq, Tree.ask_bind, Tree.pure_eq]
  refine ⟨solvent, fun ret => ?_⟩
  simp only [cost_map]
  split
  · rename_i good
    rw [if_pos good.1, Int.sub_zero]
    refine ⟨solvent, fun _ => ⟨?_, fun bad => absurd good.1 bad⟩⟩
    rw [cost_sync_map]
    rw [if_pos good.2.2] at enough
    omega
  · by_cases good : ret = 0
    · rw [if_pos good, Int.sub_zero]
      exact ⟨solvent, fun bad => absurd good bad⟩
    · rw [if_neg good]
      exact ⟨by omega, fun _ => by omega⟩

theorem place_affords (dev : Device) (phys iovaOff size iova : Nat) (firstIova : Bool) :
    Affords w.cost (fun _ => True) (placeAt dev phys iovaOff size iova firstIova)
      (if firstIova then w.syncMapPrice else 0) := by
  have sync := sync_map_price_nonneg w
  have solvent : 0 ≤ if firstIova then w.syncMapPrice else 0 := by
    split <;> omega
  unfold placeAt
  split
  · exact ⟨solvent, trivial⟩
  · refine Pays.bind (map_atomic_affords w dev iova firstIova _ size (Int.le_refl _)) ?_
    intro ret left rest enough
    split
    · rename_i bad
      refine ⟨rest, fun _ => ⟨?_, trivial⟩⟩
      have now := enough bad
      rw [cost_free]
      omega
    · exact ⟨rest, trivial⟩

theorem dma_map_affords (dev : Device) (phys iovaAddr : Nat) (firstIova : Bool) (size : Nat) :
    Affords w.cost (fun _ => True) (__iommuDmaMap dev phys iovaAddr firstIova size)
      (w.mapPrice iovaAddr firstIova) := by
  have solvent := map_price_nonneg w iovaAddr firstIova
  have price : w.allocPrice = max 0 w.alloc := rfl
  rw [dma_map_eq]
  refine ⟨solvent, fun attach => ?_⟩
  simp only [cost_deferred_attach, Int.sub_zero]
  cases attach with
  | true => exact ⟨solvent, trivial⟩
  | false =>
    simp only [Bool.false_eq_true, ↓reduceIte]
    have placed : ∀ iova, Affords w.cost (fun _ => True)
        (placeAt dev phys (iovaOffset phys) (iovaAlign (size + iovaOffset phys)) iova firstIova)
        (if firstIova then w.syncMapPrice else 0) := fun iova => place_affords w dev _ _ _ iova firstIova
    by_cases given : iovaAddr = 0
    · rw [if_neg (not_not.mpr given)]
      refine ⟨solvent, fun iova => affords_more (placed iova) ?_⟩
      simp only [cost_alloc, Weights.mapPrice, given, ↓reduceIte]
      split <;> split <;> omega
    · rw [if_pos given]
      refine affords_more (placed iovaAddr) ?_
      simp only [Weights.mapPrice, given, ↓reduceIte]
      omega

theorem map_page_affords (dev : Device) (page : Page) (iovaAddr : Nat) (firstIova : Bool)
    (offset size : Nat) :
    Affords w.cost (fun _ => True) (iommuDmaMapPageIova dev page iovaAddr firstIova offset size)
      (w.mapPrice iovaAddr firstIova) := by
  have solvent := map_price_nonneg w iovaAddr firstIova
  have tail : ∀ phys, Affords w.cost (fun _ => True) (mapPageTail dev phys iovaAddr firstIova size)
      (w.mapPrice iovaAddr firstIova) := by
    intro phys
    simp only [mapPageTail, iommuCall, Tree.bind_eq, Tree.ask_bind, Tree.pure_eq]
    rw [← Int.add_zero (w.mapPrice iovaAddr firstIova)]
    refine affords_bind (dma_map_affords w dev phys iovaAddr firstIova size) (fun iova _ => ?_)
      (Int.le_refl 0)
    split
    · refine ⟨Int.le_refl 0, fun bounced => ?_⟩
      cases bounced with
      | true => exact ⟨Int.le_refl 0, fun _ => ⟨Int.le_refl 0, trivial⟩⟩
      | false => exact ⟨Int.le_refl 0, trivial⟩
    · exact ⟨Int.le_refl 0, trivial⟩
  simp only [iommuDmaMapPageIova, iommuCall, Tree.bind_eq, Tree.ask_bind, Tree.pure_eq]
  split
  · refine ⟨solvent, fun active => ?_⟩
    simp only [cost_swiotlb_active, Int.sub_zero]
    cases active with
    | false => exact ⟨solvent, trivial⟩
    | true =>
      simp only [↓reduceIte]
      refine ⟨solvent, fun phys => ?_⟩
      simp only [cost_swiotlb_map, Int.sub_zero]
      split
      · exact ⟨solvent, trivial⟩
      · exact tail phys
  · exact tail _

end

/- Only mappings that take the way of dma-iommu cost anything. -/
def onRoute (dev : Device) (price : Int) : Int := if deviceRoute dev = .dmaIommu then price else 0

theorem on_route_nonneg (dev : Device) {price : Int} (solvent : 0 ≤ price) : 0 ≤ onRoute dev price := by
  unfold onRoute
  split <;> omega

theorem on_route_le (dev : Device) {price : Int} (solvent : 0 ≤ price) : onRoute dev price ≤ price := by
  unfold onRoute
  split <;> omega

/- What a driver's call can come to on this device. -/
def Weights.price (w : Weights) (dev : Device) : (op : RxOp) → op.Ans → Int
  | .page .rxCacheEntries, pages => w.drained * pages.length
  | .page (.rxCachePut _), taken => if taken then 0 else w.refused
  | .page _, _ => 0
  | .dma (.dmaMapPageAttrs _ _ _), _ => onRoute dev w.allocPrice
  | .dma (.dmaMapPageAttrsIova _ iova firstIova _ _), _ => onRoute dev (w.mapPrice iova firstIova)
  | .dma (.dmaUnmapPageAttrs _ _), _ => onRoute dev w.unmapPrice
  | .dma (.dmaUnmapPageAttrsIova _ _ _ _), _ => onRoute dev w.unmapPrice
  | .dma (.iommuDmaAllocIova _), iova => if iova = 0 then 0 else w.alloc

section
variable (w : Weights) (dev : Device)

/-- The ways that bypass dma-iommu. -/
theorem bypass_affords {op : IommuOp} (nothing : ∀ r, w.iommuCost op r = 0) {price : Int}
    (solvent : 0 ≤ price) : Affords w.cost (fun _ => True) (iommuCall op) price := by
  refine ⟨solvent, fun r => ⟨?_, trivial⟩⟩
  simpa only [Weights.cost, nothing, Int.sub_zero] using solvent

theorem map_attrs_affords (page : Page) (iova : Nat) (firstIova : Bool) (offset size : Nat) :
    Affords w.cost (fun _ => True) (dmaMapPageAttrsIova dev page iova firstIova offset size)
      (onRoute dev (w.mapPrice iova firstIova)) := by
  have solvent := on_route_nonneg dev (map_price_nonneg w iova firstIova)
  unfold dmaMapPageAttrsIova
  split
  · split
    · exact bypass_affords w (fun _ => rfl) solvent
    · rename_i direct
      split
      · rename_i ops
        rw [onRoute, if_pos (iommu_route direct ops)]
        exact map_page_affords w dev page iova firstIova offset size
      · exact bypass_affords w (fun _ => rfl) solvent
  · exact ⟨solvent, trivial⟩

theorem unmap_attrs_affords (addr size iovaSize : Nat) (freeIova : Bool) :
    Affords w.cost (fun _ => True) (dmaUnmapPageAttrsIova dev addr size iovaSize freeIova)
      (onRoute dev w.unmapPrice) := by
  have solvent := on_route_nonneg dev (unmap_price_nonneg w)
  unfold dmaUnmapPageAttrsIova
  split
  · exact bypass_affords w (fun _ => rfl) solvent
  · rename_i direct
    split
    · rename_i ops
      rw [onRoute, if_pos (iommu_route direct ops)]
      exact unmap_page_affords w addr size iovaSize freeIova
    · exact bypass_affords w (fun _ => rfl) solvent
    · exact ⟨solvent, trivial⟩

theorem unmap_attrs_plain (addr size : Nat) :
    dmaUnmapPageAttrs dev addr size =
      dmaUnmapPageAttrsIova dev addr size (iovaAlign (size + iovaOffset addr)) true := by
  simp only [dmaUnmapPageAttrs, dmaUnmapPageAttrsIova, unmap_page_is_unmap_page_iova]

theorem map_price_plain : w.mapPrice 0 false = w.allocPrice := by
  simp [Weights.mapPrice]

theorem dma_impl_pays (op : RxOp) (credit : Int) (solvent : 0 ≤ credit)
    (enough : ∀ r, w.price dev op r ≤ credit) :
    Pays w.cost (fun r left => credit - w.price dev op r ≤ left) (dmaImpl dev op) credit := by
  have fixed : ∀ {α : Type} {t : Kernel α} {price : Int}, Affords w.cost (fun _ => True) t price →
      price ≤ credit → Pays w.cost (fun _ left => credit - price ≤ left) t credit := by
    intro α t price affords below
    rw [← Tree.bind_done t]
    exact Pays.bind (affords_keeps affords below) fun a left rest fine => ⟨rest, fine.1⟩
  have asked : ∀ op : KernelOp, (∀ r, w.cost op r ≤ credit) →
      Pays w.cost (fun r left => credit - w.cost op r ≤ left) (Tree.ask op) credit := by
    intro op below
    refine ⟨solvent, fun r => ⟨?_, Int.le_refl _⟩⟩
    have now := below r
    omega
  cases op with
  | page op => cases op <;> exact asked _ enough
  | dma op =>
    cases op with
    | dmaMapPageAttrs page offset size =>
      have paid := map_attrs_affords w dev page 0 false offset size
      rw [map_price_plain] at paid
      exact fixed paid (enough 0)
    | dmaMapPageAttrsIova page iova firstIova offset size =>
      exact fixed (map_attrs_affords w dev page iova firstIova offset size) (enough 0)
    | dmaUnmapPageAttrs addr size =>
      have paid := unmap_attrs_affords w dev addr size (iovaAlign (size + iovaOffset addr)) true
      rw [← unmap_attrs_plain] at paid
      exact fixed paid (enough ())
    | dmaUnmapPageAttrsIova addr size iovaSize freeIova =>
      exact fixed (unmap_attrs_affords w dev addr size iovaSize freeIova) (enough ())
    | iommuDmaAllocIova size => exact asked (.iommu (.iommuDmaAllocIova size)) enough

end

end CallCosts
