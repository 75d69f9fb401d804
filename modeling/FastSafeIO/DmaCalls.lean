import FastSafeIO.DmaLayer

/- Which kernel calls each function of the DMA layer can make, whatever the answers. -/
namespace DmaCalls
open CallTree KernelCalls DmaLayer

/- Where the DMA layer takes a device's mappings. -/
inductive Route where
  | direct
  | dmaIommu
  | ops
  deriving DecidableEq, Repr

def deviceRoute (dev : Device) : Route :=
  if dev.dmaMapDirect then .direct
  else match dev.mapOps with
    | .iommuDma => .dmaIommu
    | .other _ => .ops

/-- The calls of a map function of dma-iommu that was given this first_iova and size. -/
def MapCall (firstIova : Bool) (size : Nat) : KernelOp → Prop
  | .page _ => False
  | .iommu op => match op with
    | .iommuDmaFreeIova _ given _ => ∃ addr, given = iovaAlign (size + iovaOffset addr)
    | .iotlbSyncMap _ _ => firstIova = true
    | .fqDomain => False
    | .iommuUnmapFast _ _ _ => False
    | .iommuIotlbSync _ => False
    | .iommuIovaToPhys _ => False
    | .dmaDirectMapPage _ _ => False
    | .dmaDirectUnmapPage _ _ => False
    | .mapPage _ _ => False
    | .unmapPage _ _ => False
    | _ => True

/-- The calls of an unmap function of dma-iommu that may give back a range of this size. -/
def UnmapCall (iovaSize : Nat) : KernelOp → Prop
  | .page _ => False
  | .iommu op => match op with
    | .iommuDmaFreeIova _ given _ => given = iovaSize
    | .fqDomain => True
    | .iommuUnmapFast _ _ _ => True
    | .iommuIotlbSync _ => True
    | .iommuIovaToPhys _ => True
    | .isSwiotlbBuffer _ => True
    | .swiotlbTblUnmapSingle _ _ => True
    | _ => False

/-- The calls of the routes that bypass dma-iommu. -/
def Bypass (dev : Device) : KernelOp → Prop
  | .page _ => False
  | .iommu op => match op with
    | .dmaDirectMapPage _ _ => deviceRoute dev = .direct
    | .dmaDirectUnmapPage _ _ => deviceRoute dev = .direct
    | .mapPage _ _ => deviceRoute dev = .ops
    | .unmapPage _ _ => deviceRoute dev = .ops
    | _ => False

/-- The calls that carry out a driver's call. -/
def ImplCall (dev : Device) : RxOp → KernelOp → Prop
  | .page op => (· = .page op)
  | .dma (.dmaMapPageAttrs _ _ size) => fun low =>
    (deviceRoute dev = .dmaIommu ∧ MapCall false size low) ∨ Bypass dev low
  | .dma (.dmaMapPageAttrsIova _ _ firstIova _ size) => fun low =>
    (deviceRoute dev = .dmaIommu ∧ MapCall firstIova size low) ∨ Bypass dev low
  | .dma (.dmaUnmapPageAttrs addr size) => fun low =>
    (deviceRoute dev = .dmaIommu ∧ UnmapCall (iovaAlign (size + iovaOffset addr)) low) ∨ Bypass dev low
  | .dma (.dmaUnmapPageAttrsIova _ _ iovaSize _) => fun low =>
    (deviceRoute dev = .dmaIommu ∧ UnmapCall iovaSize low) ∨ Bypass dev low
  | .dma (.iommuDmaAllocIova size) => (· = .iommu (.iommuDmaAllocIova size))

section
variable (dev : Device) (firstIova : Bool) (size : Nat)

theorem map_atomic_calls (iova paddr length : Nat) :
    (iommuMapAtomic dev iova firstIova paddr length).Calls (MapCall firstIova size) := by
  unfold iommuMapAtomic _iommuMap
  refine ⟨trivial, fun ret => ?_⟩
  simp only [Tree.bind_eq, Tree.done_bind]
  split
  · rename_i good
    exact ⟨good.2.2, fun _ => trivial⟩
  · trivial

theorem place_calls (phys iovaOff iova addr : Nat) :
    (placeAt dev phys iovaOff (iovaAlign (size + iovaOffset addr)) iova firstIova).Calls
      (MapCall firstIova size) := by
  unfold placeAt
  split
  · trivial
  · apply Tree.Calls.bind (map_atomic_calls dev firstIova size _ _ _)
    intro ret
    split
    · exact ⟨⟨addr, rfl⟩, fun _ => trivial⟩
    · trivial

theorem dma_map_calls (phys iovaAddr : Nat) :
    (__iommuDmaMap dev phys iovaAddr firstIova size).Calls (MapCall firstIova size) := by
  rw [dma_map_eq]
  refine ⟨trivial, fun attach => ?_⟩
  cases attach
  · simp only [Bool.false_eq_true, ↓reduceIte]
    split
    · exact place_calls dev firstIova size _ _ _ phys
    · exact ⟨trivial, fun iova => place_calls dev firstIova size _ _ iova phys⟩
  · trivial

theorem map_tail_calls (phys iovaAddr : Nat) :
    (mapPageTail dev phys iovaAddr firstIova size).Calls (MapCall firstIova size) := by
  unfold mapPageTail
  apply Tree.Calls.bind (dma_map_calls dev firstIova size phys iovaAddr)
  intro iova
  split
  · refine ⟨trivial, fun bounced => ?_⟩
    cases bounced
    · trivial
    · exact ⟨trivial, fun _ => trivial⟩
  · trivial

theorem map_page_calls (page : Page) (iovaAddr offset : Nat) :
    (iommuDmaMapPageIova dev page iovaAddr firstIova offset size).Calls (MapCall firstIova size) := by
  unfold iommuDmaMapPageIova
  dsimp only
  split
  · refine ⟨trivial, fun active => ?_⟩
    cases active
    · trivial
    · refine ⟨trivial, fun phys => ?_⟩
      by_cases failed : phys = DMA_MAPPING_ERROR
      · simp [failed]
      · simpa [failed] using map_tail_calls dev firstIova size phys iovaAddr
  · exact map_tail_calls dev firstIova size _ iovaAddr

theorem map_resource_calls (phys : Nat) :
    (iommuDmaMapResource dev phys size).Calls (MapCall false size) :=
  dma_map_calls dev false size phys 0

theorem dma_alloc_calls (buffer : Option Page) :
    (iommuDmaAlloc dev buffer size).Calls (MapCall false size) := by
  unfold iommuDmaAlloc
  split
  · trivial
  · apply Tree.Calls.bind (dma_map_calls dev false size _ 0)
    intro handle
    split <;> trivial

end

theorem unmap_iova_calls (dmaAddr size iovaSize : Nat) (freeIova : Bool) :
    (__iommuDmaUnmapIova dmaAddr size iovaSize freeIova).Calls (UnmapCall iovaSize) := by
  have last : ∀ gather : IotlbGather, (giveBack (dmaAddr - iovaOffset dmaAddr) iovaSize freeIova
      gather).Calls (UnmapCall iovaSize) := by
    intro gather
    unfold giveBack
    split
    · exact ⟨rfl, fun _ => trivial⟩
    · trivial
  simp only [__iommuDmaUnmapIova, iommuCall, Tree.bind_eq, Tree.ask_bind]
  refine ⟨trivial, fun queued => ⟨trivial, fun out => ?_⟩⟩
  dsimp only
  split
  · exact ⟨trivial, fun _ => last out.2⟩
  · exact last out.2

theorem unmap_page_calls (dmaHandle size iovaSize : Nat) (freeIova : Bool) :
    (iommuDmaUnmapPageIova dmaHandle size iovaSize freeIova).Calls (UnmapCall iovaSize) := by
  unfold iommuDmaUnmapPageIova
  refine ⟨trivial, fun phys => ?_⟩
  simp only [Tree.bind_eq, Tree.done_bind]
  split
  · trivial
  · apply Tree.Calls.bind (unmap_iova_calls dmaHandle size iovaSize freeIova)
    refine fun _ => ⟨trivial, fun bounced => ?_⟩
    cases bounced
    · trivial
    · exact ⟨trivial, fun _ => trivial⟩

section
variable {dev : Device}

theorem direct_route (direct : dev.dmaMapDirect = true) : deviceRoute dev = .direct := by
  simp [deviceRoute, direct]

theorem iommu_route (direct : ¬ dev.dmaMapDirect = true) (ops : dev.mapOps = .iommuDma) :
    deviceRoute dev = .dmaIommu := by
  simp [deviceRoute, direct, ops]

theorem of_iommu_route (route : deviceRoute dev = .dmaIommu) :
    dev.dmaMapDirect = false ∧ dev.mapOps = .iommuDma := by
  unfold deviceRoute at route
  split at route
  · cases route
  · rename_i direct
    split at route
    · rename_i ops
      exact ⟨eq_false_of_ne_true direct, ops⟩
    · cases route

theorem ops_route {unmapPage : Bool} (direct : ¬ dev.dmaMapDirect = true)
    (ops : dev.mapOps = .other unmapPage) : deviceRoute dev = .ops := by
  simp [deviceRoute, direct, ops]

end

/-- On any device, a driver's call is carried out by calls of its own kind and route. -/
theorem dma_impl_calls (dev : Device) (op : RxOp) : (dmaImpl dev op).Calls (ImplCall dev op) := by
  cases op with
  | page op => exact ⟨rfl, fun _ => trivial⟩
  | dma op =>
    cases op with
    | dmaMapPageAttrs page offset size =>
      simp only [dmaImpl, dmaMapPageAttrs, iommuDmaMapPage]
      split
      · split
        · rename_i direct
          exact ⟨Or.inr (direct_route direct), fun _ => trivial⟩
        · rename_i direct
          split
          · rename_i ops
            exact (map_page_calls dev false size page 0 offset).mono fun _ made =>
              Or.inl ⟨iommu_route direct ops, made⟩
          · rename_i ops
            exact ⟨Or.inr (ops_route direct ops), fun _ => trivial⟩
      · trivial
    | dmaMapPageAttrsIova page iova firstIova offset size =>
      simp only [dmaImpl, dmaMapPageAttrsIova]
      split
      · split
        · rename_i direct
          exact ⟨Or.inr (direct_route direct), fun _ => trivial⟩
        · rename_i direct
          split
          · rename_i ops
            exact (map_page_calls dev firstIova size page iova offset).mono fun _ made =>
              Or.inl ⟨iommu_route direct ops, made⟩
          · rename_i ops
            exact ⟨Or.inr (ops_route direct ops), fun _ => trivial⟩
      · trivial
    | dmaUnmapPageAttrs addr size =>
      simp only [dmaImpl, dmaUnmapPageAttrs, unmap_page_is_unmap_page_iova]
      split
      · rename_i direct
        exact ⟨Or.inr (direct_route direct), fun _ => trivial⟩
      · rename_i direct
        split
        · rename_i ops
          exact (unmap_page_calls addr size _ true).mono fun _ made =>
            Or.inl ⟨iommu_route direct ops, made⟩
        · rename_i ops
          exact ⟨Or.inr (ops_route direct ops), fun _ => trivial⟩
        · trivial
    | dmaUnmapPageAttrsIova addr size iovaSize freeIova =>
      simp only [dmaImpl, dmaUnmapPageAttrsIova]
      split
      · rename_i direct
        exact ⟨Or.inr (direct_route direct), fun _ => trivial⟩
      · rename_i direct
        split
        · rename_i ops
          exact (unmap_page_calls addr size iovaSize freeIova).mono fun _ made =>
            Or.inl ⟨iommu_route direct ops, made⟩
        · rename_i ops
          exact ⟨Or.inr (ops_route direct ops), fun _ => trivial⟩
        · trivial
    | iommuDmaAllocIova size => exact ⟨rfl, fun _ => trivial⟩

/-- The route that a map or unmap call belongs to. -/
def opRoute : KernelOp → Option Route
  | .page _ => none
  | .iommu op => match op with
    | .dmaDirectMapPage _ _ => some .direct
    | .dmaDirectUnmapPage _ _ => some .direct
    | .mapPage _ _ => some .ops
    | .unmapPage _ _ => some .ops
    | .__iommuMap _ _ _ => some .dmaIommu
    | .iommuUnmapFast _ _ _ => some .dmaIommu
    | _ => none

theorem bypass_route {dev : Device} {low : KernelOp} (made : Bypass dev low) :
    opRoute low = some (deviceRoute dev) := by
  cases low with
  | page low => cases made
  | iommu low =>
    cases low
    case dmaDirectMapPage => exact congrArg some made.symm
    case dmaDirectUnmapPage => exact congrArg some made.symm
    case mapPage => exact congrArg some made.symm
    case unmapPage => exact congrArg some made.symm
    all_goals cases made

theorem iommu_call_route {low : KernelOp} (made : (∃ firstIova size, MapCall firstIova size low) ∨
    ∃ iovaSize, UnmapCall iovaSize low) : ∀ r ∈ opRoute low, r = .dmaIommu := by
  cases low with
  | page low => rcases made with ⟨_, _, made⟩ | ⟨_, made⟩ <;> cases made
  | iommu low =>
    cases low
    case dmaDirectMapPage => rcases made with ⟨_, _, made⟩ | ⟨_, made⟩ <;> cases made
    case dmaDirectUnmapPage => rcases made with ⟨_, _, made⟩ | ⟨_, made⟩ <;> cases made
    case mapPage => rcases made with ⟨_, _, made⟩ | ⟨_, made⟩ <;> cases made
    case unmapPage => rcases made with ⟨_, _, made⟩ | ⟨_, made⟩ <;> cases made
    all_goals simp [opRoute]

theorem impl_call_route {dev : Device} {op : RxOp} {low : KernelOp} (made : ImplCall dev op low) :
    ∀ r ∈ opRoute low, r = deviceRoute dev := by
  have aside : Bypass dev low → ∀ r ∈ opRoute low, r = deviceRoute dev := by
    intro bypass r here
    rw [bypass_route bypass] at here
    exact (Option.some.inj here).symm
  cases op with
  | page op =>
    cases made
    simp [opRoute]
  | dma op =>
    cases op with
    | iommuDmaAllocIova size =>
      cases made
      simp [opRoute]
    | dmaMapPageAttrs page offset size =>
      rcases made with ⟨route, made⟩ | bypass
      · rw [route]
        exact iommu_call_route (.inl ⟨_, _, made⟩)
      · exact aside bypass
    | dmaMapPageAttrsIova page iova firstIova offset size =>
      rcases made with ⟨route, made⟩ | bypass
      · rw [route]
        exact iommu_call_route (.inl ⟨_, _, made⟩)
      · exact aside bypass
    | dmaUnmapPageAttrs addr size =>
      rcases made with ⟨route, made⟩ | bypass
      · rw [route]
        exact iommu_call_route (.inr ⟨_, made⟩)
      · exact aside bypass
    | dmaUnmapPageAttrsIova addr size iovaSize freeIova =>
      rcases made with ⟨route, made⟩ | bypass
      · rw [route]
        exact iommu_call_route (.inr ⟨_, made⟩)
      · exact aside bypass

theorem device_calls_route (dev : Device) (t : Rx α) :
    (onDevice dev t).Calls fun low => ∀ r ∈ opRoute low, r = deviceRoute dev :=
  (Tree.calls_anything t).interp fun op _ => (dma_impl_calls dev op).mono fun _ => impl_call_route

end DmaCalls
