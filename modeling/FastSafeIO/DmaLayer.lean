import FastSafeIO.KernelCalls

/- The DMA mapping layer as the patch leaves it: drivers/iommu/iommu.c,
   drivers/iommu/dma-iommu.c and kernel/dma/mapping.c. Protection bits, directions,
   attributes and CPU cache maintenance decide nothing here and are left out. -/
namespace DmaLayer
open CallTree KernelCalls
set_option linter.style.nameCheck false

/- Which map operations the device uses. Only other tables may lack unmap_page. -/
inductive MapOps where
  | iommuDma
  | other (unmapPage : Bool)
  deriving DecidableEq, Repr

structure Device where
  iommuMapped : Bool
  iovaCookie : Bool
  dmaMapDirect : Bool
  mapOps : MapOps
  dmaMask : Bool
  useSwiotlb : Bool
  syncMap : Bool
  deriving DecidableEq, Repr

/- Direct mapping and dma-iommu exclude each other, and the dma-iommu operations
   are installed only on a group whose domain has got its cookie. -/
structure Device.Wf (dev : Device) : Prop where
  cookie : dev.dmaMapDirect = false → dev.mapOps = .iommuDma →
    dev.iommuMapped = true ∧ dev.iovaCookie = true
  mask : dev.dmaMask = true

def iommuCall (op : IommuOp) : Kernel op.Ans := Tree.ask (KernelOp.iommu op)

def iovaOffset (addr : Nat) : Nat := addr % PAGE_SIZE

def iovaAlign (size : Nat) : Nat := (size + (PAGE_SIZE - 1)) / PAGE_SIZE * PAGE_SIZE

/- drivers/iommu/iommu.c -/

def _iommuMap (dev : Device) (iova : Nat) (firstIova : Bool) (paddr size : Nat) : Kernel Int := do
  let ret ← iommuCall (.__iommuMap iova paddr size)
  if ret = 0 ∧ dev.syncMap ∧ firstIova then iommuCall (.iotlbSyncMap iova (size * 64))
  pure ret

def iommuMap (dev : Device) (iova paddr size : Nat) : Kernel Int :=
  _iommuMap dev iova false paddr size

def iommuMapAtomic (dev : Device) (iova : Nat) (firstIova : Bool) (paddr size : Nat) :
    Kernel Int :=
  _iommuMap dev iova firstIova paddr size

/- drivers/iommu/dma-iommu.c -/

def __iommuDmaUnmap (dmaAddr size : Nat) : Kernel Unit := do
  let iovaOff := iovaOffset dmaAddr
  let dmaAddr := dmaAddr - iovaOff
  let size := iovaAlign (size + iovaOff)
  let queued ← iommuCall .fqDomain
  let (_, gather) ← iommuCall (.iommuUnmapFast dmaAddr size (.init queued))
  if !gather.queued then iommuCall (.iommuIotlbSync gather)
  iommuCall (.iommuDmaFreeIova dmaAddr size (some gather))

def __iommuDmaUnmapIova (dmaAddr size iovaSize : Nat) (freeIova : Bool) : Kernel Unit := do
  let iovaOff := iovaOffset dmaAddr
  let dmaAddr := dmaAddr - iovaOff
  let size := iovaAlign (size + iovaOff)
  let queued ← iommuCall .fqDomain
  let (_, gather) ← iommuCall (.iommuUnmapFast dmaAddr size (.init queued))
  if !gather.queued then iommuCall (.iommuIotlbSync gather)
  if freeIova then iommuCall (.iommuDmaFreeIova dmaAddr iovaSize (some gather))

def __iommuDmaMap (dev : Device) (phys iovaAddr : Nat) (firstIova : Bool) (size : Nat) :
    Kernel Nat := do
  let iovaOff := iovaOffset phys
  if ← iommuCall .iommuDeferredAttach then
    pure DMA_MAPPING_ERROR
  else
    let size := iovaAlign (size + iovaOff)
    let iova ← if iovaAddr ≠ 0 then pure iovaAddr else iommuCall (.iommuDmaAllocIova size)
    if iova = 0 then
      pure DMA_MAPPING_ERROR
    else
      let ret ← iommuMapAtomic dev iova firstIova (phys - iovaOff) size
      if ret ≠ 0 then
        iommuCall (.iommuDmaFreeIova iova size none)
        pure DMA_MAPPING_ERROR
      else
        pure (iova + iovaOff)

/- The tail of both map_page functions, after the bounce buffer is settled. -/
def mapPageTail (dev : Device) (phys iovaAddr : Nat) (firstIova : Bool) (size : Nat) :
    Kernel Nat := do
  let iova ← __iommuDmaMap dev phys iovaAddr firstIova size
  if iova = DMA_MAPPING_ERROR then
    if ← iommuCall (.isSwiotlbBuffer phys) then iommuCall (.swiotlbTblUnmapSingle phys size)
  pure iova

def iommuDmaMapPageIova (dev : Device) (page : Page) (iovaAddr : Nat) (firstIova : Bool)
    (offset size : Nat) : Kernel Nat := do
  let phys := pageToPhys page + offset
  if dev.useSwiotlb ∧ iovaOffset (phys ||| size) ≠ 0 then
    if ← iommuCall .isSwiotlbActive then
      let phys ← iommuCall (.swiotlbTblMapSingle phys size (iovaAlign size))
      if phys = DMA_MAPPING_ERROR then
        pure DMA_MAPPING_ERROR
      else
        mapPageTail dev phys iovaAddr firstIova size
    else
      pure DMA_MAPPING_ERROR
  else
    mapPageTail dev phys iovaAddr firstIova size

/- The same text with 0 and false for the two new arguments. -/
def iommuDmaMapPage (dev : Device) (page : Page) (offset size : Nat) : Kernel Nat :=
  iommuDmaMapPageIova dev page 0 false offset size

def iommuDmaUnmapPage (dmaHandle size : Nat) : Kernel Unit := do
  let phys ← iommuCall (.iommuIovaToPhys dmaHandle)
  if phys = 0 then
    pure ()
  else
    __iommuDmaUnmap dmaHandle size
    if ← iommuCall (.isSwiotlbBuffer phys) then iommuCall (.swiotlbTblUnmapSingle phys size)

def iommuDmaUnmapPageIova (dmaHandle size iovaSize : Nat) (freeIova : Bool) : Kernel Unit := do
  let phys ← iommuCall (.iommuIovaToPhys dmaHandle)
  if phys = 0 then
    pure ()
  else
    __iommuDmaUnmapIova dmaHandle size iovaSize freeIova
    if ← iommuCall (.isSwiotlbBuffer phys) then iommuCall (.swiotlbTblUnmapSingle phys size)

def iommuDmaMapResource (dev : Device) (phys size : Nat) : Kernel Nat :=
  __iommuDmaMap dev phys 0 false size

/- The allocated buffer is none when no memory was available. -/
def iommuDmaAlloc (dev : Device) (buffer : Option Page) (size : Nat) : Kernel (Option Nat) :=
  match buffer with
  | none => pure none
  | some page => do
    let handle ← __iommuDmaMap dev (pageToPhys page) 0 false size
    if handle = DMA_MAPPING_ERROR then pure none else pure (some handle)

/- kernel/dma/mapping.c -/

def dmaMapPageAttrs (dev : Device) (page : Page) (offset size : Nat) : Kernel Nat :=
  if dev.dmaMask then
    if dev.dmaMapDirect then
      iommuCall (.dmaDirectMapPage (pageToPhys page + offset) size)
    else
      match dev.mapOps with
      | .iommuDma => iommuDmaMapPage dev page offset size
      | .other _ => iommuCall (.mapPage (pageToPhys page + offset) size)
  else
    pure DMA_MAPPING_ERROR

def dmaMapPageAttrsIova (dev : Device) (page : Page) (iova : Nat) (firstIova : Bool)
    (offset size : Nat) : Kernel Nat :=
  if dev.dmaMask then
    if dev.dmaMapDirect then
      iommuCall (.dmaDirectMapPage (pageToPhys page + offset) size)
    else
      match dev.mapOps with
      | .iommuDma => iommuDmaMapPageIova dev page iova firstIova offset size
      | .other _ => iommuCall (.mapPage (pageToPhys page + offset) size)
  else
    pure DMA_MAPPING_ERROR

def dmaUnmapPageAttrs (dev : Device) (addr size : Nat) : Kernel Unit :=
  if dev.dmaMapDirect then
    iommuCall (.dmaDirectUnmapPage addr size)
  else
    match dev.mapOps with
    | .iommuDma => iommuDmaUnmapPage addr size
    | .other true => iommuCall (.unmapPage addr size)
    | .other false => pure ()

def dmaUnmapPageAttrsIova (dev : Device) (addr size iovaSize : Nat) (freeIova : Bool) :
    Kernel Unit :=
  if dev.dmaMapDirect then
    iommuCall (.dmaDirectUnmapPage addr size)
  else
    match dev.mapOps with
    | .iommuDma => iommuDmaUnmapPageIova addr size iovaSize freeIova
    | .other true => iommuCall (.unmapPage addr size)
    | .other false => pure ()

/- The calls the network driver makes, as it names them. -/
inductive DmaOp where
  | dmaMapPageAttrs (page : Page) (offset size : Nat)
  | dmaMapPageAttrsIova (page : Page) (iova : Nat) (firstIova : Bool) (offset size : Nat)
  | dmaUnmapPageAttrs (addr size : Nat)
  | dmaUnmapPageAttrsIova (addr size iovaSize : Nat) (freeIova : Bool)
  | iommuDmaAllocIova (size : Nat)
  deriving DecidableEq, Repr

@[reducible] def DmaOp.Ans : DmaOp → Type
  | .dmaMapPageAttrs _ _ _ => Nat
  | .dmaMapPageAttrsIova _ _ _ _ _ => Nat
  | .iommuDmaAllocIova _ => Nat
  | _ => Unit

inductive RxOp where
  | page (op : PageOp)
  | dma (op : DmaOp)
  deriving DecidableEq, Repr

@[reducible] def RxOp.Ans : RxOp → Type
  | .page op => op.Ans
  | .dma op => op.Ans

abbrev Rx (α : Type) : Type := Tree RxOp RxOp.Ans α

def dmaImpl (dev : Device) : (op : RxOp) → Kernel op.Ans
  | .page op => Tree.ask (KernelOp.page op)
  | .dma (.dmaMapPageAttrs page offset size) => dmaMapPageAttrs dev page offset size
  | .dma (.dmaMapPageAttrsIova page iova firstIova offset size) =>
    dmaMapPageAttrsIova dev page iova firstIova offset size
  | .dma (.dmaUnmapPageAttrs addr size) => dmaUnmapPageAttrs dev addr size
  | .dma (.dmaUnmapPageAttrsIova addr size iovaSize freeIova) =>
    dmaUnmapPageAttrsIova dev addr size iovaSize freeIova
  | .dma (.iommuDmaAllocIova size) => iommuCall (.iommuDmaAllocIova size)

/- A driver program with its DMA calls carried out. -/
def onDevice {α : Type} (dev : Device) (t : Rx α) : Kernel α := t.interp (dmaImpl dev)

/- The old unmap is the new one that frees exactly what it unmapped. -/
theorem unmap_is_unmap_iova (dmaAddr size : Nat) :
    __iommuDmaUnmap dmaAddr size =
      __iommuDmaUnmapIova dmaAddr size (iovaAlign (size + iovaOffset dmaAddr)) true := by
  simp [__iommuDmaUnmap, __iommuDmaUnmapIova]

theorem unmap_page_is_unmap_page_iova (dmaHandle size : Nat) :
    iommuDmaUnmapPage dmaHandle size =
      iommuDmaUnmapPageIova dmaHandle size (iovaAlign (size + iovaOffset dmaHandle)) true := by
  simp only [iommuDmaUnmapPage, iommuDmaUnmapPageIova, unmap_is_unmap_iova]

/- The end of __iommuDmaUnmapIova, after the unmap. -/
def giveBack (iova iovaSize : Nat) (freeIova : Bool) (gather : IotlbGather) : Kernel Unit :=
  if freeIova then .call (.iommu (.iommuDmaFreeIova iova iovaSize (some gather))) .done else .done ()

theorem unmap_aligned_eq {iova size : Nat} (iovaSize : Nat) (freeIova : Bool)
    (aligned : iovaOffset iova = 0) (whole : iovaAlign size = size) :
    __iommuDmaUnmapIova iova size iovaSize freeIova =
      .call (.iommu .fqDomain) fun queued =>
        .call (.iommu (.iommuUnmapFast iova size (.init queued))) fun out =>
          if out.2.queued then giveBack iova iovaSize freeIova out.2
          else .call (.iommu (.iommuIotlbSync out.2)) fun _ =>
            giveBack iova iovaSize freeIova out.2 := by
  unfold __iommuDmaUnmapIova
  rw [aligned]
  dsimp only
  rw [Nat.add_zero, Nat.sub_zero, whole]
  simp only [iommuCall, Tree.bind_eq, Tree.ask_bind, Tree.pure_eq, giveBack]
  congr 1
  funext queued
  congr 1
  funext out
  cases out.2.queued <;> rfl

theorem page_address_aligned (page : Page) : iovaOffset (pageToPhys page) = 0 := by
  simp [iovaOffset, pageToPhys]

theorem page_needs_no_bounce (page : Page) :
    iovaOffset (pageToPhys page ||| PAGE_SIZE) = 0 := by
  have split : pageToPhys page ||| PAGE_SIZE = (page.pfn ||| 1) <<< 12 := by
    rw [Nat.shiftLeft_or_distrib]
    simp [pageToPhys, PAGE_SIZE, Nat.shiftLeft_eq]
  rw [split]
  simp [iovaOffset, PAGE_SIZE, Nat.shiftLeft_eq]

/- The end of __iommuDmaMap, once the address is decided. -/
def placeAt (dev : Device) (phys iovaOff size iova : Nat) (firstIova : Bool) : Kernel Nat :=
  if iova = 0 then
    .done DMA_MAPPING_ERROR
  else
    (iommuMapAtomic dev iova firstIova (phys - iovaOff) size).bind fun ret =>
      if ret ≠ 0 then
        .call (.iommu (.iommuDmaFreeIova iova size none)) fun _ => .done DMA_MAPPING_ERROR
      else
        .done (iova + iovaOff)

theorem dma_map_eq (dev : Device) (phys iovaAddr size : Nat) (firstIova : Bool) :
    __iommuDmaMap dev phys iovaAddr firstIova size =
      .call (.iommu .iommuDeferredAttach) fun attach =>
        if attach then .done DMA_MAPPING_ERROR
        else if iovaAddr ≠ 0 then
          placeAt dev phys (iovaOffset phys) (iovaAlign (size + iovaOffset phys)) iovaAddr firstIova
        else
          .call (.iommu (.iommuDmaAllocIova (iovaAlign (size + iovaOffset phys)))) fun iova =>
            placeAt dev phys (iovaOffset phys) (iovaAlign (size + iovaOffset phys)) iova
              firstIova := by
  unfold __iommuDmaMap
  simp only [iommuCall, Tree.bind_eq, Tree.ask_bind, Tree.pure_eq]
  congr 1

abbrev placePage (dev : Device) (page : Page) (iova : Nat) (firstIova : Bool) : Kernel Nat :=
  placeAt dev (pageToPhys page) 0 PAGE_SIZE iova firstIova

theorem dma_map_page_eq (dev : Device) (page : Page) (iova : Nat) (firstIova : Bool) :
    __iommuDmaMap dev (pageToPhys page) iova firstIova PAGE_SIZE =
      .call (.iommu .iommuDeferredAttach) fun attach =>
        if attach then .done DMA_MAPPING_ERROR
        else if iova ≠ 0 then placePage dev page iova firstIova
        else .call (.iommu (.iommuDmaAllocIova PAGE_SIZE)) fun iova =>
          placePage dev page iova firstIova := by
  have whole : iovaAlign (PAGE_SIZE + 0) = PAGE_SIZE := by decide
  rw [dma_map_eq, page_address_aligned, whole]

theorem map_page_iova_eq (dev : Device) (page : Page) (iova : Nat) (firstIova : Bool) :
    iommuDmaMapPageIova dev page iova firstIova 0 PAGE_SIZE =
      mapPageTail dev (pageToPhys page) iova firstIova PAGE_SIZE := by
  simp [iommuDmaMapPageIova, page_needs_no_bounce]

/- A device whose default domain is managed by dma-iommu. -/
structure DmaApi (dev : Device) : Prop where
  mapped : dev.iommuMapped = true
  direct : dev.dmaMapDirect = false
  ops : dev.mapOps = .iommuDma
  mask : dev.dmaMask = true

/- An ordinary device behind a translating IOMMU. -/
def translated : Device := ⟨true, true, false, .iommuDma, true, false, false⟩

theorem translated_api : DmaApi translated := ⟨rfl, rfl, rfl, rfl⟩

variable {dev : Device} (api : DmaApi dev)
include api

theorem map_route (page : Page) (offset size : Nat) :
    dmaMapPageAttrs dev page offset size = iommuDmaMapPageIova dev page 0 false offset size := by
  simp [dmaMapPageAttrs, api.mask, api.direct, api.ops, iommuDmaMapPage]

theorem map_iova_route (page : Page) (iova : Nat) (firstIova : Bool) (offset size : Nat) :
    dmaMapPageAttrsIova dev page iova firstIova offset size =
      iommuDmaMapPageIova dev page iova firstIova offset size := by
  simp [dmaMapPageAttrsIova, api.mask, api.direct, api.ops]

theorem unmap_route (addr size : Nat) :
    dmaUnmapPageAttrs dev addr size =
      iommuDmaUnmapPageIova addr size (iovaAlign (size + iovaOffset addr)) true := by
  simp [dmaUnmapPageAttrs, api.direct, api.ops, unmap_page_is_unmap_page_iova]

theorem unmap_iova_route (addr size iovaSize : Nat) (freeIova : Bool) :
    dmaUnmapPageAttrsIova dev addr size iovaSize freeIova =
      iommuDmaUnmapPageIova addr size iovaSize freeIova := by
  simp [dmaUnmapPageAttrsIova, api.direct, api.ops]

end DmaLayer
