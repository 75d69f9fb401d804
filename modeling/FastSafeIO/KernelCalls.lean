import FastSafeIO.CallTree

/- The calls the patched code makes into the parts of the kernel that the patch
   leaves alone. Answers are whatever the kernel returns; their effect on the page
   table, the IOTLB and the allocator is given separately. -/
namespace KernelCalls
open CallTree

def PAGE_SIZE : Nat := 4096

def DMA_MAPPING_ERROR : Nat := 2 ^ 64 - 1

/- Subtraction of dma_addr_t values. -/
def sub64 (a b : Nat) : Nat := (a + (2 ^ 64 - b % 2 ^ 64)) % 2 ^ 64

/- Nothing is lost on the way to the last page of a batch and back. -/
theorem sub64_back {a b : Nat} (fits : a + b < 2 ^ 64) : sub64 (a + b) b = a := by
  unfold sub64
  omega

/- A struct page that the page allocator can hand out. Frame 0 is never one. -/
structure Page where
  pfn : Nat
  pos : 0 < pfn
  deriving DecidableEq, Repr

theorem pfn_injective {p q : Page} (same : p.pfn = q.pfn) : p = q := by
  cases p
  cases q
  simp_all

def pageToPhys (page : Page) : Nat := page.pfn * PAGE_SIZE

/- struct iommu_iotlb_gather: what an unmap left to invalidate. -/
structure IotlbGather where
  queued : Bool
  range : Option (Nat × Nat)
  freelist : List Nat
  deriving DecidableEq, Repr

def IotlbGather.init (queued : Bool) : IotlbGather := ⟨queued, none, []⟩

/- Page pool, rx page cache and AF_XDP pool. -/
inductive PageOp where
  | rxCacheGet
  | rxCachePut (page : Page)
  | rxCacheEntries
  | pagePoolDevAllocPages
  | pagePoolRecycleDirect (page : Page)
  | pagePoolReleasePage (page : Page)
  | putPage (page : Page)
  | pagePoolGetDmaAddr (page : Page)
  | pagePoolSetDmaAddr (page : Page) (addr : Nat)
  | xdpHandOver (page : Page)
  | xskBuffCanAlloc (count : Nat)
  | xskPageAllocPool
  | xskBuffFree (xsk : Nat)
  deriving DecidableEq, Repr

@[reducible] def PageOp.Ans : PageOp → Type
  | .rxCacheGet => Option (Page × Nat)
  | .rxCachePut _ => Bool
  | .rxCacheEntries => List Page
  | .pagePoolDevAllocPages => Option Page
  | .pagePoolGetDmaAddr _ => Nat
  | .xskBuffCanAlloc _ => Bool
  | .xskPageAllocPool => Option (Nat × Nat)
  | _ => Unit

/- IOVA allocator, page table, IOTLB, swiotlb, and the map operations that bypass
   dma-iommu. An int result is 0 on success. -/
inductive IommuOp where
  | iommuDeferredAttach
  | iommuDmaAllocIova (size : Nat)
  | iommuDmaFreeIova (iova size : Nat) (gather : Option IotlbGather)
  | __iommuMap (iova paddr size : Nat)
  | iotlbSyncMap (iova size : Nat)
  | fqDomain
  | iommuUnmapFast (iova size : Nat) (gather : IotlbGather)
  | iommuIotlbSync (gather : IotlbGather)
  | iommuIovaToPhys (iova : Nat)
  | isSwiotlbActive
  | swiotlbTblMapSingle (phys size allocSize : Nat)
  | isSwiotlbBuffer (phys : Nat)
  | swiotlbTblUnmapSingle (phys size : Nat)
  | dmaDirectMapPage (phys size : Nat)
  | dmaDirectUnmapPage (addr size : Nat)
  | mapPage (phys size : Nat)
  | unmapPage (addr size : Nat)
  deriving DecidableEq, Repr

@[reducible] def IommuOp.Ans : IommuOp → Type
  | .iommuDeferredAttach => Bool
  | .iommuDmaAllocIova _ => Nat
  | .__iommuMap _ _ _ => Int
  | .fqDomain => Bool
  | .iommuUnmapFast _ _ _ => Nat × IotlbGather
  | .iommuIovaToPhys _ => Nat
  | .isSwiotlbActive => Bool
  | .swiotlbTblMapSingle _ _ _ => Nat
  | .isSwiotlbBuffer _ => Bool
  | .dmaDirectMapPage _ _ => Nat
  | .mapPage _ _ => Nat
  | _ => Unit

inductive KernelOp where
  | page (op : PageOp)
  | iommu (op : IommuOp)
  deriving DecidableEq, Repr

@[reducible] def KernelOp.Ans : KernelOp → Type
  | .page op => op.Ans
  | .iommu op => op.Ans

abbrev Kernel (α : Type) : Type := Tree KernelOp KernelOp.Ans α

abbrev KernelEvent : Type := Event KernelOp.Ans

end KernelCalls
