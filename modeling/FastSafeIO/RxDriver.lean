import FastSafeIO.DmaLayer

/- The patched receive path of the mlx5 driver: en_rx.c, en/xdp.c and en_main.c. A
   function that writes a dma_info returns it; an int result is 0 on success. -/
namespace RxDriver
open CallTree KernelCalls DmaLayer

def MLX5_MPWRQ_PAGES_PER_WQE : Nat := 64

def MLX5E_SHAMPO_LOG_MAX_HEADER_ENTRY_SIZE : Nat := 8

def MLX5E_SHAMPO_WQ_HEADER_PER_PAGE : Nat := PAGE_SIZE / 2 ^ MLX5E_SHAMPO_LOG_MAX_HEADER_ENTRY_SIZE

def MLX5_EN_WR : Nat := 2

def ENOMEM : Int := 12

/- mlx5e_rx_cache_get lies outside the patch: it copies the whole cached entry, in which nobody
   sets the fields that the patch adds, or only the page and its address. -/
structure Rq where
  dev : Device
  xskPool : Bool
  cacheCopies : Bool
  deriving DecidableEq, Repr

/- The union of struct page * and struct xdp_buff *. -/
inductive Buffer where
  | null
  | page (page : Page)
  | xsk (xsk : Nat)
  deriving DecidableEq, Repr

structure DmaInfo where
  addr : Nat
  batchIova : Bool
  iova : Nat
  firstIova : Bool
  iovaSize : Nat
  freeIova : Bool
  buffer : Buffer
  deriving DecidableEq, Repr

def DmaInfo.zeroed : DmaInfo := ⟨0, false, 0, false, 0, false, .null⟩

def pageCall (op : PageOp) : Rx op.Ans := Tree.ask (RxOp.page op)

def dmaCall (op : DmaOp) : Rx op.Ans := Tree.ask (RxOp.dma op)

def alignDown (addr : Nat) : Nat := addr / PAGE_SIZE * PAGE_SIZE

def mapSlotPage (dmaInfo : DmaInfo) (page : Page) : Rx Nat :=
  if dmaInfo.batchIova then
    dmaCall (.dmaMapPageAttrsIova page dmaInfo.iova dmaInfo.firstIova 0 PAGE_SIZE)
  else
    dmaCall (.dmaMapPageAttrs page 0 PAGE_SIZE)

/- A cached page comes back with the DMA address stored in it. -/
def cachedSlot (rq : Rq) (dmaInfo : DmaInfo) (page : Page) (addr : Nat) : DmaInfo :=
  let dmaInfo := if rq.cacheCopies then DmaInfo.zeroed else dmaInfo
  { dmaInfo with buffer := .page page, addr := addr }

def mlx5ePageAllocPool (rq : Rq) (dmaInfo : DmaInfo) : Rx (Int × DmaInfo) := do
  match ← pageCall .rxCacheGet with
  | some (page, addr) => pure (0, cachedSlot rq dmaInfo page addr)
  | none =>
    match ← pageCall .pagePoolDevAllocPages with
    | none => pure (-ENOMEM, { dmaInfo with buffer := .null })
    | some page =>
      let addr ← mapSlotPage dmaInfo page
      if addr = DMA_MAPPING_ERROR then
        pageCall (.pagePoolRecycleDirect page)
        pure (-ENOMEM, { dmaInfo with addr := addr, buffer := .null })
      else
        pageCall (.pagePoolSetDmaAddr page addr)
        pure (0, { dmaInfo with addr := addr, buffer := .page page })

def mlx5eXskPageAllocPool (dmaInfo : DmaInfo) : Rx (Int × DmaInfo) := do
  match ← pageCall .xskPageAllocPool with
  | none => pure (-ENOMEM, { dmaInfo with buffer := .null })
  | some (xsk, addr) => pure (0, { dmaInfo with buffer := .xsk xsk, addr := addr })

def mlx5ePageAlloc (rq : Rq) (dmaInfo : DmaInfo) : Rx (Int × DmaInfo) :=
  if rq.xskPool then mlx5eXskPageAllocPool dmaInfo else mlx5ePageAllocPool rq dmaInfo

def mlx5ePageDmaUnmap (page : Page) (iovaSize : Nat) (freeIova : Bool) : Rx Unit := do
  let dmaAddr ← pageCall (.pagePoolGetDmaAddr page)
  if iovaSize ≠ 0 then
    if freeIova then
      let dmaAddr := sub64 dmaAddr (63 * 4096)
      dmaCall (.dmaUnmapPageAttrsIova dmaAddr (PAGE_SIZE * 64) iovaSize freeIova)
  else
    dmaCall (.dmaUnmapPageAttrs dmaAddr PAGE_SIZE)
  pageCall (.pagePoolSetDmaAddr page 0)

def mlx5ePageReleaseDynamic (page : Page) (recycle : Bool) (iovaSize : Nat) (freeIova : Bool) :
    Rx Unit := do
  if recycle then
    if ← pageCall (.rxCachePut page) then
      pure ()
    else
      mlx5ePageDmaUnmap page iovaSize freeIova
      pageCall (.pagePoolRecycleDirect page)
  else
    mlx5ePageDmaUnmap page iovaSize freeIova
    pageCall (.pagePoolReleasePage page)
    pageCall (.putPage page)

/- A slot is only released while it holds a buffer of the queue's kind. -/
def mlx5ePageRelease (rq : Rq) (dmaInfo : DmaInfo) (recycle : Bool) : Rx Unit :=
  if rq.xskPool then
    match dmaInfo.buffer with
    | .xsk xsk => pageCall (.xskBuffFree xsk)
    | _ => pure ()
  else
    match dmaInfo.buffer with
    | .page page => mlx5ePageReleaseDynamic page recycle dmaInfo.iovaSize dmaInfo.freeIova
    | _ => pure ()

/- Cyclic queues. The assignment took the place of the statement that the test of
   the offset guarded, so the allocation below it is made for every fragment. -/
def mlx5eGetRxFrag (rq : Rq) (offset : Nat) (di : DmaInfo) : Rx (Int × DmaInfo) :=
  let di := if offset = 0 then { di with batchIova := false } else di
  mlx5ePageAlloc rq di

def mlx5ePutRxFrag (rq : Rq) (lastInPage : Bool) (di : DmaInfo) (recycle : Bool) :
    Rx DmaInfo := do
  if lastInPage then
    let di := { di with iovaSize := 0 }
    mlx5ePageRelease rq di recycle
    pure di
  else
    pure di

/- Striding queues: one WQE owns 64 slots. -/
structure MpwInfo where
  dmaInfo : Nat → DmaInfo
  xdpXmitBitmap : Nat → Bool

def bitmapEmpty (bitmap : Nat → Bool) : Bool :=
  (List.range MLX5_MPWRQ_PAGES_PER_WQE).all fun i => !bitmap i

/- What the allocation loop leaves: how far it came, the slots and the addresses
   written into the UMR WQE. -/
structure AllocRun where
  err : Int
  count : Nat
  dmaInfo : Nat → DmaInfo
  inlineMtts : Nat → Nat

def prepareSlot (fands : Bool) (iovaBase i : Nat) (dmaInfo : DmaInfo) : DmaInfo :=
  let dmaInfo := { dmaInfo with
    batchIova := fands, iova := 0, iovaSize := 0, firstIova := false }
  if fands then
    let dmaInfo := { dmaInfo with
      iova := iovaBase + i * 4096, iovaSize := 4096 * MLX5_MPWRQ_PAGES_PER_WQE }
    if i = 0 then { dmaInfo with firstIova := true } else dmaInfo
  else
    dmaInfo

def allocLoop (rq : Rq) (iovaBase : Nat) :
    Nat → Nat → (Nat → DmaInfo) → (Nat → Nat) → Rx AllocRun
  | 0, i, dmaInfo, mtts => pure ⟨0, i, dmaInfo, mtts⟩
  | left + 1, i, dmaInfo, mtts => do
    let (err, di) ← mlx5ePageAlloc rq (prepareSlot rq.dev.iommuMapped iovaBase i (dmaInfo i))
    if err ≠ 0 then
      pure ⟨err, i, Function.update dmaInfo i di, mtts⟩
    else
      allocLoop rq iovaBase left (i + 1) (Function.update dmaInfo i di)
        (Function.update mtts i (di.addr ||| MLX5_EN_WR))

/- The unwinding goes down from the slot below the one that failed. -/
def errUnmap (rq : Rq) : Nat → (Nat → DmaInfo) → Rx (Nat → DmaInfo)
  | 0, dmaInfo => pure dmaInfo
  | i + 1, dmaInfo => do
    let di := if (dmaInfo i).batchIova then dmaInfo i else { dmaInfo i with iovaSize := 0 }
    mlx5ePageRelease rq di true
    errUnmap rq i (Function.update dmaInfo i di)

def batchBase (rq : Rq) : Rx Nat :=
  if rq.dev.iommuMapped then
    dmaCall (.iommuDmaAllocIova (4096 * MLX5_MPWRQ_PAGES_PER_WQE))
  else
    pure 0

def allocBatch (rq : Rq) (wi : MpwInfo) (iovaBase : Nat) : Rx (Int × MpwInfo × (Nat → Nat)) := do
  let run ← allocLoop rq iovaBase MLX5_MPWRQ_PAGES_PER_WQE 0 wi.dmaInfo fun _ => 0
  if run.err ≠ 0 then
    let dmaInfo ← errUnmap rq run.count run.dmaInfo
    pure (run.err, { wi with dmaInfo := dmaInfo }, run.inlineMtts)
  else
    pure (0, ⟨run.dmaInfo, fun _ => false⟩, run.inlineMtts)

def mlx5eAllocRxMpwqe (rq : Rq) (wi : MpwInfo) : Rx (Int × MpwInfo × (Nat → Nat)) := do
  let enough ← if rq.xskPool then pageCall (.xskBuffCanAlloc MLX5_MPWRQ_PAGES_PER_WQE)
    else pure true
  if enough then
    let iovaBase ← batchBase rq
    allocBatch rq wi iovaBase
  else
    pure (-ENOMEM, wi, fun _ => 0)

def freeLoop (rq : Rq) (noXdpXmit : Bool) (bitmap : Nat → Bool) (recycle : Bool) :
    Nat → Nat → (Nat → DmaInfo) → Rx (Nat → DmaInfo)
  | 0, _, dmaInfo => pure dmaInfo
  | left + 1, i, dmaInfo =>
    if noXdpXmit || !bitmap i then
      if rq.dev.iommuMapped then do
        let di := { dmaInfo i with
          iovaSize := 4096 * 64, batchIova := true,
          freeIova := i == MLX5_MPWRQ_PAGES_PER_WQE - 1 }
        mlx5ePageRelease rq di false
        freeLoop rq noXdpXmit bitmap recycle left (i + 1) (Function.update dmaInfo i di)
      else do
        let di := { dmaInfo i with iovaSize := 0 }
        mlx5ePageRelease rq di recycle
        freeLoop rq noXdpXmit bitmap recycle left (i + 1) (Function.update dmaInfo i di)
    else
      freeLoop rq noXdpXmit bitmap recycle left (i + 1) dmaInfo

def mlx5eFreeRxMpwqe (rq : Rq) (wi : MpwInfo) (recycle : Bool) : Rx MpwInfo := do
  let noXdpXmit := bitmapEmpty wi.xdpXmitBitmap
  let dmaInfo ← freeLoop rq noXdpXmit wi.xdpXmitBitmap recycle MLX5_MPWRQ_PAGES_PER_WQE 0
    wi.dmaInfo
  pure { wi with dmaInfo := dmaInfo }

/- The redirect branch of mlx5e_xdp_handle; afterwards the frame belongs to the
   redirect target, which returns it to the pool when it likes. -/
def mlx5eXdpHandle (rq : Rq) (page : Page) : Rx Unit := do
  if !rq.xskPool then mlx5ePageDmaUnmap page 0 true
  pageCall (.xdpHandOver page)

/- MLX5E_XDP_XMIT_MODE_PAGE: XDP_TX from the regular RQ. -/
def mlx5eFreeXdpsqDesc (page : Page) (recycle : Bool) : Rx Unit :=
  mlx5ePageReleaseDynamic page recycle 0 true

def drainPages : List Page → Rx Unit
  | [] => pure ()
  | page :: rest => do
    mlx5ePageReleaseDynamic page false 0 true
    drainPages rest

def mlx5eFreeRq : Rx Unit := do
  let cached ← pageCall .rxCacheEntries
  drainPages cached

/- SHAMPO headers. The entries of one page share its slot's address and page. -/
structure HeaderRun where
  err : Int
  count : Nat
  info : Nat → DmaInfo

def shampoLoop (rq : Rq) (index : Nat) (buffer : Buffer) (addr : Nat) :
    Nat → Nat → (Nat → DmaInfo) → Rx HeaderRun
  | 0, i, info => pure ⟨0, i, info⟩
  | left + 1, i, info =>
    let headerOffset := (index + i) % MLX5E_SHAMPO_WQ_HEADER_PER_PAGE *
      2 ^ MLX5E_SHAMPO_LOG_MAX_HEADER_ENTRY_SIZE
    if headerOffset % PAGE_SIZE = 0 then do
      let (err, di) ← mlx5ePageAlloc rq { info (index + i) with batchIova := false }
      if err ≠ 0 then
        pure ⟨err, i, Function.update info (index + i) di⟩
      else
        shampoLoop rq index di.buffer di.addr left (i + 1) (Function.update info (index + i) di)
    else
      shampoLoop rq index buffer addr left (i + 1) (Function.update info (index + i)
        { info (index + i) with addr := addr + headerOffset, buffer := buffer })

def shampoErrUnmap (rq : Rq) (index : Nat) : Nat → (Nat → DmaInfo) → Rx (Nat → DmaInfo)
  | 0, info => pure info
  | i + 1, info =>
    if i % MLX5E_SHAMPO_WQ_HEADER_PER_PAGE = 0 then do
      let di := { info (index + i) with
        addr := alignDown (info (index + i)).addr, iovaSize := 0 }
      mlx5ePageRelease rq di true
      shampoErrUnmap rq index i (Function.update info (index + i) di)
    else
      shampoErrUnmap rq index i info

def mlx5eBuildShampoHdUmr (rq : Rq) (klmEntries index : Nat) (lastBuffer : Buffer)
    (lastAddr : Nat) (info : Nat → DmaInfo) : Rx (Int × (Nat → DmaInfo)) := do
  let run ← shampoLoop rq index lastBuffer lastAddr klmEntries 0 info
  if run.err ≠ 0 then
    let info ← shampoErrUnmap rq index run.count run.info
    pure (run.err, info)
  else
    pure (0, run.info)

/- The entries visited by mlx5e_shampo_dealloc_hd, in order. -/
def mlx5eShampoDeallocHd (rq : Rq) : List Nat → Buffer → (Nat → DmaInfo) → Rx (Nat → DmaInfo)
  | [], _, info => pure info
  | index :: rest, deletedPage, info =>
    let di := { info index with addr := alignDown (info index).addr }
    if di.buffer ≠ deletedPage then do
      let di := { di with iovaSize := 0 }
      mlx5ePageRelease rq di false
      mlx5eShampoDeallocHd rq rest di.buffer (Function.update info index di)
    else
      mlx5eShampoDeallocHd rq rest deletedPage (Function.update info index di)

def mlx5eFreeRxShampoHdEntry (rq : Rq) (headerIndex : Nat) (info : Nat → DmaInfo) :
    Rx (Nat → DmaInfo) :=
  if (headerIndex + 1) % MLX5E_SHAMPO_WQ_HEADER_PER_PAGE = 0 then do
    let di := { info headerIndex with
      addr := alignDown (info headerIndex).addr, iovaSize := 0 }
    mlx5ePageRelease rq di true
    pure (Function.update info headerIndex di)
  else
    pure info

/- An ordinary striding queue behind a translating IOMMU. -/
def regularRq : Rq := ⟨translated, false, true⟩

theorem regular_rq_api : DmaApi regularRq.dev := translated_api

end RxDriver
