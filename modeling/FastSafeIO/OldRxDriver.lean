import FastSafeIO.RxDriver

/- The receive path before the patch, read off the removed and the context lines of the
   diff. A function that writes a dma_info returns it, as in the patched driver. -/
namespace OldRxDriver
open CallTree KernelCalls DmaLayer
open RxDriver (Rq Buffer pageCall dmaCall alignDown bitmapEmpty ENOMEM MLX5_EN_WR
  MLX5_MPWRQ_PAGES_PER_WQE MLX5E_SHAMPO_LOG_MAX_HEADER_ENTRY_SIZE MLX5E_SHAMPO_WQ_HEADER_PER_PAGE)

structure DmaInfo where
  addr : Nat
  buffer : Buffer
  deriving DecidableEq, Repr

def mlx5ePageAllocPool (dmaInfo : DmaInfo) : Rx (Int × DmaInfo) := do
  match ← pageCall .rxCacheGet with
  | some (page, addr) => pure (0, { dmaInfo with buffer := .page page, addr := addr })
  | none =>
    match ← pageCall .pagePoolDevAllocPages with
    | none => pure (-ENOMEM, { dmaInfo with buffer := .null })
    | some page =>
      let addr ← dmaCall (.dmaMapPageAttrs page 0 PAGE_SIZE)
      if addr = DMA_MAPPING_ERROR then
        pageCall (.pagePoolRecycleDirect page)
        pure (-ENOMEM, { dmaInfo with addr := addr, buffer := .null })
      else
        pageCall (.pagePoolSetDmaAddr page addr)
        pure (0, { dmaInfo with addr := addr, buffer := .page page })

def mlx5eXskPageAllocPool (dmaInfo : DmaInfo) : Rx (Int × DmaInfo) := do
  match ← pageCall .xskPageAllocPool with
  | none => pure (-ENOMEM, { dmaInfo with buffer := .null })
  | some (xsk, addr) => pure (0, { dmaInfo with buffer := .xsk xsk, addr := addr })

def mlx5ePageAlloc (rq : Rq) (dmaInfo : DmaInfo) : Rx (Int × DmaInfo) :=
  if rq.xskPool then mlx5eXskPageAllocPool dmaInfo else mlx5ePageAllocPool dmaInfo

def mlx5ePageDmaUnmap (page : Page) : Rx Unit := do
  let dmaAddr ← pageCall (.pagePoolGetDmaAddr page)
  dmaCall (.dmaUnmapPageAttrs dmaAddr PAGE_SIZE)
  pageCall (.pagePoolSetDmaAddr page 0)

def mlx5ePageReleaseDynamic (page : Page) (recycle : Bool) : Rx Unit := do
  if recycle then
    if ← pageCall (.rxCachePut page) then
      pure ()
    else
      mlx5ePageDmaUnmap page
      pageCall (.pagePoolRecycleDirect page)
  else
    mlx5ePageDmaUnmap page
    pageCall (.pagePoolReleasePage page)
    pageCall (.putPage page)

def mlx5ePageRelease (rq : Rq) (dmaInfo : DmaInfo) (recycle : Bool) : Rx Unit :=
  if rq.xskPool then
    match dmaInfo.buffer with
    | .xsk xsk => pageCall (.xskBuffFree xsk)
    | _ => pure ()
  else
    match dmaInfo.buffer with
    | .page page => mlx5ePageReleaseDynamic page recycle
    | _ => pure ()

/- Only the first fragment of a page allocates; the comment above the allocation says
   what the test of the offset is for. -/
def mlx5eGetRxFrag (rq : Rq) (offset : Nat) (di : DmaInfo) : Rx (Int × DmaInfo) :=
  if offset = 0 then mlx5ePageAlloc rq di else pure (0, di)

def mlx5ePutRxFrag (rq : Rq) (lastInPage : Bool) (di : DmaInfo) (recycle : Bool) : Rx Unit :=
  if lastInPage then mlx5ePageRelease rq di recycle else pure ()

structure MpwInfo where
  dmaInfo : Nat → DmaInfo
  xdpXmitBitmap : Nat → Bool

structure AllocRun where
  err : Int
  count : Nat
  dmaInfo : Nat → DmaInfo
  inlineMtts : Nat → Nat

def allocLoop (rq : Rq) : Nat → Nat → (Nat → DmaInfo) → (Nat → Nat) → Rx AllocRun
  | 0, i, dmaInfo, mtts => pure ⟨0, i, dmaInfo, mtts⟩
  | left + 1, i, dmaInfo, mtts => do
    let (err, di) ← mlx5ePageAlloc rq (dmaInfo i)
    if err ≠ 0 then
      pure ⟨err, i, Function.update dmaInfo i di, mtts⟩
    else
      allocLoop rq left (i + 1) (Function.update dmaInfo i di)
        (Function.update mtts i (di.addr ||| MLX5_EN_WR))

def errUnmap (rq : Rq) : Nat → (Nat → DmaInfo) → Rx Unit
  | 0, _ => pure ()
  | i + 1, dmaInfo => do
    mlx5ePageRelease rq (dmaInfo i) true
    errUnmap rq i dmaInfo

def mlx5eAllocRxMpwqe (rq : Rq) (wi : MpwInfo) : Rx (Int × MpwInfo × (Nat → Nat)) := do
  let enough ← if rq.xskPool then pageCall (.xskBuffCanAlloc MLX5_MPWRQ_PAGES_PER_WQE)
    else pure true
  if enough then
    let run ← allocLoop rq MLX5_MPWRQ_PAGES_PER_WQE 0 wi.dmaInfo fun _ => 0
    if run.err ≠ 0 then
      errUnmap rq run.count run.dmaInfo
      pure (run.err, { wi with dmaInfo := run.dmaInfo }, run.inlineMtts)
    else
      pure (0, ⟨run.dmaInfo, fun _ => false⟩, run.inlineMtts)
  else
    pure (-ENOMEM, wi, fun _ => 0)

def freeLoop (rq : Rq) (noXdpXmit : Bool) (bitmap : Nat → Bool) (recycle : Bool)
    (dmaInfo : Nat → DmaInfo) : Nat → Nat → Rx Unit
  | 0, _ => pure ()
  | left + 1, i =>
    if noXdpXmit || !bitmap i then do
      mlx5ePageRelease rq (dmaInfo i) recycle
      freeLoop rq noXdpXmit bitmap recycle dmaInfo left (i + 1)
    else
      freeLoop rq noXdpXmit bitmap recycle dmaInfo left (i + 1)

def mlx5eFreeRxMpwqe (rq : Rq) (wi : MpwInfo) (recycle : Bool) : Rx Unit :=
  freeLoop rq (bitmapEmpty wi.xdpXmitBitmap) wi.xdpXmitBitmap recycle wi.dmaInfo
    MLX5_MPWRQ_PAGES_PER_WQE 0

def mlx5eXdpHandle (rq : Rq) (page : Page) : Rx Unit := do
  if !rq.xskPool then mlx5ePageDmaUnmap page
  pageCall (.xdpHandOver page)

def mlx5eFreeXdpsqDesc (page : Page) (recycle : Bool) : Rx Unit :=
  mlx5ePageReleaseDynamic page recycle

def drainPages : List Page → Rx Unit
  | [] => pure ()
  | page :: rest => do
    mlx5ePageReleaseDynamic page false
    drainPages rest

def mlx5eFreeRq : Rx Unit := do
  let cached ← pageCall .rxCacheEntries
  drainPages cached

structure HeaderRun where
  err : Int
  count : Nat
  info : Nat → DmaInfo

def shampoLoop (rq : Rq) (index : Nat) (buffer : Buffer) (addr : Nat) :
    Nat → Nat → (Nat → DmaInfo) → Rx HeaderRun
  | 0, i, info => pure ⟨0, i, info⟩
  | left + 1, i, info =>
    let headerOffset := (index + i) % MLX5E_SHAMPO_WQ_HEADER_PER_PAGE *
      2 ^ MLX5E_SHAMPO_LOG_MAX_HEADER_ENTRY_SIZE
    if headerOffset % PAGE_SIZE = 0 then do
      let (err, di) ← mlx5ePageAlloc rq (info (index + i))
      if err ≠ 0 then
        pure ⟨err, i, Function.update info (index + i) di⟩
      else
        shampoLoop rq index di.buffer di.addr left (i + 1) (Function.update info (index + i) di)
    else
      shampoLoop rq index buffer addr left (i + 1) (Function.update info (index + i)
        { info (index + i) with addr := addr + headerOffset, buffer := buffer })

def shampoErrUnmap (rq : Rq) (index : Nat) : Nat → (Nat → DmaInfo) → Rx (Nat → DmaInfo)
  | 0, info => pure info
  | i + 1, info =>
    if i % MLX5E_SHAMPO_WQ_HEADER_PER_PAGE = 0 then do
      let di := { info (index + i) with addr := alignDown (info (index + i)).addr }
      mlx5ePageRelease rq di true
      shampoErrUnmap rq index i (Function.update info (index + i) di)
    else
      shampoErrUnmap rq index i info

def mlx5eBuildShampoHdUmr (rq : Rq) (klmEntries index : Nat) (lastBuffer : Buffer)
    (lastAddr : Nat) (info : Nat → DmaInfo) : Rx (Int × (Nat → DmaInfo)) := do
  let run ← shampoLoop rq index lastBuffer lastAddr klmEntries 0 info
  if run.err ≠ 0 then
    let info ← shampoErrUnmap rq index run.count run.info
    pure (run.err, info)
  else
    pure (0, run.info)

def mlx5eShampoDeallocHd (rq : Rq) : List Nat → Buffer → (Nat → DmaInfo) → Rx (Nat → DmaInfo)
  | [], _, info => pure info
  | index :: rest, deletedPage, info =>
    let di := { info index with addr := alignDown (info index).addr }
    if di.buffer ≠ deletedPage then do
      mlx5ePageRelease rq di false
      mlx5eShampoDeallocHd rq rest di.buffer (Function.update info index di)
    else
      mlx5eShampoDeallocHd rq rest deletedPage (Function.update info index di)

def mlx5eFreeRxShampoHdEntry (rq : Rq) (headerIndex : Nat) (info : Nat → DmaInfo) :
    Rx (Nat → DmaInfo) :=
  if (headerIndex + 1) % MLX5E_SHAMPO_WQ_HEADER_PER_PAGE = 0 then do
    let di := { info headerIndex with addr := alignDown (info headerIndex).addr }
    mlx5ePageRelease rq di true
    pure (Function.update info headerIndex di)
  else
    pure info

end OldRxDriver
