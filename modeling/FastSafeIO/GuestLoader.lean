import FastSafeIO.TextTables
import FastSafeIO.GuestTracer

/-! The file that guest_loader.c writes from the three per-CPU maps. -/
namespace GuestLoader
open TracingUtils GuestTracer TextTables

def funcNameToString : FunctionName → String
  | .iommuMap => "iommu_map"
  | .iommuMapInternal => "__iommu_map"
  | .iommuIotlbSyncMap => "intel_iommu_iotlb_sync_map"
  | .cacheTagFlushRangeNp => "cache_tag_flush_range_np"
  | .iommuFlushWriteBuffer => "iommu_flush_write_buffer"
  | .iommuUnmap => "iommu_unmap"
  | .iommuUnmapInternal => "__iommu_unmap"
  | .iommuTlbSync => "intel_iommu_tlb_sync"
  | .cacheTagFlushRange => "cache_tag_flush_range"
  | .cacheTagFlushRangeCall => "cache_tag_flush_range_call"
  | .iommuDmaFreeIova => "iommu_dma_free_iova"
  | .iommuDmaFreeIovaCall => "iommu_dma_free_iova_call"
  | .__iommuDmaUnmapCall => "__iommu_dma_unmap_call"
  | .__iommuDmaUnmap => "__iommu_dma_unmap"
  | .pagePoolAlloc => "page_pool_alloc_netmem"
  | .pagePoolSlow => "page_pool_alloc_pages_slow"
  | .qiBatchFlushDescs => "qi_batch_flush_descs"
  | .qiSubmitSync => "qi_submit_sync"
  | .traceMlx5eTxDmaUnmapKtlsHook => "trace_mlx5e_tx_dma_unmap_ktls_hook"
  | .traceMlx5eDmaPushBuildSingleHook => "trace_mlx5e_dma_push_build_single_hook"
  | .traceMlx5eDmaPushXmitSingleHook => "trace_mlx5e_dma_push_xmit_single_hook"
  | .traceMlx5eDmaPushPageHook => "trace_mlx5e_dma_push_page_hook"
  | .traceMlx5eTxDmaUnmapHook => "trace_mlx5e_tx_dma_unmap_hook"
  | .traceQiSubmitSyncCs => "trace_qi_submit_sync_cs"
  | .traceQiSubmitSyncLockWrapper => "trace_qi_submit_sync_lock_wrapper"
  | .traceIommuFlushWriteBufferCs => "trace_iommu_flush_write_buffer_cs"
  | .traceIommuFlushWriteBufferLockWrapper => "trace_iommu_flush_write_buffer_lock_wrapper"
  | .pagePoolDmaMap => "page_pool_dma_map"
  | .pagePoolReturnPage => "page_pool_return_page"
  | .countPagePoolRelease => "count_page_pool_release_page_dma_hook"
  | .countPagePoolRecycle => "count_page_pool_recycle_in_cache_hook"
  | .countMlx5eRxMpwqePerPage => "count_mlx5e_alloc_rx_mpwqe_perpage_hook"
  | .pagePoolPutNetmem => "page_pool_put_unrefed_netmem"
  | .pagePoolPutPage => "page_pool_put_unrefed_page"
  | .writelWrapper => "writel_wrapper"
  | .afterWritelWhileWrapper => "after_writel_while_wrapper"
  | .sysFlushHandler => "sys_flush_handler"
  | .__sysFlushHandler => "__sys_flush_handler"
  | .dmaMapSgAttrs => "dma_map_sg_attrs"
  | .skStreamWaitMemory => "sk_stream_wait_memory"
  | .iovaFreeFromQiBatch => "iova_free_from_qi_batch"
  | .unmapCallbackConsume => "unmap_callback_consume"
  | .cacheTagFlushIotlb => "cache_tag_flush_iotlb"
  | _ => "UnknownFunction"

/-- The name printed for (enum FunctionName)fn. -/
def fnName (fn : Nat) : List Char := (funcNameToString (FunctionName.ofNat fn)).toList

/-- The cookies of probes_to_attach, each of them given to a kprobe and a kretprobe. -/
def probesToAttach : List FunctionName :=
  [.iommuMap, .iommuMapInternal, .iommuIotlbSyncMap, .cacheTagFlushRangeNp, .iommuFlushWriteBuffer,
   .iommuUnmap, .iommuUnmapInternal, .iommuTlbSync, .cacheTagFlushRange, .cacheTagFlushRangeCall,
   .pagePoolAlloc, .pagePoolSlow, .qiBatchFlushDescs, .qiSubmitSync, .pagePoolDmaMap,
   .traceMlx5eTxDmaUnmapKtlsHook, .traceMlx5eDmaPushBuildSingleHook,
   .traceMlx5eDmaPushXmitSingleHook, .traceMlx5eDmaPushPageHook, .traceMlx5eTxDmaUnmapHook,
   .traceQiSubmitSyncCs, .traceQiSubmitSyncLockWrapper, .traceIommuFlushWriteBufferCs,
   .traceIommuFlushWriteBufferLockWrapper, .pagePoolReturnPage, .pagePoolPutNetmem,
   .pagePoolPutPage, .iommuDmaFreeIova, .iommuDmaFreeIovaCall, .__iommuDmaUnmapCall,
   .__iommuDmaUnmap, .countMlx5eRxMpwqePerPage, .countPagePoolRelease, .countPagePoolRecycle,
   .sysFlushHandler, .__sysFlushHandler, .dmaMapSgAttrs, .skStreamWaitMemory, .iovaFreeFromQiBatch,
   .unmapCallbackConsume, .cacheTagFlushIotlb]

/-- Nothing computed from u64 counters comes near the ends of the exponent range. -/
def quotient (a b : Nat) : ℚ := toDouble (toDouble a / toDouble b)

/-- E[x²] - (E[x])², where x is the duration in µs. -/
def varianceUs (s : LatencyStats) : ℚ :=
  let meanUs := toDouble (quotient s.totalDurationNs s.count / 1000)
  toDouble (quotient s.sumSqDurationUs s.count - toDouble (meanUs * meanUs))

variable (numCpus : Nat) (m : Maps)

/-- What the loop over the CPUs adds up: a CPU without calls is passed over. -/
def latencyTotals (fn : Nat) : LatencyStats :=
  (List.range numCpus).foldl (fun t cpu =>
    let s := m.funcLatencyStats cpu fn
    if s.count = 0 then t
    else
      { count := add64 t.count s.count
        totalDurationNs := add64 t.totalDurationNs s.totalDurationNs
        sumSqDurationUs := add64 t.sumSqDurationUs s.sumSqDurationUs }) noStats

def perCpuLatencyRow (fn cpu : Nat) : List (List Char) :=
  let s := m.funcLatencyStats cpu fn
  [fnName fn, printNat cpu, printNat s.count, printNat s.totalDurationNs,
    printRounded 2 (quotient s.totalDurationNs s.count), printRounded 2 0]

def latencyRow (fn : Nat) : List (List Char) :=
  let s := latencyTotals numCpus m fn
  [fnName fn, "-1".toList, printNat s.count, printNat s.totalDurationNs,
    printRounded 2 (quotient s.totalDurationNs s.count), printRounded 2 (varianceUs s)]

/-- The functions with a row of their own. -/
def latencyFunctions : List Nat :=
  (List.range TRACE_FUNCS_END).filter fun fn => (latencyTotals numCpus m fn).count ≠ 0

def countFunctions : List Nat := List.range' TRACE_FUNCS_END (FUNCTION_NAME_MAX - TRACE_FUNCS_END)

def total64 (cells : Nat → Nat) : Nat :=
  (List.range numCpus).foldl (fun t cpu => add64 t (cells cpu)) 0

def totalCount (fn : Nat) : Nat := total64 numCpus fun cpu => m.funcCallCounts cpu fn

/-- A line of the histogram section. -/
structure HistogramLine where
  fn : Nat
  bucket : Nat
  lower : Nat
  upper : Nat
  totalCount : Nat
  deriving DecidableEq, Repr

/-- The line of a bucket, with the range as the loader works it out. -/
def histogramLine (fn bucket totalCount : Nat) : HistogramLine where
  fn := fn
  bucket := bucket
  lower := 2 ^ bucket
  upper := 2 ^ (bucket + 1) - 1
  totalCount := totalCount

def histogramLines (fn : Nat) : List HistogramLine :=
  (List.range HISTO_BUCKETS).filterMap fun bucket =>
    let totalCount := total64 numCpus fun cpu => m.latencyHistogram cpu (fn * HISTO_BUCKETS + bucket)
    if totalCount > 0 then some (histogramLine fn bucket totalCount) else none

def HistogramLine.print (l : HistogramLine) : List Char :=
  fnName l.fn ++ ",".toList ++ printNat l.bucket ++ ",\"".toList ++ printNat l.lower ++ " - ".toList ++
    printNat l.upper ++ " ns\",".toList ++ printNat l.totalCount

/-- A blank line follows the histogram of a function. -/
def printHistogram (fn : Nat) : List (List Char) :=
  match histogramLines numCpus m fn with
  | [] => []
  | lines => lines.map HistogramLine.print ++ [[]]

def latencyTitle : List Char := "# Per-Function Latency Statistics".toList

def perCpuCountsTitle : List Char := "# Per-Function Per-CPU Counts".toList

def latencyHeader : List (List Char) :=
  ["function".toList, "type".toList, "count".toList, "total_duration_ns".toList, "mean_ns".toList,
    "variance_us".toList]

/-- The lines before the latency section. -/
def perCpuSection : List (List Char) :=
  ["# Per-Function Per-CPU Latency Statistics".toList,
    "function,cpu,count,total_duration_ns,mean_ns,variance_us".toList] ++
  (List.range TRACE_FUNCS_END).flatMap fun fn =>
    ((List.range numCpus).filter fun cpu => (m.funcLatencyStats cpu fn).count ≠ 0).map fun cpu =>
      csvLine (perCpuLatencyRow m fn cpu)

/-- The lines after the title of the counts per CPU. -/
def laterSections : List (List Char) :=
  ["function,cpu,count".toList] ++
  (countFunctions.flatMap fun fn => (List.range numCpus).map fun cpu =>
    csvLine [fnName fn, printNat cpu, printNat (m.funcCallCounts cpu fn)]) ++
  ["# Per-Function Counts".toList, "function,type,count".toList] ++
  ((countFunctions.filter fun fn => totalCount numCpus m fn ≠ 0).map fun fn =>
    csvLine [fnName fn, "-1".toList, printNat (totalCount numCpus m fn)]) ++
  [[], "# Per-Function Latency Histograms".toList, "function,bucket,latency_range_ns,count".toList] ++
  (List.range TRACE_FUNCS_END).flatMap (printHistogram numCpus m)

def dumpLines : List (List Char) :=
  perCpuSection numCpus m ++ latencyTitle :: csvLine latencyHeader ::
    (latencyFunctions numCpus m).map (fun fn => csvLine (latencyRow numCpus m fn)) ++
  perCpuCountsTitle :: laterSections numCpus m

/-- The file where every calloc and every lookup in a map succeeds. -/
def dumpAggregateToFile : List Char := if numCpus = 0 then [] else writeLines (dumpLines numCpus m)

end GuestLoader
