import FastSafeIO.GuestLoader
import FastSafeIO.LocalViews

/- main of guest_loader.c, server_loader.c and host_qemu_loader.c: what each way through it
   opens, loads and attaches, and gives back. -/
namespace LoaderMain
open CallTree LocalViews TracingUtils
set_option linter.style.nameCheck false

inductive ProbeType where
  | kprobe
  | kretprobe
  | uprobe
  | uretprobe
  deriving DecidableEq, Repr

def ProbeType.name : ProbeType → String
  | .kprobe => "kprobe"
  | .kretprobe => "kretprobe"
  | .uprobe => "uprobe"
  | .uretprobe => "uretprobe"

/- The module and the QEMU flag of an entry are read by nothing. -/
structure ProbeDef where
  bpfProgName : String
  targetName : String
  type : ProbeType
  cookie : FunctionName
  deriving DecidableEq, Repr

structure Args where
  durationSec : Int
  aggDataFilepath : Option String

/- What main calls. attach stands for the attach call of the probe's type. -/
inductive LoaderOp where
  | argpParse
  | fopen (path : String)
  | openAndLoad
  | findProgramByName (name : String)
  | attach (probe : ProbeDef)
  | exiting
  | clockGettime
  | usleep (us : Nat)
  | time
  | dumpAggregateToFile
  | fclose
  | linkDestroy (link : Nat)
  | destroy
  | printf (text : String)
  | eprintf (text : String)
  | perror (text : String)

/- A failed attach comes with what libbpf_get_error makes of it. -/
@[reducible] def LoaderOp.Ans : LoaderOp → Type
  | .argpParse => Int × Args
  | .fopen _ => Bool
  | .openAndLoad => Bool
  | .findProgramByName _ => Bool
  | .attach _ => Except Int Nat
  | .exiting => Bool
  | .clockGettime => Int
  | .time => Int
  | .fclose => Bool
  | _ => Unit

abbrev Load (α : Type) : Type := Tree LoaderOp LoaderOp.Ans α

def call (op : LoaderOp) : Load op.Ans := Tree.ask op

/- What the three programs differ in. -/
structure Loader where
  probesToAttach : List ProbeDef
  maxProbes : Nat
  stopAtFailure : Bool
  stamped : Bool
  farewell : String

def EXIT_FAILURE : Int := 1

def ENOENT : Int := 2

/- A progress message; two of the programs end it with the time. -/
def progress (l : Loader) (text : String) : Load Unit :=
  if l.stamped then do
    let now ← call .time
    call (.printf (text ++ " time=" ++ toString now ++ "\n"))
  else call (.printf (text ++ "\n"))

/- How the loop over the probes came out. A NULL link is none. -/
structure Attached where
  links : List (Option Nat)
  err : Int
  nFailed : Nat
  stopped : Bool

def attachFailed (strerror : Int → String) (p : ProbeDef) (e : Int) : Load Unit :=
  call (.eprintf ("Failed to attach " ++ p.type.name ++ " '" ++ p.bpfProgName ++ "' to '" ++
    p.targetName ++ "': " ++ strerror (-e) ++ "\n"))

def attachProbes (l : Loader) (strerror : Int → String) : List ProbeDef → Attached → Load Attached
  | [], run => pure run
  | p :: rest, run => do
    if ← call (.findProgramByName p.bpfProgName) then
      match ← call (.attach p) with
      | .ok link => attachProbes l strerror rest { run with links := run.links ++ [some link] }
      | .error e => do
        attachFailed strerror p e
        if l.stopAtFailure then
          pure { run with err := e, stopped := true }
        else
          attachProbes l strerror rest
            { run with links := run.links ++ [none], err := e, nFailed := run.nFailed + 1 }
    else do
      call (.eprintf ("Failed to find BPF program '" ++ p.bpfProgName ++ "' in skeleton\n"))
      pure { run with err := -ENOENT, stopped := true }

/- The loop that waits, for this many rounds; false when it would go on. -/
def waitLoop (durationSec start : Int) : Nat → Load Bool
  | 0 => pure false
  | rounds + 1 => do
    if ← call .exiting then
      pure true
    else if durationSec > 0 then do
      let now ← call .clockGettime
      if now - start ≥ durationSec then
        pure true
      else do
        call (.usleep 500000)
        waitLoop durationSec start rounds
    else do
      call (.usleep 500000)
      waitLoop durationSec start rounds

def destroyLinks : List (Option Nat) → Load Unit
  | [] => pure ()
  | none :: rest => destroyLinks rest
  | some link :: rest => do
    call (.linkDestroy link)
    destroyLinks rest

def closeFile (l : Loader) (file : Option String) : Load Unit :=
  match file with
  | none => pure ()
  | some path => do
    progress l ("Closing aggregate data file: " ++ path)
    if ← call .fclose then pure () else call (.perror "Failed to close aggregate data file")

/- From the label cleanup_file on. -/
def cleanupFile (l : Loader) (file : Option String) (skel : Bool) (links : List (Option Nat))
    (err : Int) : Load Int := do
  closeFile l file
  destroyLinks links
  if skel then call .destroy
  let code : Int := if err ≠ 0 then 1 else 0
  call (.printf (l.farewell ++ " Exiting with code " ++ toString code ++ ".\n"))
  pure code

def reportAttached (l : Loader) (run : Attached) : Load Unit :=
  if run.nFailed > 0 then
    progress l ("[WARN] " ++ toString run.nFailed ++ " probes failed to attach.")
  else
    progress l ("All " ++ toString run.links.length ++ " probes attached successfully.")

/- All that follows the opening of the file. -/
def trace (l : Loader) (strerror : Int → String) (durationSec : Int) (file : Option String)
    (rounds : Nat) : Load (Option Int) := do
  if ← call .openAndLoad then
    progress l "Attaching probes..."
    let run ← attachProbes l strerror l.probesToAttach ⟨[], 0, 0, false⟩
    if run.stopped then
      let code ← cleanupFile l file true run.links run.err
      pure (some code)
    else
      reportAttached l run
      call (.printf ("Tracer started. Hit Ctrl-C to end or run for " ++ toString durationSec ++
        " seconds.\n"))
      let start ← call .clockGettime
      if ← waitLoop durationSec start rounds then
        if file.isSome then call .dumpAggregateToFile
        let code ← cleanupFile l file true run.links run.err
        pure (some code)
      else
        pure none
  else
    call (.eprintf "Failed to open BPF skeleton\n")
    let code ← cleanupFile l file false [] 1
    pure (some code)

/- The exit code, or none while the program is still waiting. -/
def main (l : Loader) (strerror : Int → String) (rounds : Nat) : Load (Option Int) := do
  let (err, args) ← call .argpParse
  if err ≠ 0 then
    pure (some err)
  else
    match args.aggDataFilepath with
    | none => trace l strerror args.durationSec none rounds
    | some path =>
      if ← call (.fopen path) then
        call (.printf ("Outputting structured aggregate data to: " ++ path ++ "\n"))
        trace l strerror args.durationSec (some path) rounds
      else
        call (.perror "Failed to open output file for aggregate data")
        pure (some EXIT_FAILURE)

def probePair (name targetName : String) (cookie : FunctionName) : List ProbeDef :=
  [⟨"kprobe_" ++ name, targetName, .kprobe, cookie⟩,
    ⟨"kretprobe_" ++ name, targetName, .kretprobe, cookie⟩]

/- The programs are called after the function they are for. -/
def namedPair (name : String) (cookie : FunctionName) : List ProbeDef := probePair name name cookie

def guestLoader : Loader where
  probesToAttach := [
    namedPair "iommu_map" .iommuMap,
    namedPair "__iommu_map" .iommuMapInternal,
    namedPair "intel_iommu_iotlb_sync_map" .iommuIotlbSyncMap,
    namedPair "cache_tag_flush_range_np" .cacheTagFlushRangeNp,
    namedPair "iommu_flush_write_buffer" .iommuFlushWriteBuffer,
    namedPair "iommu_unmap" .iommuUnmap,
    namedPair "__iommu_unmap" .iommuUnmapInternal,
    namedPair "intel_iommu_tlb_sync" .iommuTlbSync,
    namedPair "cache_tag_flush_range" .cacheTagFlushRange,
    namedPair "cache_tag_flush_range_call" .cacheTagFlushRangeCall,
    namedPair "page_pool_alloc_netmem" .pagePoolAlloc,
    namedPair "__page_pool_alloc_pages_slow" .pagePoolSlow,
    namedPair "qi_batch_flush_descs" .qiBatchFlushDescs,
    namedPair "qi_submit_sync" .qiSubmitSync,
    namedPair "page_pool_dma_map" .pagePoolDmaMap,
    probePair "trace_mlx5e_tx_dma_unmap_ktls_hook"
      "mlx5_core:trace_mlx5e_tx_dma_unmap_ktls_hook" .traceMlx5eTxDmaUnmapKtlsHook,
    probePair "trace_mlx5e_dma_push_build_single_hook"
      "mlx5_core:trace_mlx5e_dma_push_build_single_hook" .traceMlx5eDmaPushBuildSingleHook,
    probePair "trace_mlx5e_dma_push_xmit_single_hook"
      "mlx5_core:trace_mlx5e_dma_push_xmit_single_hook" .traceMlx5eDmaPushXmitSingleHook,
    probePair "trace_mlx5e_dma_push_page_hook"
      "mlx5_core:trace_mlx5e_dma_push_page_hook" .traceMlx5eDmaPushPageHook,
    probePair "trace_mlx5e_tx_dma_unmap_hook"
      "mlx5_core:trace_mlx5e_tx_dma_unmap_hook" .traceMlx5eTxDmaUnmapHook,
    namedPair "trace_qi_submit_sync_cs" .traceQiSubmitSyncCs,
    namedPair "trace_qi_submit_sync_lock_wrapper" .traceQiSubmitSyncLockWrapper,
    namedPair "trace_iommu_flush_write_buffer_cs" .traceIommuFlushWriteBufferCs,
    namedPair "trace_iommu_flush_write_buffer_lock_wrapper" .traceIommuFlushWriteBufferLockWrapper,
    namedPair "page_pool_return_page" .pagePoolReturnPage,
    namedPair "page_pool_put_unrefed_netmem" .pagePoolPutNetmem,
    namedPair "page_pool_put_unrefed_page" .pagePoolPutPage,
    namedPair "iommu_dma_free_iova" .iommuDmaFreeIova,
    namedPair "iommu_dma_free_iova_call" .iommuDmaFreeIovaCall,
    namedPair "__iommu_dma_unmap_call" .__iommuDmaUnmapCall,
    namedPair "__iommu_dma_unmap" .__iommuDmaUnmap,
    probePair "count_mlx5e_alloc_rx_mpwqe_perpage_hook"
      "mlx5_core:count_mlx5e_alloc_rx_mpwqe_perpage_hook" .countMlx5eRxMpwqePerPage,
    namedPair "count_page_pool_release_page_dma_hook" .countPagePoolRelease,
    namedPair "count_page_pool_recycle_in_cache_hook" .countPagePoolRecycle,
    namedPair "sys_flush_handler" .sysFlushHandler,
    namedPair "__sys_flush_handler" .__sysFlushHandler,
    namedPair "dma_map_sg_attrs" .dmaMapSgAttrs,
    namedPair "sk_stream_wait_memory" .skStreamWaitMemory,
    namedPair "iova_free_from_qi_batch" .iovaFreeFromQiBatch,
    namedPair "unmap_callback_consume" .unmapCallbackConsume,
    namedPair "cache_tag_flush_iotlb" .cacheTagFlushIotlb].flatten
  maxProbes := 127
  stopAtFailure := false
  stamped := true
  farewell := "Guest BPF Cleanup complete."

def serverLoader : Loader where
  probesToAttach := [
    namedPair "iommu_map" .iommuMap,
    namedPair "__iommu_map" .iommuMapInternal,
    namedPair "intel_iommu_iotlb_sync_map" .iommuIotlbSyncMap,
    namedPair "cache_tag_flush_range_np" .cacheTagFlushRangeNp,
    namedPair "iommu_flush_write_buffer" .iommuFlushWriteBuffer,
    namedPair "iommu_unmap" .iommuUnmap,
    namedPair "__iommu_unmap" .iommuUnmapInternal,
    namedPair "intel_iommu_tlb_sync" .iommuTlbSync,
    namedPair "cache_tag_flush_range" .cacheTagFlushRange,
    namedPair "page_pool_alloc_netmem" .pagePoolAlloc,
    namedPair "__page_pool_alloc_pages_slow" .pagePoolSlow,
    namedPair "qi_batch_flush_descs" .qiBatchFlushDescs,
    namedPair "qi_submit_sync" .qiSubmitSync,
    namedPair "page_pool_dma_map" .pagePoolDmaMap,
    namedPair "page_pool_return_page" .pagePoolReturnPage,
    namedPair "page_pool_put_unrefed_netmem" .pagePoolPutNetmem,
    namedPair "page_pool_put_unrefed_page" .pagePoolPutPage,
    namedPair "iommu_dma_free_iova" .iommuDmaFreeIova,
    namedPair "__iommu_dma_unmap" .__iommuDmaUnmap,
    namedPair "sys_flush_handler" .sysFlushHandler,
    namedPair "__sys_flush_handler" .__sysFlushHandler].flatten
  maxProbes := 127
  stopAtFailure := false
  stamped := true
  farewell := "Guest BPF Cleanup complete."

def hostQemuLoader : Loader where
  probesToAttach := [
    namedPair "qi_submit_sync" .qiSubmitSync,
    namedPair "iommufd_fops_ioctl" .iommufdFopsIoctl].flatten
  maxProbes := 50
  stopAtFailure := true
  stamped := false
  farewell := "Cleanup complete."

/- The cookies of the guest, two probes for each. -/
example : guestLoader.probesToAttach.map ProbeDef.cookie =
    GuestLoader.probesToAttach.flatMap fun fn => [fn, fn] := rfl

end LoaderMain
