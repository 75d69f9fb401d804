import Mathlib.Logic.Function.Basic
import Mathlib.Tactic.Ring

/-! What the tracers and the loader share (tracing_utils.h), and arithmetic of u64 values. -/
namespace TracingUtils
set_option linter.style.nameCheck false

def HISTO_BUCKETS : Nat := 21

/-- The traced functions in the order of the enumeration: those whose latency is traced
    come first, the last three are only counted. -/
inductive FunctionName where
  | iommuMap
  | iommuMapInternal
  | iommuIotlbSyncMap
  | iommuUnmap
  | cacheTagFlushRangeNp
  | iommuFlushWriteBuffer
  | iommuUnmapInternal
  | iommuTlbSync
  | cacheTagFlushRange
  | pagePoolAlloc
  | pagePoolSlow
  | qiSubmitSync
  | qiBatchFlushDescs
  | traceMlx5eTxDmaUnmapKtlsHook
  | traceMlx5eDmaPushBuildSingleHook
  | traceMlx5eDmaPushXmitSingleHook
  | traceMlx5eDmaPushPageHook
  | traceMlx5eTxDmaUnmapHook
  | traceQiSubmitSyncCs
  | traceQiSubmitSyncLockWrapper
  | traceIommuFlushWriteBufferCs
  | traceIommuFlushWriteBufferLockWrapper
  | pagePoolDmaMap
  | pagePoolReturnPage
  | pagePoolPutNetmem
  | pagePoolPutPage
  | qemuVtdFetchInvDesc
  | iommufdFopsIoctl
  | writelWrapper
  | afterWritelWhileWrapper
  | sysFlushHandler
  | __sysFlushHandler
  | cacheTagFlushRangeCall
  | iommuDmaFreeIova
  | iommuDmaFreeIovaCall
  | __iommuDmaUnmapCall
  | __iommuDmaUnmap
  | dmaMapSgAttrs
  | skStreamWaitMemory
  | iovaFreeFromQiBatch
  | unmapCallbackConsume
  | cacheTagFlushIotlb
  | countPagePoolRelease
  | countPagePoolRecycle
  | countMlx5eRxMpwqePerPage
  deriving DecidableEq, Repr

/-- The value of an enumerator, which is its cookie too. -/
abbrev FunctionName.value (fn : FunctionName) : Nat := fn.ctorIdx

def TRACE_FUNCS_END : Nat := 42

def FUNCTION_NAME_MAX : Nat := 45

example : FunctionName.countPagePoolRelease.value = TRACE_FUNCS_END := rfl

example : FunctionName.countMlx5eRxMpwqePerPage.value + 1 = FUNCTION_NAME_MAX := rfl

/-- struct latency_stats_t -/
structure LatencyStats where
  count : Nat
  totalDurationNs : Nat
  sumSqDurationUs : Nat
  deriving DecidableEq, Repr

def noStats : LatencyStats := ⟨0, 0, 0⟩

def add64 (a b : Nat) : Nat := (a + b) % 2 ^ 64

def sub64 (a b : Nat) : Nat := (a + (2 ^ 64 - b % 2 ^ 64)) % 2 ^ 64

def mul64 (a b : Nat) : Nat := a * b % 2 ^ 64

theorem sub64_lt (a b : Nat) : sub64 a b < 2 ^ 64 := Nat.mod_lt _ (by decide)

theorem mul64_lt (a b : Nat) : mul64 a b < 2 ^ 64 := Nat.mod_lt _ (by decide)

theorem sub64_of_le {a b : Nat} (order : b ≤ a) (bound : a < 2 ^ 64) : sub64 a b = a - b := by
  unfold sub64
  omega

theorem add64_exact {a b : Nat} (small : b < 2 ^ 64) (grown : a ≤ add64 a b) :
    add64 a b = a + b := by
  unfold add64 at grown ⊢
  omega

/-- One cell of a per-CPU array replaced. -/
def put {α : Type} (f : Nat → Nat → α) (cpu key : Nat) (a : α) : Nat → Nat → α :=
  fun c k => if c = cpu ∧ k = key then a else f c k

section
variable {α : Type} {f : Nat → Nat → α} {cpu key c k : Nat} {a : α}

@[simp] theorem put_same : put f cpu key a cpu key = a := if_pos ⟨rfl, rfl⟩

theorem put_other (other : ¬ (c = cpu ∧ k = key)) : put f cpu key a c k = f c k := if_neg other

end

/-- What latency_stats_t gains from one call. -/
def LatencyStats.add (s : LatencyStats) (durationNs : Nat) : LatencyStats :=
  let durationUs := durationNs / 1000
  { count := add64 s.count 1
    totalDurationNs := add64 s.totalDurationNs durationNs
    sumSqDurationUs := add64 s.sumSqDurationUs (mul64 durationUs durationUs) }

/-- A probe of one function that goes off: which task runs on which CPU, and the clock. An
    entry says whether the task storage could be created, should there be none yet. -/
inductive Probe where
  | entry (created : Bool)
  | exit
  deriving DecidableEq, Repr

structure Firing where
  probe : Probe
  task : Nat
  cpu : Nat
  cookie : Nat
  now : Nat
  deriving DecidableEq, Repr

end TracingUtils
