import FastSafeIO.AgentPool
import FastSafeIO.IommuWorld
import FastSafeIO.RxDriver

/- One striding receive queue over time: which driver function may run when, on the
   queue's own memory, against one IOMMU domain. -/
namespace RxQueue
open CallTree KernelCalls DmaLayer RxDriver IommuWorld AgentPool

/- posted marks the WQEs the device has; xdpFifo holds the pages on the XDP queue. -/
structure RxMem where
  wqe : Nat → MpwInfo
  inlineMtts : Nat → Nat → Nat
  posted : Nat → Bool
  xdpFifo : List Page
  shampo : Nat → DmaInfo

def RxMem.initial : RxMem :=
  ⟨fun _ => ⟨fun _ => .zeroed, fun _ => false⟩, fun _ _ => 0, fun _ => false, [],
    fun _ => .zeroed⟩

inductive RxJob where
  | allocRxMpwqe (ix : Nat)
  | freeRxMpwqe (ix : Nat) (recycle : Bool)
  | xdpRedirect (ix i : Nat)
  | xdpTx (ix i : Nat)
  | xdpTxComplete (recycle : Bool)
  | freeRq
  | buildShampoHdUmr (klmEntries index : Nat) (lastBuffer : Buffer) (lastAddr : Nat)
  | shampoDeallocHd (indices : List Nat)
  | freeRxShampoHdEntry (headerIndex : Nat)

def RxMem.setWqe (mem : RxMem) (ix : Nat) (wi : MpwInfo) (posted : Bool) : RxMem :=
  { mem with
    wqe := Function.update mem.wqe ix wi, posted := Function.update mem.posted ix posted }

/- The packet handler marks the page it gave to XDP in the bitmap of its WQE. -/
def MpwInfo.setBit (wi : MpwInfo) (i : Nat) : MpwInfo :=
  { wi with xdpXmitBitmap := Function.update wi.xdpXmitBitmap i true }

def RxMem.markXdp (mem : RxMem) (ix i : Nat) : RxMem :=
  { mem with wqe := Function.update mem.wqe ix (MpwInfo.setBit (mem.wqe ix) i) }

/- A packet is in one page of a posted WQE, and each page is given to XDP once. -/
def xdpReady (mem : RxMem) (ix i : Nat) : Prop :=
  mem.posted ix = true ∧ i < MLX5_MPWRQ_PAGES_PER_WQE ∧ (mem.wqe ix).xdpXmitBitmap i = false ∧
    ∃ page, ((mem.wqe ix).dmaInfo i).buffer = .page page

def ready : RxJob → RxMem → Prop
  | .allocRxMpwqe ix, mem => mem.posted ix = false
  | .freeRxMpwqe ix _, mem => mem.posted ix = true
  | .xdpRedirect ix i, mem => xdpReady mem ix i
  | .xdpTx ix i, mem => xdpReady mem ix i
  | .xdpTxComplete _, mem => mem.xdpFifo ≠ []
  | _, _ => True

def body (rq : Rq) : RxJob → RxMem → Kernel RxMem
  | .allocRxMpwqe ix, mem => do
    let (err, wi, mtts) ← onDevice rq.dev (mlx5eAllocRxMpwqe rq (mem.wqe ix))
    pure { mem.setWqe ix wi (err == 0) with
      inlineMtts := Function.update mem.inlineMtts ix mtts }
  | .freeRxMpwqe ix recycle, mem => do
    let wi ← onDevice rq.dev (mlx5eFreeRxMpwqe rq (mem.wqe ix) recycle)
    pure (mem.setWqe ix wi false)
  | .xdpRedirect ix i, mem =>
    match ((mem.wqe ix).dmaInfo i).buffer with
    | .page page => do
      onDevice rq.dev (mlx5eXdpHandle rq page)
      pure (mem.markXdp ix i)
    | _ => pure mem
  | .xdpTx ix i, mem =>
    match ((mem.wqe ix).dmaInfo i).buffer with
    | .page page => pure { mem.markXdp ix i with xdpFifo := mem.xdpFifo ++ [page] }
    | _ => pure mem
  | .xdpTxComplete recycle, mem =>
    match mem.xdpFifo with
    | [] => pure mem
    | page :: rest => do
      onDevice rq.dev (mlx5eFreeXdpsqDesc page recycle)
      pure { mem with xdpFifo := rest }
  | .freeRq, mem => do
    onDevice rq.dev mlx5eFreeRq
    pure mem
  | .buildShampoHdUmr klmEntries index lastBuffer lastAddr, mem => do
    let (_, info) ← onDevice rq.dev
      (mlx5eBuildShampoHdUmr rq klmEntries index lastBuffer lastAddr mem.shampo)
    pure { mem with shampo := info }
  | .shampoDeallocHd indices, mem => do
    let info ← onDevice rq.dev (mlx5eShampoDeallocHd rq indices .null mem.shampo)
    pure { mem with shampo := info }
  | .freeRxShampoHdEntry headerIndex, mem => do
    let info ← onDevice rq.dev (mlx5eFreeRxShampoHdEntry rq headerIndex mem.shampo)
    pure { mem with shampo := info }

/- The queue runs one function at a time; the device accesses memory at any time.
   The jobs a run may use are chosen by kinds. -/
def rxPool (rq : Rq) (kinds : RxJob → Prop) :
    Pool Unit KernelOp KernelOp.Ans World RxMem RxJob where
  exec _ := exec 0
  drift := DeviceAccess
  ready _ job mem := kinds job ∧ ready job mem
  body := body rq

abbrev RxConfig : Type := Config Unit KernelOp KernelOp.Ans World RxMem RxJob

abbrev RxLimits : Type := Limits Unit KernelOp KernelOp.Ans World RxMem RxJob

def startConfig (fq : Bool) : RxConfig := ⟨fun _ => .idle .initial, startWorld fq⟩

/- The single queue, in the middle of a job. -/
def inJob (job : RxJob) (mem : RxMem) (rest : Kernel RxMem) (w : World) : RxConfig :=
  ⟨fun _ => .busy job mem rest, w⟩

theorem single_phase (f : Unit → Phase KernelOp KernelOp.Ans RxMem RxJob)
    (phase : Phase KernelOp KernelOp.Ans RxMem RxJob) :
    Function.update f () phase = fun _ => phase :=
  funext fun _ => Function.update_self ..

theorem job_returns (rq : Rq) (kinds : RxJob → Prop) (L : RxLimits) (job : RxJob) (mem : RxMem)
    {run : (op : KernelOp) → op.Ans → World → Option World} {w last : World} {out : RxMem}
    {trace : List KernelEvent} (can : kinds job ∧ ready job mem) (allowed : L.start () job mem w)
    (sound : ∀ op r a b, run op r a = some b → L.call () job mem op r a ∧ exec 0 op r a = some b)
    (ran : Exec run (body rq job mem) w trace out last) :
    Reaches (rxPool rq kinds) L ⟨fun _ => .idle mem, w⟩ (inJob job mem (.done out) last) := by
  have more := job_exec_reaches (P := rxPool rq kinds) (L := L) (u := ())
    (f := fun _ => .idle mem) rfl can allowed sound ran
  rw [single_phase] at more
  exact more

theorem job_finishes (rq : Rq) (kinds : RxJob → Prop) (L : RxLimits) (job : RxJob) (mem out : RxMem)
    (w : World) :
    Step (rxPool rq kinds) L (inJob job mem (.done out) w) ⟨fun _ => .idle out, w⟩ := by
  have last : Step (rxPool rq kinds) L (inJob job mem (.done out) w)
      ⟨Function.update (inJob job mem (.done out) w).phase () (.idle out), w⟩ := .finish rfl
  rw [single_phase] at last
  exact last

theorem job_reaches (rq : Rq) (kinds : RxJob → Prop) (L : RxLimits) (job : RxJob) (mem : RxMem)
    {run : (op : KernelOp) → op.Ans → World → Option World}
    {oracle : (op : KernelOp) → World → op.Ans} {n : Nat} {w after : World}
    {last : Kernel RxMem} (can : kinds job ∧ ready job mem) (allowed : L.start () job mem w)
    (sound : ∀ op r a b, run op r a = some b → L.call () job mem op r a ∧ exec 0 op r a = some b)
    (out : advance run oracle n (body rq job mem) w = some (last, after)) :
    Reaches (rxPool rq kinds) L ⟨fun _ => .idle mem, w⟩ (inJob job mem last after) := by
  have more := start_advance_reaches (P := rxPool rq kinds) (L := L) (u := ())
    (c := ⟨fun _ => .idle mem, w⟩) job mem rfl can allowed sound out
  rw [single_phase] at more
  exact more

end RxQueue
