import FastSafeIO.SinglePages

/- Queues that do not batch: whole sequences of operations in the patched and in the old
   driver, whatever the new fields of the slots hold at the start. -/
namespace DriverInvisible
open CallTree KernelCalls DmaLayer RxDriver SinglePages

/- One receive queue: its striding WQEs, the pages of its cyclic WQEs, its SHAMPO headers. -/
structure QueueMem where
  wqe : Nat → MpwInfo
  frag : Nat → DmaInfo
  shampo : Nat → DmaInfo

structure OldQueueMem where
  wqe : Nat → OldRxDriver.MpwInfo
  frag : Nat → OldRxDriver.DmaInfo
  shampo : Nat → OldRxDriver.DmaInfo

def QueueMem.old (mem : QueueMem) : OldQueueMem :=
  ⟨fun ix => ⟨fun i => oldInfo ((mem.wqe ix).dmaInfo i), (mem.wqe ix).xdpXmitBitmap⟩,
    fun i => oldInfo (mem.frag i), fun i => oldInfo (mem.shampo i)⟩

/- markXdp is the packet handler's mark in the bitmap of a WQE. -/
inductive QueueOp where
  | allocRxMpwqe (ix : Nat)
  | freeRxMpwqe (ix : Nat) (recycle : Bool)
  | markXdp (ix i : Nat)
  | getRxFrag (slot offset : Nat)
  | putRxFrag (slot : Nat) (lastInPage recycle : Bool)
  | buildShampoHdUmr (klmEntries index : Nat) (lastBuffer : Buffer) (lastAddr : Nat)
  | shampoDeallocHd (indices : List Nat)
  | freeRxShampoHdEntry (headerIndex : Nat)
  | xdpHandle (page : Page)
  | freeXdpsqDesc (page : Page) (recycle : Bool)
  | freeRq

inductive QueueResult where
  | nothing
  | err (err : Int)
  | posted (err : Int) (inlineMtts : Nat → Nat)

def QueueOp.cyclic : QueueOp → Bool
  | .getRxFrag _ _ => true
  | .putRxFrag _ _ _ => true
  | .xdpHandle _ => true
  | .freeXdpsqDesc _ _ => true
  | .freeRq => true
  | _ => false

/-- A fragment that is to use the page of an earlier one. -/
def QueueOp.sharesPage : QueueOp → Bool
  | .getRxFrag _ offset => offset != 0
  | _ => false

def step (rq : Rq) : QueueOp → QueueMem → Rx (QueueResult × QueueMem)
  | .allocRxMpwqe ix, mem => do
    let (err, wi, mtts) ← mlx5eAllocRxMpwqe rq (mem.wqe ix)
    pure (.posted err mtts, { mem with wqe := Function.update mem.wqe ix wi })
  | .freeRxMpwqe ix recycle, mem => do
    let wi ← mlx5eFreeRxMpwqe rq (mem.wqe ix) recycle
    pure (.nothing, { mem with wqe := Function.update mem.wqe ix wi })
  | .markXdp ix i, mem =>
    let wi := { mem.wqe ix with
      xdpXmitBitmap := Function.update (mem.wqe ix).xdpXmitBitmap i true }
    pure (.nothing, { mem with wqe := Function.update mem.wqe ix wi })
  | .getRxFrag slot offset, mem => do
    let (err, di) ← mlx5eGetRxFrag rq offset (mem.frag slot)
    pure (.err err, { mem with frag := Function.update mem.frag slot di })
  | .putRxFrag slot lastInPage recycle, mem => do
    let di ← mlx5ePutRxFrag rq lastInPage (mem.frag slot) recycle
    pure (.nothing, { mem with frag := Function.update mem.frag slot di })
  | .buildShampoHdUmr klmEntries index lastBuffer lastAddr, mem => do
    let (err, info) ← mlx5eBuildShampoHdUmr rq klmEntries index lastBuffer lastAddr mem.shampo
    pure (.err err, { mem with shampo := info })
  | .shampoDeallocHd indices, mem => do
    let info ← mlx5eShampoDeallocHd rq indices .null mem.shampo
    pure (.nothing, { mem with shampo := info })
  | .freeRxShampoHdEntry headerIndex, mem => do
    let info ← mlx5eFreeRxShampoHdEntry rq headerIndex mem.shampo
    pure (.nothing, { mem with shampo := info })
  | .xdpHandle page, mem => do
    mlx5eXdpHandle rq page
    pure (.nothing, mem)
  | .freeXdpsqDesc page recycle, mem => do
    mlx5eFreeXdpsqDesc page recycle
    pure (.nothing, mem)
  | .freeRq, mem => do
    mlx5eFreeRq
    pure (.nothing, mem)

def oldStep (rq : Rq) : QueueOp → OldQueueMem → Rx (QueueResult × OldQueueMem)
  | .allocRxMpwqe ix, mem => do
    let (err, wi, mtts) ← OldRxDriver.mlx5eAllocRxMpwqe rq (mem.wqe ix)
    pure (.posted err mtts, { mem with wqe := Function.update mem.wqe ix wi })
  | .freeRxMpwqe ix recycle, mem => do
    OldRxDriver.mlx5eFreeRxMpwqe rq (mem.wqe ix) recycle
    pure (.nothing, mem)
  | .markXdp ix i, mem =>
    let wi := { mem.wqe ix with
      xdpXmitBitmap := Function.update (mem.wqe ix).xdpXmitBitmap i true }
    pure (.nothing, { mem with wqe := Function.update mem.wqe ix wi })
  | .getRxFrag slot offset, mem => do
    let (err, di) ← OldRxDriver.mlx5eGetRxFrag rq offset (mem.frag slot)
    pure (.err err, { mem with frag := Function.update mem.frag slot di })
  | .putRxFrag slot lastInPage recycle, mem => do
    OldRxDriver.mlx5ePutRxFrag rq lastInPage (mem.frag slot) recycle
    pure (.nothing, mem)
  | .buildShampoHdUmr klmEntries index lastBuffer lastAddr, mem => do
    let (err, info) ←
      OldRxDriver.mlx5eBuildShampoHdUmr rq klmEntries index lastBuffer lastAddr mem.shampo
    pure (.err err, { mem with shampo := info })
  | .shampoDeallocHd indices, mem => do
    let info ← OldRxDriver.mlx5eShampoDeallocHd rq indices .null mem.shampo
    pure (.nothing, { mem with shampo := info })
  | .freeRxShampoHdEntry headerIndex, mem => do
    let info ← OldRxDriver.mlx5eFreeRxShampoHdEntry rq headerIndex mem.shampo
    pure (.nothing, { mem with shampo := info })
  | .xdpHandle page, mem => do
    OldRxDriver.mlx5eXdpHandle rq page
    pure (.nothing, mem)
  | .freeXdpsqDesc page recycle, mem => do
    OldRxDriver.mlx5eFreeXdpsqDesc page recycle
    pure (.nothing, mem)
  | .freeRq, mem => do
    OldRxDriver.mlx5eFreeRq
    pure (.nothing, mem)

/- The calls and results of a sequence of operations. -/
def run (rq : Rq) : List QueueOp → QueueMem → Rx (List QueueResult)
  | [], _ => pure []
  | op :: rest, mem => do
    let (result, mem) ← step rq op mem
    let results ← run rq rest mem
    pure (result :: results)

def oldRun (rq : Rq) : List QueueOp → OldQueueMem → Rx (List QueueResult)
  | [], _ => pure []
  | op :: rest, mem => do
    let (result, mem) ← oldStep rq op mem
    let results ← oldRun rq rest mem
    pure (result :: results)

structure SameQueue (mem : QueueMem) (o : OldQueueMem) : Prop where
  wqe : ∀ ix, SameWqe (mem.wqe ix) (o.wqe ix)
  frag : Shows mem.frag o.frag
  shampo : Shows mem.shampo o.shampo

theorem same_old (mem : QueueMem) : SameQueue mem mem.old :=
  ⟨fun _ => ⟨fun _ => rfl, rfl⟩, fun _ => rfl, fun _ => rfl⟩

theorem SameQueue.setWqe {mem : QueueMem} {o : OldQueueMem} (same : SameQueue mem o) (ix : Nat)
    {wi : MpwInfo} {d : Nat → OldRxDriver.MpwInfo} (here : SameWqe wi (d ix))
    (others : ∀ j, j ≠ ix → d j = o.wqe j) :
    SameQueue { mem with wqe := Function.update mem.wqe ix wi } { o with wqe := d } := by
  refine ⟨fun j => ?_, same.frag, same.shampo⟩
  by_cases this : j = ix
  · subst this
    simpa using here
  · simpa [Function.update_of_ne this, others j this] using same.wqe j

section
variable {rq : Rq} {op : QueueOp} (plain : rq.dev.iommuMapped = false ∨ op.cyclic = true)
include plain

/-- One operation of a queue that does not batch. -/
theorem step_alike (first : op.sharesPage = false) {mem : QueueMem} {o : OldQueueMem}
    (same : SameQueue mem o) :
    (step rq op mem).Alike (fun out old => out.1 = old.1 ∧ SameQueue out.2 old.2)
      (oldStep rq op o) := by
  have unmapped : op.cyclic = false → rq.dev.iommuMapped = false := fun striding =>
    plain.resolve_right (by simp [striding])
  cases op with
  | allocRxMpwqe ix =>
    apply (alloc_wqe_alike (unmapped rfl) (same.wqe ix)).bind
    rintro ⟨err, wi, mtts⟩ ⟨_, d, _⟩ ⟨rfl, wqe, rfl⟩
    apply Tree.Alike.done
    exact ⟨rfl, same.setWqe ix (by simpa using wqe) fun j other => Function.update_of_ne other _ _⟩
  | freeRxMpwqe ix recycle =>
    apply (free_wqe_alike (unmapped rfl) (same.wqe ix) recycle).bind
    exact fun wi _ wqe => .done ⟨rfl, same.setWqe ix wqe fun _ _ => rfl⟩
  | markXdp ix i =>
    apply Tree.Alike.done
    refine ⟨rfl, same.setWqe ix ?_ fun j other => Function.update_of_ne other _ _⟩
    have before := same.wqe ix
    simp only [Function.update_self]
    exact ⟨before.shows, by rw [before.bitmap]⟩
  | getRxFrag slot offset =>
    have zero : offset = 0 := by simpa [QueueOp.sharesPage] using first
    subst zero
    have here : oldInfo { mem.frag slot with batchIova := false } = o.frag slot := same.frag slot
    apply (page_alloc_alike rq rfl here).bind
    rintro ⟨err, di⟩ ⟨_, d⟩ ⟨rfl, rfl, _⟩
    exact .done ⟨rfl, same.wqe, same.frag.update slot rfl, same.shampo⟩
  | putRxFrag slot lastInPage recycle =>
    have here : oldInfo { mem.frag slot with iovaSize := 0 } = o.frag slot := same.frag slot
    simp only [step, oldStep, mlx5ePutRxFrag, OldRxDriver.mlx5ePutRxFrag, Tree.bind_eq]
    cases lastInPage
    · exact .done ⟨rfl, same.wqe, same.frag.refresh (same.frag slot), same.shampo⟩
    · simp only [↓reduceIte, release_eq rq rfl here, Tree.bind_assoc]
      apply (Tree.Alike.refl (fun _ => rfl) _).bind
      exact fun _ _ _ => .done ⟨rfl, same.wqe, same.frag.refresh here, same.shampo⟩
  | buildShampoHdUmr klmEntries index lastBuffer lastAddr =>
    apply (build_hd_alike klmEntries index lastBuffer lastAddr same.shampo).bind
    rintro ⟨err, info⟩ ⟨_, d⟩ ⟨rfl, shows⟩
    exact .done ⟨rfl, same.wqe, same.frag, shows⟩
  | shampoDeallocHd indices =>
    apply (dealloc_hd_alike indices .null same.shampo).bind
    exact fun _ _ shows => .done ⟨rfl, same.wqe, same.frag, shows⟩
  | freeRxShampoHdEntry headerIndex =>
    apply (free_hd_entry_alike headerIndex same.shampo).bind
    exact fun _ _ shows => .done ⟨rfl, same.wqe, same.frag, shows⟩
  | xdpHandle page =>
    apply (Tree.Alike.refl (fun _ => rfl) (OldRxDriver.mlx5eXdpHandle rq page)).bind
    exact fun _ _ _ => .done ⟨rfl, same⟩
  | freeXdpsqDesc page recycle =>
    apply (Tree.Alike.refl (fun _ => rfl) (OldRxDriver.mlx5eFreeXdpsqDesc page recycle)).bind
    exact fun _ _ _ => .done ⟨rfl, same⟩
  | freeRq =>
    simp only [step, oldStep, free_rq_eq]
    apply (Tree.Alike.refl (fun _ => rfl) OldRxDriver.mlx5eFreeRq).bind
    exact fun _ _ _ => .done ⟨rfl, same⟩

end

theorem run_alike {rq : Rq} {ops : List QueueOp}
    (plain : rq.dev.iommuMapped = false ∨ ∀ op ∈ ops, op.cyclic = true)
    (first : ∀ op ∈ ops, op.sharesPage = false) {mem : QueueMem} {o : OldQueueMem}
    (same : SameQueue mem o) : (run rq ops mem).Alike Eq (oldRun rq ops o) := by
  induction ops generalizing mem o with
  | nil => exact .done rfl
  | cons op rest ih =>
    have here := plain.imp_right fun all => all op List.mem_cons_self
    apply (step_alike here (first op List.mem_cons_self) same).bind
    rintro ⟨result, mid⟩ ⟨_, old⟩ ⟨rfl, later⟩
    apply (ih (plain.imp_right fun all op member => all op (List.mem_cons_of_mem _ member))
      (fun op member => first op (List.mem_cons_of_mem _ member)) later).bind
    rintro results _ rfl
    exact .done rfl

/- The other direction counts how often a page is asked for when every answer is a refusal. -/

instance : (op : PageOp) → Inhabited op.Ans
  | .rxCacheGet => ⟨none⟩
  | .rxCachePut _ => ⟨false⟩
  | .rxCacheEntries => ⟨[]⟩
  | .pagePoolDevAllocPages => ⟨none⟩
  | .pagePoolGetDmaAddr _ => ⟨(0 : Nat)⟩
  | .xskBuffCanAlloc _ => ⟨false⟩
  | .xskPageAllocPool => ⟨none⟩
  | .pagePoolRecycleDirect _ => ⟨()⟩
  | .pagePoolReleasePage _ => ⟨()⟩
  | .putPage _ => ⟨()⟩
  | .pagePoolSetDmaAddr _ _ => ⟨()⟩
  | .xdpHandOver _ => ⟨()⟩
  | .xskBuffFree _ => ⟨()⟩

instance : (op : DmaOp) → Inhabited op.Ans
  | .dmaMapPageAttrs _ _ _ => ⟨(0 : Nat)⟩
  | .dmaMapPageAttrsIova _ _ _ _ _ => ⟨(0 : Nat)⟩
  | .iommuDmaAllocIova _ => ⟨(0 : Nat)⟩
  | .dmaUnmapPageAttrs _ _ => ⟨()⟩
  | .dmaUnmapPageAttrsIova _ _ _ _ => ⟨()⟩

def refuse : (op : RxOp) → op.Ans
  | .page op => (default : op.Ans)
  | .dma op => (default : op.Ans)

def slotAsks : RxOp → Bool
  | .page .rxCacheGet => true
  | .page .xskPageAllocPool => true
  | _ => false

def asks {α : Type} (t : Rx α) : Nat := (t.path refuse).1.countP slotAsks

def Quiet (op : RxOp) : Prop := slotAsks op = false

theorem asks_bind {α β : Type} (t : Rx α) (next : α → Rx β) :
    asks (t.bind next) = asks t + asks (next (t.path refuse).2) := by
  unfold asks
  rw [Tree.path_bind, List.countP_append]

theorem asks_quiet {α : Type} {t : Rx α} (quiet : t.Calls Quiet) : asks t = 0 := by
  apply List.countP_eq_zero.mpr
  intro op member asked
  have silent := quiet.path refuse op member
  rw [Quiet, asked] at silent
  cases silent

theorem asks_bind_quiet {α β : Type} {t : Rx α} {next : α → Rx β} (quiet : ∀ a, (next a).Calls Quiet) :
    asks (t.bind next) = asks t := by
  rw [asks_bind, asks_quiet (quiet _), Nat.add_zero]

theorem asks_congr {α β γ δ : Type} {t : Rx α} {u : Rx β} {next : α → Rx γ} {other : β → Rx δ}
    (quiet : ∀ a, (next a).Calls Quiet) (silent : ∀ b, (other b).Calls Quiet) (same : asks t = asks u) :
    asks (t.bind next) = asks (u.bind other) := by
  rw [asks_bind_quiet quiet, asks_bind_quiet silent, same]

section
variable (rq : Rq)

theorem new_page_asks (di : DmaInfo) : asks (mlx5ePageAlloc rq di) = 1 := by
  unfold mlx5ePageAlloc
  split <;> rfl

theorem page_asks (d : OldRxDriver.DmaInfo) : asks (OldRxDriver.mlx5ePageAlloc rq d) = 1 := by
  unfold OldRxDriver.mlx5ePageAlloc
  split <;> rfl

theorem page_refused (d : OldRxDriver.DmaInfo) :
    ((OldRxDriver.mlx5ePageAlloc rq d).path refuse).2 = (-ENOMEM, { d with buffer := .null }) := by
  unfold OldRxDriver.mlx5ePageAlloc
  split <;> rfl

omit rq in
theorem unmap_quiet (page : Page) : (OldRxDriver.mlx5ePageDmaUnmap page).Calls Quiet :=
  ⟨rfl, fun _ => ⟨rfl, fun _ => ⟨rfl, fun _ => trivial⟩⟩⟩

omit rq in
theorem release_dynamic_quiet (page : Page) (recycle : Bool) :
    (OldRxDriver.mlx5ePageReleaseDynamic page recycle).Calls Quiet := by
  cases recycle
  · exact (unmap_quiet page).bind fun _ => ⟨rfl, fun _ => ⟨rfl, fun _ => trivial⟩⟩
  · refine ⟨rfl, fun taken => ?_⟩
    cases taken
    · exact (unmap_quiet page).bind fun _ => ⟨rfl, fun _ => trivial⟩
    · trivial

theorem release_quiet (d : OldRxDriver.DmaInfo) (recycle : Bool) :
    (OldRxDriver.mlx5ePageRelease rq d recycle).Calls Quiet := by
  unfold OldRxDriver.mlx5ePageRelease
  split
  · split
    · exact ⟨rfl, fun _ => trivial⟩
    · trivial
  · split
    · exact release_dynamic_quiet _ recycle
    · trivial

theorem err_unmap_quiet (count : Nat) (o : Nat → OldRxDriver.DmaInfo) :
    (OldRxDriver.errUnmap rq count o).Calls Quiet := by
  induction count with
  | zero => trivial
  | succ i ih => exact (release_quiet rq _ true).bind fun _ => ih

theorem free_loop_quiet (noXdpXmit : Bool) (bitmap : Nat → Bool) (recycle : Bool)
    (o : Nat → OldRxDriver.DmaInfo) (left i : Nat) :
    (OldRxDriver.freeLoop rq noXdpXmit bitmap recycle o left i).Calls Quiet := by
  induction left generalizing i with
  | zero => trivial
  | succ left ih =>
    unfold OldRxDriver.freeLoop
    split
    · exact (release_quiet rq _ recycle).bind fun _ => ih (i + 1)
    · exact ih (i + 1)

theorem shampo_err_unmap_quiet (index count : Nat) (o : Nat → OldRxDriver.DmaInfo) :
    (OldRxDriver.shampoErrUnmap rq index count o).Calls Quiet := by
  induction count generalizing o with
  | zero => trivial
  | succ i ih =>
    unfold OldRxDriver.shampoErrUnmap
    split
    · exact (release_quiet rq _ true).bind fun _ => ih _
    · exact ih o

theorem dealloc_hd_quiet (indices : List Nat) (deletedPage : Buffer) (o : Nat → OldRxDriver.DmaInfo) :
    (OldRxDriver.mlx5eShampoDeallocHd rq indices deletedPage o).Calls Quiet := by
  induction indices generalizing deletedPage o with
  | nil => trivial
  | cons index rest ih =>
    unfold OldRxDriver.mlx5eShampoDeallocHd
    dsimp only
    split
    · exact (release_quiet rq _ false).bind fun _ => ih _ _
    · exact ih _ _

theorem free_hd_entry_quiet (headerIndex : Nat) (o : Nat → OldRxDriver.DmaInfo) :
    (OldRxDriver.mlx5eFreeRxShampoHdEntry rq headerIndex o).Calls Quiet := by
  unfold OldRxDriver.mlx5eFreeRxShampoHdEntry
  split
  · exact (release_quiet rq _ true).bind fun _ => trivial
  · trivial

/- How often an operation asks for a page depends on nothing it finds in the slots. -/

theorem alloc_wqe_asks (wi o : OldRxDriver.MpwInfo) :
    asks (OldRxDriver.mlx5eAllocRxMpwqe rq wi) = asks (OldRxDriver.mlx5eAllocRxMpwqe rq o) := by
  have loop : ∀ dmaInfo mtts,
      asks (OldRxDriver.allocLoop rq MLX5_MPWRQ_PAGES_PER_WQE 0 dmaInfo mtts) = 1 := by
    intro dmaInfo mtts
    unfold MLX5_MPWRQ_PAGES_PER_WQE OldRxDriver.allocLoop
    rw [Tree.bind_eq, asks_bind, page_asks, page_refused]
    rfl
  have batch : ∀ wi : OldRxDriver.MpwInfo, asks
      ((OldRxDriver.allocLoop rq MLX5_MPWRQ_PAGES_PER_WQE 0 wi.dmaInfo fun _ => 0).bind fun run =>
        if run.err ≠ 0 then
          (OldRxDriver.errUnmap rq run.count run.dmaInfo).bind fun _ =>
            (.done (run.err, { wi with dmaInfo := run.dmaInfo }, run.inlineMtts) :
              Rx (Int × OldRxDriver.MpwInfo × (Nat → Nat)))
        else .done (0, ⟨run.dmaInfo, fun _ => false⟩, run.inlineMtts)) = 1 := by
    intro wi
    rw [asks_bind_quiet, loop]
    intro run
    split
    · exact (err_unmap_quiet rq _ _).bind fun _ => trivial
    · trivial
  simp only [OldRxDriver.mlx5eAllocRxMpwqe, Tree.bind_eq]
  split
  · rfl
  · exact (batch wi).trans (batch o).symm

theorem shampo_loop_asks (index left i : Nat) (b c : Buffer) (x y : Nat)
    (info o : Nat → OldRxDriver.DmaInfo) :
    asks (OldRxDriver.shampoLoop rq index b x left i info) =
      asks (OldRxDriver.shampoLoop rq index c y left i o) := by
  induction left generalizing i b c x y info o with
  | zero => rfl
  | succ left ih =>
    unfold OldRxDriver.shampoLoop
    dsimp only
    split
    · simp only [Tree.bind_eq]
      rw [asks_bind, asks_bind, page_asks, page_asks, page_refused, page_refused]
      rfl
    · exact ih _ _ _ _ _ _ _

theorem build_hd_asks (klmEntries index : Nat) (lastBuffer : Buffer) (lastAddr : Nat)
    (info o : Nat → OldRxDriver.DmaInfo) :
    asks (OldRxDriver.mlx5eBuildShampoHdUmr rq klmEntries index lastBuffer lastAddr info) =
      asks (OldRxDriver.mlx5eBuildShampoHdUmr rq klmEntries index lastBuffer lastAddr o) := by
  have quiet : ∀ run : OldRxDriver.HeaderRun,
      (if run.err ≠ 0 then
        (OldRxDriver.shampoErrUnmap rq index run.count run.info).bind fun info =>
          (Tree.done (run.err, info) : Rx (Int × (Nat → OldRxDriver.DmaInfo)))
      else .done (0, run.info)).Calls Quiet := by
    intro run
    split
    · exact (shampo_err_unmap_quiet rq index _ _).bind fun _ => trivial
    · trivial
  simp only [OldRxDriver.mlx5eBuildShampoHdUmr, Tree.bind_eq, Tree.pure_eq]
  rw [asks_bind_quiet quiet, asks_bind_quiet quiet]
  exact shampo_loop_asks rq index klmEntries 0 _ _ _ _ info o

theorem old_step_asks (op : QueueOp) (mem o : OldQueueMem) :
    asks (oldStep rq op mem) = asks (oldStep rq op o) := by
  cases op with
  | allocRxMpwqe ix => exact asks_congr (fun _ => trivial) (fun _ => trivial) (alloc_wqe_asks rq _ _)
  | freeRxMpwqe ix recycle =>
    have quiet : ∀ wi, asks (OldRxDriver.mlx5eFreeRxMpwqe rq wi recycle) = 0 :=
      fun wi => asks_quiet (free_loop_quiet rq _ _ recycle _ _ 0)
    exact asks_congr (fun _ => trivial) (fun _ => trivial) ((quiet _).trans (quiet _).symm)
  | markXdp ix i => rfl
  | getRxFrag slot offset =>
    refine asks_congr (fun _ => trivial) (fun _ => trivial) ?_
    unfold OldRxDriver.mlx5eGetRxFrag
    split
    · rw [page_asks, page_asks]
    · rfl
  | putRxFrag slot lastInPage recycle =>
    refine asks_congr (fun _ => trivial) (fun _ => trivial) ?_
    unfold OldRxDriver.mlx5ePutRxFrag
    split
    · rw [asks_quiet (release_quiet rq _ recycle), asks_quiet (release_quiet rq _ recycle)]
    · rfl
  | buildShampoHdUmr klmEntries index lastBuffer lastAddr =>
    exact asks_congr (fun _ => trivial) (fun _ => trivial)
      (build_hd_asks rq klmEntries index lastBuffer lastAddr _ _)
  | shampoDeallocHd indices =>
    refine asks_congr (fun _ => trivial) (fun _ => trivial) ?_
    rw [asks_quiet (dealloc_hd_quiet rq indices _ _), asks_quiet (dealloc_hd_quiet rq indices _ _)]
  | freeRxShampoHdEntry headerIndex =>
    refine asks_congr (fun _ => trivial) (fun _ => trivial) ?_
    rw [asks_quiet (free_hd_entry_quiet rq headerIndex _),
      asks_quiet (free_hd_entry_quiet rq headerIndex _)]
  | xdpHandle page => exact asks_congr (fun _ => trivial) (fun _ => trivial) rfl
  | freeXdpsqDesc page recycle => exact asks_congr (fun _ => trivial) (fun _ => trivial) rfl
  | freeRq => exact asks_congr (fun _ => trivial) (fun _ => trivial) rfl

variable {rq}

/-- A shared page is asked for once more than in the old driver. -/
theorem step_asks {op : QueueOp} (plain : rq.dev.iommuMapped = false ∨ op.cyclic = true)
    (mem : QueueMem) (o : OldQueueMem) :
    asks (step rq op mem) = asks (oldStep rq op o) + if op.sharesPage then 1 else 0 := by
  cases shared : op.sharesPage with
  | false =>
    have alike := (step_alike plain shared (same_old mem)).path refuse
    simp only [Bool.false_eq_true, ↓reduceIte, Nat.add_zero]
    rw [old_step_asks rq op o mem.old]
    exact congrArg (List.countP slotAsks) alike
  | true =>
    cases op with
    | getRxFrag slot offset =>
      have later : offset ≠ 0 := by simpa [QueueOp.sharesPage] using shared
      have new : asks (step rq (.getRxFrag slot offset) mem) = 1 := by
        simp only [step, mlx5eGetRxFrag, later, ↓reduceIte, Tree.bind_eq]
        apply Eq.trans
        · exact asks_bind_quiet fun _ => trivial
        · exact new_page_asks rq _
      have old : asks (oldStep rq (.getRxFrag slot offset) o) = 0 := by
        simp only [oldStep, OldRxDriver.mlx5eGetRxFrag, later, ↓reduceIte, Tree.bind_eq]
        rfl
      rw [new, old]
      rfl
    | _ => cases shared

theorem run_asks {ops : List QueueOp}
    (plain : rq.dev.iommuMapped = false ∨ ∀ op ∈ ops, op.cyclic = true) (mem : QueueMem)
    (o : OldQueueMem) :
    asks (run rq ops mem) = asks (oldRun rq ops o) + ops.countP QueueOp.sharesPage := by
  induction ops generalizing mem o with
  | nil => rfl
  | cons op rest ih =>
    have here := step_asks (plain.imp_right fun all => all op List.mem_cons_self) mem o
    have later := ih (plain.imp_right fun all op member => all op (List.mem_cons_of_mem _ member))
      ((step rq op mem).path refuse).2.2 ((oldStep rq op o).path refuse).2.2
    have new : asks (run rq (op :: rest) mem) =
        asks (step rq op mem) + asks (run rq rest ((step rq op mem).path refuse).2.2) := by
      rw [run, Tree.bind_eq, asks_bind, Nat.add_left_cancel_iff]
      exact asks_bind_quiet fun _ => trivial
    have old : asks (oldRun rq (op :: rest) o) =
        asks (oldStep rq op o) + asks (oldRun rq rest ((oldStep rq op o).path refuse).2.2) := by
      rw [oldRun, Tree.bind_eq, asks_bind, Nat.add_left_cancel_iff]
      exact asks_bind_quiet fun _ => trivial
    rw [new, old, here, later, List.countP_cons]
    omega

end

/-- The old and the new driver make the same calls and return the same results, whatever is
    answered, exactly when no fragment is to share the page of another one. -/
theorem driver_invisible_iff (rq : Rq) (ops : List QueueOp) (mem : QueueMem)
    (plain : rq.dev.iommuMapped = false ∨ ∀ op ∈ ops, op.cyclic = true) :
    run rq ops mem = oldRun rq ops mem.old ↔ ∀ op ∈ ops, op.sharesPage = false := by
  constructor
  · intro same op member
    have counted := run_asks plain mem mem.old
    rw [same] at counted
    have none : ops.countP QueueOp.sharesPage = 0 := by omega
    exact eq_false_of_ne_true (List.countP_eq_zero.mp none op member)
  · exact fun first => (run_alike plain first (same_old mem)).eq

/- A queue without an IOMMU whose slots were used by a batch before. -/
def plainRq : Rq := ⟨⟨false, false, true, .iommuDma, true, false, false⟩, false, true⟩

def staleInfo : DmaInfo := ⟨0x100000, true, 0x100000, true, 4096 * 64, true, .null⟩

def staleMem : QueueMem :=
  ⟨fun _ => ⟨fun _ => staleInfo, fun _ => true⟩, fun _ => staleInfo, fun _ => staleInfo⟩

theorem stale_slots_invisible :
    run plainRq [.allocRxMpwqe 0, .freeRxMpwqe 0 true, .getRxFrag 0 0, .putRxFrag 0 true true] staleMem =
      oldRun plainRq [.allocRxMpwqe 0, .freeRxMpwqe 0 true, .getRxFrag 0 0, .putRxFrag 0 true true]
        staleMem.old :=
  (driver_invisible_iff plainRq _ staleMem (Or.inl rfl)).mpr (by decide)

/-- Two fragments of one page: the new driver allocates for the second one as well. -/
theorem second_fragment_visible : ¬ ∀ (rq : Rq) (ops : List QueueOp) (mem : QueueMem),
    (rq.dev.iommuMapped = false ∨ ∀ op ∈ ops, op.cyclic = true) →
    run rq ops mem = oldRun rq ops mem.old := by
  intro always
  have plain : plainRq.dev.iommuMapped = false ∨
      ∀ op ∈ [QueueOp.getRxFrag 0 0, .getRxFrag 0 2048], op.cyclic = true := Or.inl rfl
  have counted := run_asks plain staleMem staleMem.old
  rw [always plainRq _ staleMem plain] at counted
  have once : [QueueOp.getRxFrag 0 0, .getRxFrag 0 2048].countP QueueOp.sharesPage = 1 := by decide
  omega

end DriverInvisible
