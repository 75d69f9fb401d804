import FastSafeIO.RxQueue
import FastSafeIO.SingleCalls
import FastSafeIO.SlotFields

/- What a failed mlx5e_alloc_rx_mpwqe leaves behind once the rx page cache is
   drained. The argument only looks at which calls can be made at all. -/
namespace FailedAllocation
open CallTree KernelCalls DmaLayer RxDriver IommuWorld SlotFields AgentPool RxQueue SingleCalls

/-- The allocation, then the draining loop of mlx5e_free_rq. -/
def allocThenDrain (rq : Rq) (wi : MpwInfo) : Rx Int := do
  let (err, _, _) ← mlx5eAllocRxMpwqe rq wi
  mlx5eFreeRq
  pure err

/-- The page table and the allocated ranges are as before, and the batch range was
    given back by exactly one call. -/
structure Restored (base : Nat) (w : World) (trace : List KernelEvent) (last : World) : Prop where
  pages : last.pt = w.pt
  ranges : ∀ e, e ∈ last.live ↔ e ∈ w.live
  once : (freed trace).count ⟨base, batchSize⟩ = 1

/-- The queue got a batch range and the allocation failed nevertheless. -/
structure Fails (rq : Rq) (wi : MpwInfo) (base : Nat) (w : World) (trace : List KernelEvent)
    (err : Int) (last : World) : Prop where
  mapped : rq.dev.iommuMapped = true
  ran : Exec (exec 0) (onDevice rq.dev (allocThenDrain rq wi)) w trace err last
  failed : err ≠ 0
  handed : ⟨.iommu (.iommuDmaAllocIova batchSize), base⟩ ∈ trace
  based : base ≠ 0

/-- The unwinding never comes to slot 63, the only one that could give the batch back. -/
theorem err_unmap_single (rq : Rq) {count : Nat} {dmaInfo : Nat → DmaInfo} (below : count ≤ 63)
    (last : FreesLast dmaInfo) : (errUnmap rq count dmaInfo).Calls Single := by
  induction count generalizing dmaInfo with
  | zero => trivial
  | succ i ih =>
    have kept : (dmaInfo i).freeIova = false := last i (by omega)
    unfold errUnmap
    apply Tree.Calls.bind
    · apply release_single
      intro _
      split <;> exact kept
    · intro _
      apply ih (by omega)
      intro j low
      rw [free_update _ (by split <;> rfl)]
      exact last j low

theorem drain_single (pages : List Page) : (drainPages pages).Calls Single := by
  induction pages with
  | nil => trivial
  | cons page rest ih =>
    unfold drainPages
    exact (release_dynamic_single page false (fun impossible => absurd rfl impossible)).bind
      fun _ => ih

theorem alloc_batch_single (rq : Rq) {wi : MpwInfo} (iovaBase : Nat) (last : FreesLast wi.dmaInfo) :
    (allocBatch rq wi iovaBase).Calls Single := by
  unfold allocBatch
  apply Tree.Calls.bind_returning (alloc_loop_single rq iovaBase _ 0 wi.dmaInfo _)
    (alloc_loop_fields rq iovaBase _ 0 wi.dmaInfo _)
  intro run fields
  simp only [Tree.bind_eq]
  split
  · rename_i failed
    have cut := fields.cut failed
    unfold MLX5_MPWRQ_PAGES_PER_WQE at cut
    apply Tree.Calls.bind
    · apply err_unmap_single rq (by omega)
      intro i below
      exact fields.free i (last i below)
    · exact fun _ => trivial
  · trivial

theorem alloc_then_drain_single (rq : Rq) {wi : MpwInfo} (last : FreesLast wi.dmaInfo) :
    (allocThenDrain rq wi).Calls Single := by
  have alloc : (mlx5eAllocRxMpwqe rq wi).Calls Single :=
    alloc_wqe_calls_of_batch rq (fun _ => trivial) (batch_base_calls rq fun _ _ => trivial)
      fun iovaBase => alloc_batch_single rq iovaBase last
  exact alloc.bind fun _ => ⟨trivial, fun pages => (drain_single pages).bind fun _ => trivial⟩

/- The slots of a queue that has run for a while. -/
def SlotsFreeLast (mem : RxMem) : Prop := ∀ ix, FreesLast (mem.wqe ix).dmaInfo

theorem body_frees_last (rq : Rq) (job : RxJob) {mem : RxMem} (last : SlotsFreeLast mem) :
    (body rq job mem).Returns SlotsFreeLast := by
  have set : ∀ (ix : Nat) (wi : MpwInfo) (posted : Bool), FreesLast wi.dmaInfo →
      SlotsFreeLast (mem.setWqe ix wi posted) := by
    intro ix wi posted here j
    by_cases same : j = ix
    · subst same
      simpa [RxMem.setWqe] using here
    · simpa [RxMem.setWqe, Function.update_of_ne same] using last j
  have mark : ∀ ix i, SlotsFreeLast (mem.markXdp ix i) := by
    intro ix i j
    by_cases same : j = ix
    · subst same
      simpa [RxMem.markXdp, MpwInfo.setBit] using last j
    · simpa [RxMem.markXdp, Function.update_of_ne same] using last j
  cases job with
  | allocRxMpwqe ix =>
    exact (alloc_wqe_frees_last rq (last ix)).interp.bind fun out here =>
      set ix out.2.1 (out.1 == 0) here
  | freeRxMpwqe ix recycle =>
    exact (free_wqe_frees_last rq recycle (last ix)).interp.bind fun wi here => set ix wi _ here
  | xdpRedirect ix i =>
    simp only [body]
    split
    · exact Tree.Returns.bind (Tree.returns_anything _) fun _ _ => mark ix i
    · exact last
  | xdpTx ix i =>
    simp only [body]
    split
    · exact mark ix i
    · exact last
  | xdpTxComplete recycle =>
    simp only [body]
    split
    · exact last
    · exact Tree.Returns.bind (Tree.returns_anything _) fun _ _ => last
  | freeRq => exact Tree.Returns.bind (Tree.returns_anything _) fun _ _ => last
  | buildShampoHdUmr klmEntries index lastBuffer lastAddr =>
    exact Tree.Returns.bind (Tree.returns_anything _) fun _ _ => last
  | shampoDeallocHd indices => exact Tree.Returns.bind (Tree.returns_anything _) fun _ _ => last
  | freeRxShampoHdEntry headerIndex =>
    exact Tree.Returns.bind (Tree.returns_anything _) fun _ _ => last

theorem reachable_slots_free_last {rq : Rq} {kinds : RxJob → Prop} {L : RxLimits} {fq : Bool}
    {c : RxConfig} {mem : RxMem} (run : Reaches (rxPool rq kinds) L (startConfig fq) c)
    (idle : c.phase () = .idle mem) : SlotsFreeLast mem := by
  have fine := run_keeps_memories (P := rxPool rq kinds) SlotsFreeLast
    (fun _ job mem _ last => body_frees_last rq job last) (c := startConfig fq)
    (fun _ _ _ _ => rfl) run ()
  rwa [idle] at fine

/-- The batch range stays with the queue whatever failed and wherever the pages of the
    unwinding went: no reachable state is restored. -/
theorem failed_allocation_not_restored {rq : Rq} {kinds : RxJob → Prop} {L : RxLimits} {fq : Bool}
    {c : RxConfig} {mem : RxMem} {ix base : Nat} {trace : List KernelEvent} {err : Int}
    {last : World} (run : Reaches (rxPool rq kinds) L (startConfig fq) c)
    (idle : c.phase () = .idle mem) (fails : Fails rq (mem.wqe ix) base c.world trace err last) :
    ¬ Restored base c.world trace last := by
  intro restored
  have single := alloc_then_drain_single rq (reachable_slots_free_last run idle ix)
  have batch : ⟨base, batchSize⟩ ∈ freed trace := by
    apply List.count_pos_iff.mp
    rw [restored.once]
    exact Nat.one_pos
  exact single_freed single fails.ran _ batch rfl

/- Page 0 is mapped at the base, page 1 cannot be had and the rx cache refuses page 0. -/
theorem short_allocation_fails : ∃ trace err last,
    Fails regularRq (RxMem.initial.wqe 0) 0x100000 (startWorld false) trace err last ∧
    last.pt 256 = some 7 := by
  have out : ∃ trace last, runBy (exec 0) shortOfPages.answer
      (onDevice regularRq.dev (allocThenDrain regularRq (RxMem.initial.wqe 0))) (startWorld false) =
        some (trace, -12, last) ∧
      ⟨.iommu (.iommuDmaAllocIova batchSize), (0x100000 : Nat)⟩ ∈ trace ∧ last.pt 256 = some 7 :=
    ⟨_, _, rfl, .head _, rfl⟩
  obtain ⟨trace, last, out, handed, present⟩ := out
  exact ⟨trace, -12, last, ⟨rfl, runBy_exec out, by decide, handed, by decide⟩, present⟩

theorem short_allocation_not_restored : ∃ trace err last,
    Fails regularRq (RxMem.initial.wqe 0) 0x100000 (startWorld false) trace err last ∧
    ¬ Restored 0x100000 (startWorld false) trace last := by
  obtain ⟨trace, err, last, fails, _⟩ := short_allocation_fails
  have start : Reaches (rxPool regularRq fun _ => True) .unlimited (startConfig false)
      (startConfig false) := .refl
  exact ⟨trace, err, last, fails, failed_allocation_not_restored start rfl fails⟩

/-- A failed allocation does not always put the domain back. -/
theorem unwinding_keeps_page_mapped : ¬ ∀ (rq : Rq) (c : RxConfig) (mem : RxMem) (ix base : Nat)
    (trace : List KernelEvent) (err : Int) (last : World), DmaApi rq.dev →
    Reaches (rxPool rq fun _ => True) .unlimited (startConfig false) c → c.phase () = .idle mem →
    Fails rq (mem.wqe ix) base c.world trace err last → Restored base c.world trace last := by
  intro always
  obtain ⟨trace, err, last, fails, present⟩ := short_allocation_fails
  have restored := always regularRq (startConfig false) .initial 0 0x100000 trace err last
    regular_rq_api .refl rfl fails
  have pages := congrFun restored.pages 256
  rw [present] at pages
  cases pages

end FailedAllocation
