import FastSafeIO.AtomicRuns
import FastSafeIO.CallCosts

/- How much a queue of the patched driver asks of the IOMMU, whatever the kernel answers and
   whoever else is at work. -/
namespace BatchEconomy
open CallTree KernelCalls DmaLayer DmaCalls RxDriver IommuWorld AgentPool RxQueue SlotFields SharedDomain
  CallCredits CallCosts

section
variable {w : Weights} {rq : Rq} {α : Type}

/- The driver's programs at the prices of the DMA layer. -/
abbrev Charged (w : Weights) (rq : Rq) (post : α → Prop) (t : Rx α) (credit : Int) : Prop :=
  Affords (w.price rq.dev) post t credit

/- What unmapping a page can come to. -/
def dmaUnmapPrice (w : Weights) (rq : Rq) (iovaSize : Nat) (freeIova : Bool) : Int :=
  if iovaSize ≠ 0 ∧ freeIova = false then 0 else onRoute rq.dev w.unmapPrice

/- What its release can come to; a page that goes to the cache pays for itself when the cache
   refuses it. -/
def releasePrice (w : Weights) (rq : Rq) (recycle : Bool) (iovaSize : Nat) (freeIova : Bool) : Int :=
  if recycle then 0 else dmaUnmapPrice w rq iovaSize freeIova

variable (w rq) in
theorem dma_unmap_price_nonneg (iovaSize : Nat) (freeIova : Bool) :
    0 ≤ dmaUnmapPrice w rq iovaSize freeIova := by
  have solvent := on_route_nonneg rq.dev (unmap_price_nonneg w)
  unfold dmaUnmapPrice
  split <;> omega

theorem dma_unmap_price_le (iovaSize : Nat) (freeIova : Bool) :
    dmaUnmapPrice w rq iovaSize freeIova ≤ w.unmapPrice := by
  have solvent := unmap_price_nonneg w
  have price := on_route_le rq.dev solvent
  unfold dmaUnmapPrice
  split <;> omega

variable (w rq) in
theorem release_price_nonneg (recycle : Bool) (iovaSize : Nat) (freeIova : Bool) :
    0 ≤ releasePrice w rq recycle iovaSize freeIova := by
  have solvent := dma_unmap_price_nonneg w rq iovaSize freeIova
  unfold releasePrice
  split <;> omega

/- What the mapping of a slot can come to. -/
def slotPrice (w : Weights) (rq : Rq) (dmaInfo : DmaInfo) : Int :=
  onRoute rq.dev (if dmaInfo.batchIova then w.mapPrice dmaInfo.iova dmaInfo.firstIova else w.allocPrice)

variable (w rq) in
theorem slot_price_nonneg (dmaInfo : DmaInfo) : 0 ≤ slotPrice w rq dmaInfo := by
  apply on_route_nonneg rq.dev
  split
  · exact map_price_nonneg w _ _
  · exact alloc_price_nonneg w

theorem page_call_charged {op : PageOp} {post : α → Prop} {rest : op.Ans → Rx α} {credit : Int}
    (nothing : ∀ r, w.price rq.dev (.page op) r = 0) (solvent : 0 ≤ credit)
    (each : ∀ r, Charged w rq post (rest r) credit) :
    Charged w rq post ((pageCall op).bind rest) credit := by
  refine ⟨solvent, fun r => ?_⟩
  rw [nothing, Int.sub_zero]
  exact each r

theorem dma_call_charged {op : DmaOp} {credit : Int}
    (solvent : 0 ≤ credit) (enough : ∀ r, w.price rq.dev (.dma op) r ≤ credit) :
    Charged w rq (fun _ => True) (dmaCall op) credit := by
  refine ⟨solvent, fun r => ⟨?_, trivial⟩⟩
  have now := enough r
  omega

theorem page_dma_unmap_charged (page : Page) (iovaSize : Nat) (freeIova : Bool) :
    Charged w rq (fun _ => True) (mlx5ePageDmaUnmap page iovaSize freeIova)
      (dmaUnmapPrice w rq iovaSize freeIova) := by
  have solvent := dma_unmap_price_nonneg w rq iovaSize freeIova
  have last : ∀ credit, 0 ≤ credit →
      Charged w rq (fun _ => True) (pageCall (.pagePoolSetDmaAddr page 0)) credit :=
    fun credit rest => ⟨rest, fun _ => ⟨by simpa [Weights.price] using rest, trivial⟩⟩
  have unmapped : ∀ op : DmaOp, (∀ r, w.price rq.dev (.dma op) r ≤ dmaUnmapPrice w rq iovaSize freeIova) →
      Charged w rq (fun _ => True) ((dmaCall op).bind fun _ => pageCall (.pagePoolSetDmaAddr page 0))
        (dmaUnmapPrice w rq iovaSize freeIova) := by
    intro op enough
    rw [← Int.add_zero (dmaUnmapPrice w rq iovaSize freeIova)]
    exact affords_bind (dma_call_charged solvent enough) (fun _ _ => last 0 (Int.le_refl 0)) (Int.le_refl 0)
  simp only [mlx5ePageDmaUnmap, Tree.bind_eq]
  refine page_call_charged (fun _ => rfl) solvent fun addr => ?_
  split
  · split
    · rename_i frees
      refine unmapped _ fun _ => ?_
      simp only [Weights.price, dmaUnmapPrice, frees, Bool.true_eq_false, and_false, ↓reduceIte]
      exact Int.le_refl _
    · exact last _ solvent
  · rename_i no_size
    refine unmapped _ fun _ => ?_
    simp only [Weights.price, dmaUnmapPrice, no_size, false_and, ↓reduceIte]
    exact Int.le_refl _

theorem release_dynamic_charged (page : Page) (recycle : Bool) (iovaSize : Nat) (freeIova : Bool) :
    Charged w rq (fun _ => True) (mlx5ePageReleaseDynamic page recycle iovaSize freeIova)
      (releasePrice w rq recycle iovaSize freeIova) := by
  have solvent := dma_unmap_price_nonneg w rq iovaSize freeIova
  have unmapped : ∀ next : Rx Unit, Charged w rq (fun _ => True) next 0 →
      Charged w rq (fun _ => True) ((mlx5ePageDmaUnmap page iovaSize freeIova).bind fun _ => next)
        (dmaUnmapPrice w rq iovaSize freeIova) := by
    intro next paid
    rw [← Int.add_zero (dmaUnmapPrice w rq iovaSize freeIova)]
    exact affords_bind (page_dma_unmap_charged page iovaSize freeIova) (fun _ _ => paid) (Int.le_refl 0)
  have closing : ∀ op : PageOp, (∀ r, w.price rq.dev (.page op) r = 0) →
      Charged w rq (fun _ => True) (pageCall op) 0 := by
    intro op nothing
    exact ⟨Int.le_refl 0, fun r => ⟨by rw [nothing]; exact Int.le_refl 0, trivial⟩⟩
  cases recycle with
  | false =>
    simp only [mlx5ePageReleaseDynamic, Bool.false_eq_true, ↓reduceIte, Tree.bind_eq, releasePrice]
    refine unmapped _ (page_call_charged (fun _ => rfl) (Int.le_refl 0) fun _ => ?_)
    exact closing (.putPage page) fun _ => rfl
  | true =>
    simp only [mlx5ePageReleaseDynamic, ↓reduceIte, Tree.bind_eq, Tree.pure_eq, releasePrice]
    refine ⟨Int.le_refl 0, fun taken => ?_⟩
    cases taken with
    | true => exact ⟨Int.le_refl 0, trivial⟩
    | false =>
      have price : dmaUnmapPrice w rq iovaSize freeIova ≤ w.unmapPrice := dma_unmap_price_le iovaSize freeIova
      have pays := w.refused_pays
      have enough : dmaUnmapPrice w rq iovaSize freeIova ≤ 0 - w.refused := by
        unfold Weights.unmapPrice at price
        omega
      exact affords_more (unmapped _ (closing (.pagePoolRecycleDirect page) fun _ => rfl)) enough

theorem release_charged (di : DmaInfo) (recycle : Bool) :
    Charged w rq (fun _ => True) (mlx5ePageRelease rq di recycle)
      (releasePrice w rq recycle di.iovaSize di.freeIova) := by
  have solvent := release_price_nonneg w rq recycle di.iovaSize di.freeIova
  unfold mlx5ePageRelease
  split
  · split
    · exact ⟨solvent, fun _ => ⟨by simpa [Weights.price] using solvent, trivial⟩⟩
    · exact ⟨solvent, trivial⟩
  · split
    · exact release_dynamic_charged _ recycle _ _
    · exact ⟨solvent, trivial⟩

variable (w rq) in
theorem page_alloc_charged (dmaInfo : DmaInfo) :
    Charged w rq (fun _ => True) (mlx5ePageAlloc rq dmaInfo) (slotPrice w rq dmaInfo) := by
  have solvent := slot_price_nonneg w rq dmaInfo
  unfold mlx5ePageAlloc
  split
  · simp only [mlx5eXskPageAllocPool, Tree.bind_eq]
    refine page_call_charged (fun _ => rfl) solvent fun got => ?_
    cases got <;> exact ⟨solvent, trivial⟩
  · simp only [mlx5ePageAllocPool, Tree.bind_eq, Tree.pure_eq]
    refine page_call_charged (fun _ => rfl) solvent fun got => ?_
    cases got with
    | some got => exact ⟨solvent, trivial⟩
    | none =>
      refine page_call_charged (fun _ => rfl) solvent fun page => ?_
      cases page with
      | none => exact ⟨solvent, trivial⟩
      | some page =>
        have mapped : Charged w rq (fun _ => True) (mapSlotPage dmaInfo page) (slotPrice w rq dmaInfo) := by
          unfold mapSlotPage
          split
          · rename_i batched
            refine dma_call_charged solvent fun _ => ?_
            simp only [Weights.price, slotPrice, batched, ↓reduceIte]
            exact Int.le_refl _
          · rename_i single
            refine dma_call_charged solvent fun _ => ?_
            simp only [Weights.price, slotPrice, single, Bool.false_eq_true, ↓reduceIte]
            exact Int.le_refl _
        dsimp only
        rw [← Int.add_zero (slotPrice w rq dmaInfo)]
        refine affords_bind mapped (fun addr _ => ?_) (Int.le_refl 0)
        split <;>
          exact ⟨Int.le_refl 0, fun _ => ⟨Int.le_refl 0, trivial⟩⟩

/- A device whose mappings bypass dma-iommu is charged nothing for them. -/
theorem unmapped_route (wf : rq.dev.Wf) (plain : rq.dev.iommuMapped = false) (price : Int) :
    onRoute rq.dev price = 0 := by
  refine if_neg fun route => ?_
  obtain ⟨direct, ops⟩ := of_iommu_route route
  rw [(wf.cookie direct ops).1] at plain
  cases plain

theorem later_slot_free (wf : rq.dev.Wf) {iovaBase i : Nat} (later : 0 < i) (dmaInfo : DmaInfo) :
    slotPrice w rq (prepareSlot rq.dev.iommuMapped iovaBase i dmaInfo) = 0 := by
  by_cases fands : rq.dev.iommuMapped = true
  · rw [fands]
    obtain ⟨batched, iova, first, _⟩ := prepare_slot_batched iovaBase i dmaInfo
    have second : (i == 0) = false := by simp; omega
    rw [second] at first
    have some_iova : iovaBase + i * 4096 ≠ 0 := by omega
    simp only [slotPrice, batched, iova, first, ↓reduceIte, Weights.mapPrice, some_iova, Bool.false_eq_true]
    unfold onRoute
    split <;> rfl
  · exact unmapped_route wf (eq_false_of_ne_true fands) _

theorem later_slots_charged (wf : rq.dev.Wf) (iovaBase left i : Nat) (later : 0 < i)
    (dmaInfo : Nat → DmaInfo) (mtts : Nat → Nat) :
    Charged w rq (fun _ => True) (allocLoop rq iovaBase left i dmaInfo mtts) 0 := by
  induction left generalizing i dmaInfo mtts with
  | zero => exact ⟨Int.le_refl 0, trivial⟩
  | succ left ih =>
    simp only [allocLoop, Tree.bind_eq, Tree.pure_eq]
    have slot := page_alloc_charged w rq
      (prepareSlot rq.dev.iommuMapped iovaBase i (dmaInfo i))
    rw [later_slot_free wf later] at slot
    rw [← Int.add_zero 0]
    refine affords_bind slot (fun out _ => ?_) (Int.le_refl 0)
    split
    · exact ⟨Int.le_refl 0, trivial⟩
    · exact ih (i + 1) (by omega) _ _

/- The first slot is synced for the batch; it needs a range of its own when there is none. -/
def firstPrice (w : Weights) (iovaBase : Nat) : Int :=
  (if iovaBase = 0 then w.allocPrice else 0) + w.syncMapPrice

theorem first_price_nonneg (iovaBase : Nat) : 0 ≤ firstPrice w iovaBase := by
  have alloc := alloc_price_nonneg w
  have sync := sync_map_price_nonneg w
  unfold firstPrice
  split <;> omega

theorem alloc_loop_charged (wf : rq.dev.Wf) (iovaBase left : Nat) (dmaInfo : Nat → DmaInfo)
    (mtts : Nat → Nat) :
    Charged w rq (fun _ => True) (allocLoop rq iovaBase (left + 1) 0 dmaInfo mtts)
      (firstPrice w iovaBase) := by
  have first : slotPrice w rq (prepareSlot rq.dev.iommuMapped iovaBase 0 (dmaInfo 0)) ≤
      firstPrice w iovaBase := by
    by_cases fands : rq.dev.iommuMapped = true
    · rw [fands]
      obtain ⟨batched, iova, first, _⟩ := prepare_slot_batched iovaBase 0 (dmaInfo 0)
      simp only [slotPrice, batched, iova, first, ↓reduceIte, beq_self_eq_true, Nat.zero_mul, Nat.add_zero]
      refine (on_route_le rq.dev (map_price_nonneg w _ _)).trans ?_
      simp only [Weights.mapPrice, firstPrice, ↓reduceIte]
      exact Int.le_refl _
    · rw [slotPrice, unmapped_route wf (eq_false_of_ne_true fands)]
      exact first_price_nonneg iovaBase
  simp only [allocLoop, Tree.bind_eq, Tree.pure_eq]
  rw [← Int.add_zero (firstPrice w iovaBase)]
  refine affords_bind (affords_more (page_alloc_charged w rq _) first) (fun out _ => ?_) (Int.le_refl 0)
  split
  · exact ⟨Int.le_refl 0, trivial⟩
  · exact later_slots_charged wf iovaBase left 1 (by omega) _ _

/- The unwinding hands its pages to the cache. -/
theorem err_unmap_charged (count : Nat) (dmaInfo : Nat → DmaInfo) :
    Charged w rq (fun _ => True) (errUnmap rq count dmaInfo) 0 := by
  induction count generalizing dmaInfo with
  | zero => exact ⟨Int.le_refl 0, trivial⟩
  | succ i ih =>
    simp only [errUnmap, Tree.bind_eq]
    rw [← Int.add_zero 0]
    exact affords_bind (release_charged _ true) (fun _ _ => ih _) (Int.le_refl 0)

theorem alloc_batch_charged (wf : rq.dev.Wf) (wi : MpwInfo) (iovaBase : Nat) :
    Charged w rq (fun _ => True) (allocBatch rq wi iovaBase) (firstPrice w iovaBase) := by
  simp only [allocBatch, Tree.bind_eq, Tree.pure_eq]
  rw [← Int.add_zero (firstPrice w iovaBase)]
  refine affords_bind (alloc_loop_charged wf iovaBase 63 wi.dmaInfo fun _ => 0) (fun run _ => ?_)
    (Int.le_refl 0)
  split
  · rw [← Int.add_zero 0]
    exact affords_bind (err_unmap_charged _ _) (fun _ _ => ⟨Int.le_refl 0, trivial⟩) (Int.le_refl 0)
  · exact ⟨Int.le_refl 0, trivial⟩

theorem alloc_wqe_charged (wf : rq.dev.Wf) (wi : MpwInfo) :
    Charged w rq (fun _ => True) (mlx5eAllocRxMpwqe rq wi) (w.allocPrice + w.syncMapPrice) := by
  have alloc := alloc_price_nonneg w
  have sync := sync_map_price_nonneg w
  have price : w.allocPrice = max 0 w.alloc := rfl
  have batch : Charged w rq (fun _ => True) ((batchBase rq).bind (allocBatch rq wi))
      (w.allocPrice + w.syncMapPrice) := by
    have based : ∀ iovaBase, firstPrice w iovaBase ≤ w.allocPrice + w.syncMapPrice := by
      intro iovaBase
      unfold firstPrice
      split <;> omega
    unfold batchBase
    split
    · refine ⟨by omega, fun iovaBase => affords_more (alloc_batch_charged wf wi iovaBase) ?_⟩
      simp only [Weights.price, firstPrice]
      split <;> omega
    · exact affords_more (alloc_batch_charged wf wi 0) (based 0)
  simp only [mlx5eAllocRxMpwqe, Tree.bind_eq]
  split
  · refine page_call_charged (fun _ => rfl) (by omega) fun enough => ?_
    cases enough with
    | true => exact batch
    | false => exact ⟨by omega, trivial⟩
  · exact batch

theorem free_loop_charged (wf : rq.dev.Wf) (noXdpXmit : Bool) (bitmap : Nat → Bool) (recycle : Bool)
    (left i : Nat) (dmaInfo : Nat → DmaInfo) (all : i + left = 64) :
    Charged w rq (fun _ => True) (freeLoop rq noXdpXmit bitmap recycle left i dmaInfo)
      (if left = 0 then 0 else w.unmapPrice) := by
  have solvent := unmap_price_nonneg w
  induction left generalizing i dmaInfo with
  | zero => exact ⟨Int.le_refl 0, trivial⟩
  | succ left ih =>
    have later := fun dmaInfo => ih (i + 1) dmaInfo (by omega)
    have rest : (if left = 0 then 0 else w.unmapPrice) ≤ w.unmapPrice := by
      split <;> omega
    have still : 0 ≤ if left = 0 then 0 else w.unmapPrice := by
      split <;> omega
    rw [if_neg (Nat.succ_ne_zero left)]
    unfold freeLoop
    split
    · have released : ∀ (di : DmaInfo) (again : Bool),
          releasePrice w rq again di.iovaSize di.freeIova + (if left = 0 then 0 else w.unmapPrice) ≤
            w.unmapPrice →
          Charged w rq (fun _ => True) ((mlx5ePageRelease rq di again).bind fun _ =>
            freeLoop rq noXdpXmit bitmap recycle left (i + 1) (Function.update dmaInfo i di))
            w.unmapPrice := by
        intro di again enough
        exact affords_more (affords_bind (release_charged di again) (fun _ _ => later _) still) enough
      split
      · simp only [Tree.bind_eq]
        refine released _ false ?_
        by_cases inner : left = 0
        · have price := on_route_le rq.dev solvent
          simp only [inner, ↓reduceIte, releasePrice, Bool.false_eq_true, dmaUnmapPrice, Int.add_zero]
          split <;> omega
        · have kept : (i == MLX5_MPWRQ_PAGES_PER_WQE - 1) = false := inner_slot (by omega)
          have free : releasePrice w rq false (4096 * 64) (i == MLX5_MPWRQ_PAGES_PER_WQE - 1) = 0 := by
            rw [releasePrice, if_neg Bool.false_ne_true]
            exact if_pos ⟨by decide, kept⟩
          rw [free, if_neg inner]
          omega
      · rename_i plain
        simp only [Tree.bind_eq]
        refine released _ recycle ?_
        have route : onRoute rq.dev w.unmapPrice = 0 := unmapped_route wf (by simpa using plain) _
        have none : releasePrice w rq recycle 0 (dmaInfo i).freeIova = 0 := by
          simp only [releasePrice, dmaUnmapPrice, route, ite_self]
        rw [none]
        omega
    · exact affords_more (later dmaInfo) rest

theorem free_wqe_charged (wf : rq.dev.Wf) (wi : MpwInfo) (recycle : Bool) :
    Charged w rq (fun _ => True) (mlx5eFreeRxMpwqe rq wi recycle) w.unmapPrice := by
  have loop := free_loop_charged (w := w) wf (bitmapEmpty wi.xdpXmitBitmap) wi.xdpXmitBitmap recycle
    MLX5_MPWRQ_PAGES_PER_WQE 0 wi.dmaInfo rfl
  rw [if_neg (by decide)] at loop
  simp only [mlx5eFreeRxMpwqe, Tree.bind_eq, Tree.pure_eq]
  rw [← Int.add_zero w.unmapPrice]
  exact affords_bind loop (fun _ _ => ⟨Int.le_refl 0, trivial⟩) (Int.le_refl 0)

theorem release_price_le (recycle : Bool) (iovaSize : Nat) (freeIova : Bool) :
    releasePrice w rq recycle iovaSize freeIova ≤ if recycle then 0 else w.unmapPrice := by
  have price : dmaUnmapPrice w rq iovaSize freeIova ≤ w.unmapPrice := dma_unmap_price_le iovaSize freeIova
  unfold releasePrice
  split <;> omega

theorem xdp_handle_charged (page : Page) :
    Charged w rq (fun _ => True) (mlx5eXdpHandle rq page) w.unmapPrice := by
  have solvent := unmap_price_nonneg w
  have last : ∀ credit, 0 ≤ credit → Charged w rq (fun _ => True) (pageCall (.xdpHandOver page)) credit :=
    fun credit rest => ⟨rest, fun _ => ⟨by simpa [Weights.price] using rest, trivial⟩⟩
  simp only [mlx5eXdpHandle, Tree.bind_eq]
  split
  · rw [← Int.add_zero w.unmapPrice]
    exact affords_bind (affords_more (page_dma_unmap_charged page 0 true) (dma_unmap_price_le 0 true))
      (fun _ _ => last 0 (Int.le_refl 0)) (Int.le_refl 0)
  · exact last _ solvent

theorem drain_charged (pages : List Page) :
    Charged w rq (fun _ => True) (drainPages pages) (w.unmapPrice * pages.length) := by
  have solvent := unmap_price_nonneg w
  induction pages with
  | nil => exact ⟨by simp, trivial⟩
  | cons page rest ih =>
    have more : 0 ≤ w.unmapPrice * (rest.length : Int) := Int.mul_nonneg solvent (by omega)
    simp only [drainPages, Tree.bind_eq, List.length_cons]
    rw [show w.unmapPrice * ((rest.length + 1 : Nat) : Int) = w.unmapPrice + w.unmapPrice * rest.length by
      push_cast; ring]
    exact affords_bind (affords_more (release_dynamic_charged page false 0 true) (release_price_le false 0 true))
      (fun _ _ => ih) more

/- The pages of the cache pay for themselves. -/
theorem free_rq_charged : Charged w rq (fun _ => True) mlx5eFreeRq 0 := by
  simp only [mlx5eFreeRq, Tree.bind_eq]
  refine ⟨Int.le_refl 0, fun cached => affords_more (drain_charged cached) ?_⟩
  have pays := w.drained_pays
  have price : w.unmapPrice = max 0 (w.unmap + max 0 w.sync + max 0 w.free) := rfl
  have covered : (w.unmapPrice + w.drained) * (cached.length : Int) ≤ 0 :=
    Int.mul_nonpos_of_nonpos_of_nonneg (by omega) (by omega)
  simp only [Weights.price]
  rw [Int.add_mul] at covered
  omega

end

/- What a job of the domain can come to. -/
def jobPrice (w : Weights) : DomainJob → Int
  | .queue (.allocRxMpwqe _) => w.allocPrice + w.syncMapPrice
  | .queue (.freeRxMpwqe _ _) => w.unmapPrice
  | .queue (.xdpRedirect _ _) => w.unmapPrice
  | .queue (.xdpTxComplete recycle) => if recycle then 0 else w.unmapPrice
  | .queue _ => 0
  | .dmaMapPageAttrs _ _ _ _ => w.allocPrice
  | .dmaUnmapPageAttrs _ => w.unmapPrice

def PartyOk : Party → Prop
  | .queue rq _ => rq.dev.Wf
  | .client _ _ => True

section
variable {w : Weights} {rq : Rq} {mem : RxMem}

theorem on_device_affords {α : Type} {post : α → Prop} {t : Rx α} {credit : Int}
    (charged : Charged w rq post t credit) : Affords w.cost post (onDevice rq.dev t) credit :=
  affords_interp charged (dma_impl_pays w rq.dev)

theorem returned_affords {α β : Type} {t : Rx α} {credit : Int}
    (charged : Charged w rq (fun _ => True) t credit)
    (next : α → β) :
    Affords w.cost (fun _ => True) ((onDevice rq.dev t).bind fun a => .done (next a)) credit := by
  rw [← Int.add_zero credit]
  exact affords_bind (on_device_affords charged) (fun _ _ => ⟨Int.le_refl 0, trivial⟩) (Int.le_refl 0)

theorem body_affords (wf : rq.dev.Wf) (job : RxJob) (pooled : poolJobs job) :
    Affords w.cost (fun _ => True) (RxQueue.body rq job mem) (jobPrice w (.queue job)) := by
  have solvent := unmap_price_nonneg w
  cases job with
  | allocRxMpwqe ix => exact returned_affords (alloc_wqe_charged wf (mem.wqe ix)) _
  | freeRxMpwqe ix recycle => exact returned_affords (free_wqe_charged wf (mem.wqe ix) recycle) _
  | xdpRedirect ix i =>
    simp only [RxQueue.body]
    split
    · exact returned_affords (xdp_handle_charged _) _
    · exact ⟨solvent, trivial⟩
  | xdpTx ix i =>
    simp only [RxQueue.body]
    split <;> exact ⟨Int.le_refl 0, trivial⟩
  | xdpTxComplete recycle =>
    simp only [RxQueue.body]
    split
    · have still : 0 ≤ if recycle then 0 else w.unmapPrice := by
        split <;> omega
      exact ⟨still, trivial⟩
    · exact returned_affords
        (affords_more (release_dynamic_charged _ recycle 0 true) (release_price_le recycle 0 true)) _
  | freeRq => exact returned_affords free_rq_charged _
  | buildShampoHdUmr => exact absurd pooled id
  | shampoDeallocHd => exact absurd pooled id
  | freeRxShampoHdEntry => exact absurd pooled id

theorem domain_job_affords (u : Nat) (job : DomainJob) (party : Party)
    (ready : domainPool.ready u job party) (fine : PartyOk party) :
    Affords w.cost PartyOk (domainPool.body job party) (jobPrice w job) := by
  have alloc := alloc_price_nonneg w
  have unmap := unmap_price_nonneg w
  cases party with
  | queue rq mem =>
    cases job with
    | dmaMapPageAttrs => exact absurd ready id
    | dmaUnmapPageAttrs => exact absurd ready id
    | queue job =>
      simp only [domainPool, domainBody, Tree.bind_eq, Tree.pure_eq]
      rw [← Int.add_zero (jobPrice w (.queue job))]
      exact affords_bind (body_affords fine job ready.1) (fun _ _ => ⟨Int.le_refl 0, fine⟩) (Int.le_refl 0)
  | client dev mapped =>
    cases job with
    | queue job => exact absurd ready id
    | dmaMapPageAttrs h page offset size =>
      have paid := map_attrs_affords w dev page 0 false offset size
      rw [map_price_plain] at paid
      simp only [domainPool, domainBody, Tree.bind_eq, Tree.pure_eq, jobPrice]
      rw [← Int.add_zero w.allocPrice]
      refine affords_bind (affords_more paid (on_route_le dev alloc)) (fun addr _ => ?_) (Int.le_refl 0)
      split <;> exact ⟨Int.le_refl 0, trivial⟩
    | dmaUnmapPageAttrs h =>
      simp only [domainPool, domainBody]
      split
      · exact ⟨unmap, trivial⟩
      · rename_i addr size _
        have paid := unmap_attrs_affords w dev addr size (iovaAlign (size + iovaOffset addr)) true
        rw [← unmap_attrs_plain] at paid
        simp only [Tree.bind_eq, Tree.pure_eq, jobPrice]
        rw [← Int.add_zero w.unmapPrice]
        exact affords_bind (affords_more paid (on_route_le dev unmap))
          (fun _ _ => ⟨Int.le_refl 0, trivial⟩) (Int.le_refl 0)

end

/- What there is to count in a log. -/

def unmaps : KernelEvent → Nat
  | ⟨.iommu (.iommuUnmapFast _ _ _), _⟩ => 1
  | _ => 0

def syncs : KernelEvent → Nat
  | ⟨.iommu (.iommuIotlbSync _), _⟩ => 1
  | _ => 0

def freedRanges : KernelEvent → Nat
  | ⟨.iommu (.iommuDmaFreeIova _ _ _), _⟩ => 1
  | _ => 0

def failedMaps : KernelEvent → Nat
  | ⟨.iommu (.__iommuMap _ _ _), ret⟩ => if ret = 0 then 0 else 1
  | _ => 0

def allocatedRanges : KernelEvent → Nat
  | ⟨.iommu (.iommuDmaAllocIova _), iova⟩ => if iova = 0 then 0 else 1
  | _ => 0

def syncedMaps : KernelEvent → Nat
  | ⟨.iommu (.iotlbSyncMap _ _), _⟩ => 1
  | _ => 0

def drainedPages : KernelEvent → Nat
  | ⟨.page .rxCacheEntries, pages⟩ => pages.length
  | _ => 0

def refusedPages : KernelEvent → Nat
  | ⟨.page (.rxCachePut _), taken⟩ => if taken then 0 else 1
  | _ => 0

/- The jobs that give something back past the page cache, and those that take something. -/

def gives : DomainJob → Bool
  | .queue (.freeRxMpwqe _ _) => true
  | .queue (.xdpRedirect _ _) => true
  | .queue (.xdpTxComplete recycle) => !recycle
  | .dmaUnmapPageAttrs _ => true
  | _ => false

def takes : DomainJob → Bool
  | .queue (.allocRxMpwqe _) => true
  | .dmaMapPageAttrs _ _ _ _ => true
  | _ => false

def posts : DomainJob → Bool
  | .queue (.allocRxMpwqe _) => true
  | _ => false

/-- One unmap, one sync and one freed range for a whole WQE of 64 pages, as for a single page that
    leaves, is drained from the page cache or refused by it; one allocated range and one synced map
    for a whole WQE. -/
structure Economical (jobs : List DomainJob) (log : List KernelEvent) : Prop where
  unmap : total unmaps log ≤ jobs.countP gives + total drainedPages log + total refusedPages log
  sync : total syncs log ≤ total unmaps log
  free : total freedRanges log ≤ total unmaps log + total failedMaps log
  alloc : total allocatedRanges log ≤ jobs.countP takes
  syncMap : total syncedMaps log ≤ jobs.countP posts

theorem cost_counts (w : Weights) (e : KernelEvent) :
    w.cost e.1 e.2 = w.unmap * unmaps e + w.sync * syncs e + w.free * freedRanges e +
      w.failed * failedMaps e + w.alloc * allocatedRanges e + w.syncMap * syncedMaps e +
      w.drained * drainedPages e + w.refused * refusedPages e := by
  obtain ⟨op, r⟩ := e
  cases op with
  | page op =>
    cases op <;>
      simp [Weights.cost, unmaps, syncs, freedRanges, failedMaps, allocatedRanges, syncedMaps,
        drainedPages, refusedPages]
  | iommu op =>
    cases op <;>
      simp [Weights.cost, Weights.iommuCost, unmaps, syncs, freedRanges, failedMaps, allocatedRanges,
        syncedMaps, drainedPages, refusedPages]

theorem spent_counts (w : Weights) (log : List KernelEvent) :
    spent w.cost log = w.unmap * total unmaps log + w.sync * total syncs log +
      w.free * total freedRanges log + w.failed * total failedMaps log +
      w.alloc * total allocatedRanges log + w.syncMap * total syncedMaps log +
      w.drained * total drainedPages log + w.refused * total refusedPages log := by
  induction log with
  | nil => simp [spent, total]
  | cons e log ih =>
    simp only [spent, total, List.map_cons, List.sum_cons, Nat.cast_add] at ih ⊢
    rw [ih, cost_counts]
    ring

theorem price_counts (w : Weights) (jobs : List DomainJob) :
    (jobs.map (jobPrice w)).sum = w.unmapPrice * jobs.countP gives + w.allocPrice * jobs.countP takes +
      w.syncMapPrice * jobs.countP posts := by
  have one : ∀ job, jobPrice w job = w.unmapPrice * (if gives job then 1 else 0) +
      w.allocPrice * (if takes job then 1 else 0) + w.syncMapPrice * (if posts job then 1 else 0) := by
    intro job
    cases job with
    | queue job =>
      cases job with
      | xdpTxComplete recycle => cases recycle <;> simp [jobPrice, gives, takes, posts]
      | _ => simp [jobPrice, gives, takes, posts]
    | dmaMapPageAttrs => simp [jobPrice, gives, takes, posts]
    | dmaUnmapPageAttrs => simp [jobPrice, gives, takes, posts]
  induction jobs with
  | nil => simp
  | cons job jobs ih =>
    simp only [List.map_cons, List.sum_cons, List.countP_cons, ih, one]
    push_cast
    ring

def unmapWeights : Weights := ⟨1, 0, 0, 0, 0, 0, -1, -1, by decide, by decide, by decide⟩

def syncWeights : Weights := ⟨-1, 1, 0, 0, 0, 0, 0, 0, by decide, by decide, by decide⟩

def freeWeights : Weights := ⟨-1, 0, 1, 0, -1, 0, 0, 0, by decide, by decide, by decide⟩

def allocWeights : Weights := ⟨0, 0, 0, 1, 0, 0, 0, 0, by decide, by decide, by decide⟩

def syncMapWeights : Weights := ⟨0, 0, 0, 0, 0, 1, 0, 0, by decide, by decide, by decide⟩

/- Queues on any device, with nothing done yet. -/
def FreshParty : Party → Prop
  | .queue rq mem => rq.dev.Wf ∧ mem = .initial
  | .client _ _ => True

/-- In every run, whatever fails and whoever else is at work. -/
theorem domain_is_economical {L : DomainLimits} {party : Nat → Party} {world : World} {d : DomainConfig}
    {jobs : Nat → List DomainJob} {log : Nat → List KernelEvent} (fresh : ∀ u, FreshParty (party u))
    (run : Logged domainPool L ⟨fun u => .idle (party u), world⟩ d jobs log) (u : Nat) :
    Economical (jobs u) (log u) := by
  have fine : ∀ u, PartyOk (party u) := by
    intro u
    have new := fresh u
    cases kind : party u with
    | queue rq mem =>
      rw [kind] at new
      obtain ⟨wf, rfl⟩ := new
      exact wf
    | client dev mapped => trivial
  have within : ∀ w : Weights, spent w.cost (log u) ≤ ((jobs u).map (jobPrice w)).sum := fun w =>
    runs_stay_within domain_job_affords
      (fun u => ⟨party u, rfl, fine u⟩) run u
  simp only [spent_counts, price_counts] at within
  constructor
  · have counted := within unmapWeights
    simp [unmapWeights, Weights.unmapPrice, Weights.allocPrice, Weights.syncMapPrice] at counted
    omega
  · have counted := within syncWeights
    simp [syncWeights, Weights.unmapPrice, Weights.allocPrice, Weights.syncMapPrice] at counted
    omega
  · have counted := within freeWeights
    simp [freeWeights, Weights.unmapPrice, Weights.allocPrice, Weights.syncMapPrice] at counted
    omega
  · have counted := within allocWeights
    simp [allocWeights, Weights.unmapPrice, Weights.allocPrice, Weights.syncMapPrice] at counted
    omega
  · have counted := within syncMapWeights
    simp [syncMapWeights, Weights.unmapPrice, Weights.allocPrice, Weights.syncMapPrice] at counted
    omega

theorem first_alloc_is_economical : ∃ (d : DomainConfig) (rq : Rq) (mem : RxMem)
    (jobs : Nat → List DomainJob) (log : Nat → List KernelEvent),
    d.phase 0 = .idle (.queue rq mem) ∧ mem.posted 0 = true ∧ Economical (jobs 0) (log 0) := by
  obtain ⟨d, rq, mem, _, _, run, idle, posted, _⟩ := AtomicRuns.first_alloc_run
  obtain ⟨jobs, log, logged⟩ := run_logged run
  have wf : regularRq.dev.Wf := ⟨fun _ _ => ⟨rfl, rfl⟩, rfl⟩
  have fresh : ∀ u, FreshParty (AtomicRuns.queueBesideClient u) := by
    intro u
    unfold AtomicRuns.queueBesideClient
    split
    · exact ⟨wf, rfl⟩
    · trivial
  exact ⟨d, rq, mem, jobs, log, idle, posted, domain_is_economical fresh logged 0⟩

end BatchEconomy
