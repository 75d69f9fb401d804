import FastSafeIO.OldRxDriver
import FastSafeIO.SlotFields

/- The patched driver's functions against the old ones where nothing is batched: a page is
   mapped with the batch flag off and released with the batch size 0. -/
namespace SinglePages
open CallTree KernelCalls DmaLayer RxDriver SlotFields

/- What the old driver has of a slot. -/
def oldInfo (di : DmaInfo) : OldRxDriver.DmaInfo := ⟨di.addr, di.buffer⟩

def Shows (info : Nat → DmaInfo) (o : Nat → OldRxDriver.DmaInfo) : Prop := ∀ i, oldInfo (info i) = o i

theorem Shows.update {info : Nat → DmaInfo} {o : Nat → OldRxDriver.DmaInfo} (shows : Shows info o)
    (i : Nat) {di : DmaInfo} {d : OldRxDriver.DmaInfo} (here : oldInfo di = d) :
    Shows (Function.update info i di) (Function.update o i d) := by
  intro j
  by_cases same : j = i
  · subst same
    simpa using here
  · simpa [Function.update_of_ne same] using shows j

/-- Only new fields of the slot change. -/
theorem Shows.refresh {info : Nat → DmaInfo} {o : Nat → OldRxDriver.DmaInfo} (shows : Shows info o)
    {i : Nat} {di : DmaInfo} (here : oldInfo di = o i) : Shows (Function.update info i di) o := by
  intro j
  by_cases same : j = i
  · subst same
    simpa using here
  · simpa [Function.update_of_ne same] using shows j

theorem release_dynamic_eq (page : Page) (recycle freeIova : Bool) :
    mlx5ePageReleaseDynamic page recycle 0 freeIova =
      OldRxDriver.mlx5ePageReleaseDynamic page recycle := rfl

theorem release_eq (rq : Rq) {di : DmaInfo} {d : OldRxDriver.DmaInfo} (single : di.iovaSize = 0)
    (shows : oldInfo di = d) (recycle : Bool) :
    mlx5ePageRelease rq di recycle = OldRxDriver.mlx5ePageRelease rq d recycle := by
  subst shows
  unfold mlx5ePageRelease OldRxDriver.mlx5ePageRelease
  rw [single]
  rfl

theorem drain_eq (pages : List Page) : drainPages pages = OldRxDriver.drainPages pages := by
  induction pages with
  | nil => rfl
  | cons page rest ih =>
    unfold drainPages OldRxDriver.drainPages
    rw [release_dynamic_eq, ih]

theorem free_rq_eq : mlx5eFreeRq = OldRxDriver.mlx5eFreeRq := by
  unfold mlx5eFreeRq OldRxDriver.mlx5eFreeRq
  simp only [drain_eq]

/- What a page allocation leaves in either driver. -/
structure SameAlloc (out : Int × DmaInfo) (o : Int × OldRxDriver.DmaInfo) : Prop where
  err : out.1 = o.1
  shows : oldInfo out.2 = o.2
  single : out.2.batchIova = false

theorem page_alloc_alike (rq : Rq) {di : DmaInfo} {d : OldRxDriver.DmaInfo}
    (single : di.batchIova = false) (shows : oldInfo di = d) :
    (mlx5ePageAlloc rq di).Alike SameAlloc (OldRxDriver.mlx5ePageAlloc rq d) := by
  subst shows
  unfold mlx5ePageAlloc OldRxDriver.mlx5ePageAlloc
  split
  · apply Tree.Alike.call
    intro got
    cases got with
    | none => exact .done ⟨rfl, rfl, single⟩
    | some got => exact .done ⟨rfl, rfl, single⟩
  · apply Tree.Alike.call
    intro got
    cases got with
    | some got => exact .done ⟨rfl, rfl, cached_slot_single rq _ _ single⟩
    | none =>
      apply Tree.Alike.call
      intro page
      cases page with
      | none => exact .done ⟨rfl, rfl, single⟩
      | some page =>
        have slot : mapSlotPage di page = dmaCall (.dmaMapPageAttrs page 0 PAGE_SIZE) := by
          rw [mapSlotPage, single]
          rfl
        simp only [Tree.done_bind, slot, dmaCall, Tree.bind_eq, Tree.ask_bind]
        apply Tree.Alike.call
        intro addr
        split
        · exact .call fun _ => .done ⟨rfl, rfl, single⟩
        · exact .call fun _ => .done ⟨rfl, rfl, single⟩

section
variable {rq : Rq} (unmapped : rq.dev.iommuMapped = false)

/- The allocation loop in either driver; the slots it visited are single pages. -/
structure SameRun (run : AllocRun) (o : OldRxDriver.AllocRun) : Prop where
  err : run.err = o.err
  count : run.count = o.count
  shows : Shows run.dmaInfo o.dmaInfo
  mtts : run.inlineMtts = o.inlineMtts
  single : ∀ j < run.count, (run.dmaInfo j).batchIova = false

include unmapped in
theorem alloc_loop_alike (base left i : Nat) {dmaInfo : Nat → DmaInfo}
    {o : Nat → OldRxDriver.DmaInfo} (mtts : Nat → Nat) (shows : Shows dmaInfo o)
    (single : ∀ j < i, (dmaInfo j).batchIova = false) :
    (allocLoop rq base left i dmaInfo mtts).Alike SameRun (OldRxDriver.allocLoop rq left i o mtts) := by
  induction left generalizing i dmaInfo o mtts with
  | zero => exact .done ⟨rfl, rfl, shows, rfl, single⟩
  | succ left ih =>
    unfold allocLoop OldRxDriver.allocLoop
    rw [unmapped]
    have slot : oldInfo (prepareSlot false base i (dmaInfo i)) = o i := shows i
    apply (page_alloc_alike rq rfl slot).bind
    rintro ⟨err, di⟩ ⟨_, d⟩ ⟨rfl, rfl, one⟩
    have visited : ∀ j < i + 1, (Function.update dmaInfo i di j).batchIova = false := by
      intro j below
      by_cases same : j = i
      · subst same
        simpa using one
      · rw [Function.update_of_ne same]
        exact single j (by omega)
    dsimp only
    split
    · apply Tree.Alike.done
      exact ⟨rfl, rfl, shows.update i rfl, rfl, fun j below => visited j (Nat.lt_succ_of_lt below)⟩
    · exact ih (i + 1) _ (shows.update i rfl) visited

theorem err_unmap_alike (count : Nat) {dmaInfo : Nat → DmaInfo} {o : Nat → OldRxDriver.DmaInfo}
    (shows : Shows dmaInfo o) (single : ∀ j < count, (dmaInfo j).batchIova = false) :
    (errUnmap rq count dmaInfo).Alike (fun info _ => Shows info o) (OldRxDriver.errUnmap rq count o) := by
  induction count generalizing dmaInfo with
  | zero => exact .done shows
  | succ i ih =>
    unfold errUnmap OldRxDriver.errUnmap
    simp only [single i (Nat.lt_succ_self i), Bool.false_eq_true, ↓reduceIte, Tree.bind_eq]
    have slot : oldInfo { dmaInfo i with batchIova := false, iovaSize := 0 } = o i := shows i
    rw [release_eq rq rfl slot]
    apply (Tree.Alike.refl (fun _ => rfl) _).bind
    intro _ _ _
    apply ih (shows.refresh slot)
    intro j below
    rw [Function.update_of_ne (Nat.ne_of_lt below)]
    exact single j (Nat.lt_succ_of_lt below)

structure SameWqe (wi : MpwInfo) (o : OldRxDriver.MpwInfo) : Prop where
  shows : Shows wi.dmaInfo o.dmaInfo
  bitmap : wi.xdpXmitBitmap = o.xdpXmitBitmap

/- What mlx5e_alloc_rx_mpwqe leaves in either driver. -/
structure SamePosted (out : Int × MpwInfo × (Nat → Nat)) (o : Int × OldRxDriver.MpwInfo × (Nat → Nat)) :
    Prop where
  err : out.1 = o.1
  wqe : SameWqe out.2.1 o.2.1
  mtts : out.2.2 = o.2.2

include unmapped in
theorem alloc_wqe_alike {wi : MpwInfo} {o : OldRxDriver.MpwInfo} (same : SameWqe wi o) :
    (mlx5eAllocRxMpwqe rq wi).Alike SamePosted (OldRxDriver.mlx5eAllocRxMpwqe rq o) := by
  have batch : ((batchBase rq).bind (allocBatch rq wi)).Alike SamePosted
      ((OldRxDriver.allocLoop rq MLX5_MPWRQ_PAGES_PER_WQE 0 o.dmaInfo fun _ => 0).bind fun run =>
        if run.err ≠ 0 then
          (OldRxDriver.errUnmap rq run.count run.dmaInfo).bind fun _ =>
            .done (run.err, { o with dmaInfo := run.dmaInfo }, run.inlineMtts)
        else .done (0, ⟨run.dmaInfo, fun _ => false⟩, run.inlineMtts)) := by
    simp only [batchBase, unmapped, Bool.false_eq_true, ↓reduceIte, Tree.pure_eq, Tree.done_bind,
      allocBatch]
    have none : ∀ j < 0, (wi.dmaInfo j).batchIova = false := fun j below => absurd below j.not_lt_zero
    apply (alloc_loop_alike unmapped 0 _ 0 _ same.shows none).bind
    intro run oldRun alike
    rw [← alike.err, ← alike.count, ← alike.mtts]
    split
    · apply (err_unmap_alike run.count alike.shows alike.single).bind
      exact fun info _ shows => .done ⟨rfl, ⟨shows, same.bitmap⟩, rfl⟩
    · exact .done ⟨rfl, ⟨alike.shows, rfl⟩, rfl⟩
  simp only [mlx5eAllocRxMpwqe, OldRxDriver.mlx5eAllocRxMpwqe, Tree.bind_eq]
  split
  · apply Tree.Alike.call
    intro enough
    cases enough
    · exact .done ⟨rfl, same, rfl⟩
    · exact batch
  · exact batch

include unmapped in
theorem free_loop_alike (noXdpXmit : Bool) (bitmap : Nat → Bool) (recycle : Bool) (left i : Nat)
    {dmaInfo : Nat → DmaInfo} {o : Nat → OldRxDriver.DmaInfo} (shows : Shows dmaInfo o) :
    (freeLoop rq noXdpXmit bitmap recycle left i dmaInfo).Alike (fun info _ => Shows info o)
      (OldRxDriver.freeLoop rq noXdpXmit bitmap recycle o left i) := by
  induction left generalizing i dmaInfo with
  | zero => exact .done shows
  | succ left ih =>
    unfold freeLoop OldRxDriver.freeLoop
    split
    · have slot : oldInfo { dmaInfo i with iovaSize := 0 } = o i := shows i
      simp only [unmapped, Bool.false_eq_true, ↓reduceIte, Tree.bind_eq]
      rw [release_eq rq rfl slot]
      apply (Tree.Alike.refl (fun _ => rfl) _).bind
      exact fun _ _ _ => ih (i + 1) (shows.refresh slot)
    · exact ih (i + 1) shows

include unmapped in
theorem free_wqe_alike {wi : MpwInfo} {o : OldRxDriver.MpwInfo} (same : SameWqe wi o) (recycle : Bool) :
    (mlx5eFreeRxMpwqe rq wi recycle).Alike (fun out _ => SameWqe out o)
      (OldRxDriver.mlx5eFreeRxMpwqe rq o recycle) := by
  unfold mlx5eFreeRxMpwqe OldRxDriver.mlx5eFreeRxMpwqe
  rw [← same.bitmap]
  rw [← Tree.bind_done (OldRxDriver.freeLoop ..)]
  apply (free_loop_alike unmapped _ _ _ _ _ same.shows).bind
  exact fun info _ shows => .done ⟨shows, same.bitmap⟩

/- SHAMPO headers. -/

structure SameHeaders (run : HeaderRun) (o : OldRxDriver.HeaderRun) : Prop where
  err : run.err = o.err
  count : run.count = o.count
  shows : Shows run.info o.info

theorem shampo_loop_alike (index : Nat) (buffer : Buffer) (addr left i : Nat) {info : Nat → DmaInfo}
    {o : Nat → OldRxDriver.DmaInfo} (shows : Shows info o) :
    (shampoLoop rq index buffer addr left i info).Alike SameHeaders
      (OldRxDriver.shampoLoop rq index buffer addr left i o) := by
  induction left generalizing i buffer addr info o with
  | zero => exact .done ⟨rfl, rfl, shows⟩
  | succ left ih =>
    unfold shampoLoop OldRxDriver.shampoLoop
    dsimp only
    split
    · have slot : oldInfo { info (index + i) with batchIova := false } = o (index + i) :=
        shows (index + i)
      apply (page_alloc_alike rq rfl slot).bind
      rintro ⟨err, di⟩ ⟨_, d⟩ ⟨rfl, rfl, _⟩
      dsimp only
      split
      · exact .done ⟨rfl, rfl, shows.update _ rfl⟩
      · exact ih _ _ _ (shows.update _ rfl)
    · exact ih _ _ _ (shows.update _ rfl)

theorem shampo_err_unmap_alike (index count : Nat) {info : Nat → DmaInfo}
    {o : Nat → OldRxDriver.DmaInfo} (shows : Shows info o) :
    (shampoErrUnmap rq index count info).Alike Shows (OldRxDriver.shampoErrUnmap rq index count o) := by
  induction count generalizing info o with
  | zero => exact .done shows
  | succ i ih =>
    unfold shampoErrUnmap OldRxDriver.shampoErrUnmap
    dsimp only
    split
    · have slot : oldInfo { info (index + i) with
          addr := alignDown (info (index + i)).addr, iovaSize := 0 } =
          { o (index + i) with addr := alignDown (o (index + i)).addr } := by
        rw [← shows]
        rfl
      rw [release_eq rq rfl slot]
      apply (Tree.Alike.refl (fun _ => rfl) _).bind
      exact fun _ _ _ => ih (shows.update _ slot)
    · exact ih shows

theorem build_hd_alike (klmEntries index : Nat) (lastBuffer : Buffer) (lastAddr : Nat)
    {info : Nat → DmaInfo} {o : Nat → OldRxDriver.DmaInfo} (shows : Shows info o) :
    (mlx5eBuildShampoHdUmr rq klmEntries index lastBuffer lastAddr info).Alike
      (fun out old => out.1 = old.1 ∧ Shows out.2 old.2)
      (OldRxDriver.mlx5eBuildShampoHdUmr rq klmEntries index lastBuffer lastAddr o) := by
  unfold mlx5eBuildShampoHdUmr OldRxDriver.mlx5eBuildShampoHdUmr
  apply (shampo_loop_alike index lastBuffer lastAddr klmEntries 0 shows).bind
  intro run oldRun alike
  rw [← alike.err, ← alike.count]
  split
  · apply (shampo_err_unmap_alike index run.count alike.shows).bind
    exact fun _ _ shows => .done ⟨rfl, shows⟩
  · exact .done ⟨rfl, alike.shows⟩

theorem dealloc_hd_alike (indices : List Nat) (deletedPage : Buffer) {info : Nat → DmaInfo}
    {o : Nat → OldRxDriver.DmaInfo} (shows : Shows info o) :
    (mlx5eShampoDeallocHd rq indices deletedPage info).Alike Shows
      (OldRxDriver.mlx5eShampoDeallocHd rq indices deletedPage o) := by
  induction indices generalizing deletedPage info o with
  | nil => exact .done shows
  | cons index rest ih =>
    have slot : ∀ size, oldInfo { info index with
        addr := alignDown (info index).addr, iovaSize := size } =
        ⟨alignDown (o index).addr, (info index).buffer⟩ := by
      intro size
      rw [← shows]
      rfl
    have buffer : (o index).buffer = (info index).buffer := by
      rw [← shows]
      rfl
    unfold mlx5eShampoDeallocHd OldRxDriver.mlx5eShampoDeallocHd
    simp only [buffer, Tree.bind_eq]
    split
    · rw [release_eq rq rfl (slot 0)]
      apply (Tree.Alike.refl (fun _ => rfl) _).bind
      exact fun _ _ _ => ih _ (shows.update _ (slot 0))
    · exact ih _ (shows.update _ (slot _))

theorem free_hd_entry_alike (headerIndex : Nat) {info : Nat → DmaInfo}
    {o : Nat → OldRxDriver.DmaInfo} (shows : Shows info o) :
    (mlx5eFreeRxShampoHdEntry rq headerIndex info).Alike Shows
      (OldRxDriver.mlx5eFreeRxShampoHdEntry rq headerIndex o) := by
  have aligned : oldInfo { info headerIndex with
      addr := alignDown (info headerIndex).addr, iovaSize := 0 } =
      { o headerIndex with addr := alignDown (o headerIndex).addr } := by
    rw [← shows]
    rfl
  unfold mlx5eFreeRxShampoHdEntry OldRxDriver.mlx5eFreeRxShampoHdEntry
  split
  · simp only [Tree.bind_eq]
    rw [release_eq rq rfl aligned]
    apply (Tree.Alike.refl (fun _ => rfl) _).bind
    exact fun _ _ _ => .done (shows.update _ aligned)
  · exact .done shows

end

end SinglePages
