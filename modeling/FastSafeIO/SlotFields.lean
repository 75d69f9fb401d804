import FastSafeIO.RxDriver

/- What the driver functions do to the five new fields of a slot, whatever the kernel
   answers. -/
namespace SlotFields
open CallTree KernelCalls DmaLayer RxDriver

def SameFields (old new : DmaInfo) : Prop :=
  new.batchIova = old.batchIova ∧ new.iova = old.iova ∧ new.firstIova = old.firstIova ∧
    new.iovaSize = old.iovaSize ∧ new.freeIova = old.freeIova

/- The fields are kept, or they are those of an entry of the page cache. -/
def AllocFields (rq : Rq) (old new : DmaInfo) : Prop :=
  SameFields old new ∨ rq.cacheCopies = true ∧ SameFields DmaInfo.zeroed new

theorem cached_slot_fields (rq : Rq) (dmaInfo : DmaInfo) (page : Page) (addr : Nat) :
    AllocFields rq dmaInfo (cachedSlot rq dmaInfo page addr) := by
  by_cases copies : rq.cacheCopies = true
  · right
    simp [cachedSlot, SameFields, copies]
  · left
    simp [cachedSlot, SameFields, copies]

@[simp] theorem cached_slot_buffer (rq : Rq) (dmaInfo : DmaInfo) (page : Page) (addr : Nat) :
    (cachedSlot rq dmaInfo page addr).buffer = .page page := rfl

@[simp] theorem cached_slot_addr (rq : Rq) (dmaInfo : DmaInfo) (page : Page) (addr : Nat) :
    (cachedSlot rq dmaInfo page addr).addr = addr := rfl

theorem cached_slot_single (rq : Rq) {dmaInfo : DmaInfo} (page : Page) (addr : Nat)
    (single : dmaInfo.batchIova = false) : (cachedSlot rq dmaInfo page addr).batchIova = false := by
  rcases cached_slot_fields rq dmaInfo page addr with same | ⟨_, same⟩
  · exact same.1.trans single
  · exact same.1

theorem page_alloc_fields (rq : Rq) (dmaInfo : DmaInfo) :
    (mlx5ePageAlloc rq dmaInfo).Returns fun out => AllocFields rq dmaInfo out.2 := by
  have same : ∀ addr buffer, AllocFields rq dmaInfo { dmaInfo with addr := addr, buffer := buffer } :=
    fun _ _ => Or.inl ⟨rfl, rfl, rfl, rfl, rfl⟩
  unfold mlx5ePageAlloc
  split
  · simp only [mlx5eXskPageAllocPool, pageCall, Tree.bind_eq, Tree.ask_bind, Tree.returns_call]
    intro got
    cases got <;> exact same _ _
  · simp only [mlx5ePageAllocPool, pageCall, Tree.bind_eq, Tree.ask_bind, Tree.returns_call]
    intro got
    cases got with
    | some got => exact cached_slot_fields rq dmaInfo _ _
    | none =>
      simp only [Tree.returns_call]
      intro page
      cases page with
      | none => exact same _ _
      | some page =>
        refine Tree.Returns.bind (Tree.returns_anything _) fun addr _ => ?_
        split
        · exact fun _ => same _ _
        · exact fun _ => same _ _

/-- A page allocation maps at most for its own slot. -/
theorem page_alloc_calls (rq : Rq) {Q : RxOp → Prop} (pages : ∀ op, Q (.page op)) {dmaInfo : DmaInfo}
    (slot : ∀ page, (mapSlotPage dmaInfo page).Calls Q) : (mlx5ePageAlloc rq dmaInfo).Calls Q := by
  unfold mlx5ePageAlloc
  split
  · refine ⟨pages _, fun got => ?_⟩
    cases got <;> trivial
  · refine ⟨pages _, fun got => ?_⟩
    cases got with
    | some got => trivial
    | none =>
      refine ⟨pages _, fun page => ?_⟩
      cases page with
      | none => trivial
      | some page =>
        apply (slot page).bind
        intro addr
        split <;> exact ⟨pages _, fun _ => trivial⟩

theorem release_dynamic_calls {Q : RxOp → Prop} (pages : ∀ op, Q (.page op)) {page : Page}
    {recycle : Bool} {iovaSize : Nat} {freeIova : Bool}
    (unmap : (mlx5ePageDmaUnmap page iovaSize freeIova).Calls Q) :
    (mlx5ePageReleaseDynamic page recycle iovaSize freeIova).Calls Q := by
  unfold mlx5ePageReleaseDynamic
  cases recycle
  · exact unmap.bind fun _ => ⟨pages _, fun _ => ⟨pages _, fun _ => trivial⟩⟩
  · refine ⟨pages _, fun taken => ?_⟩
    cases taken
    · exact unmap.bind fun _ => ⟨pages _, fun _ => trivial⟩
    · trivial

theorem slot_release_calls (rq : Rq) {Q : RxOp → Prop} (pages : ∀ op, Q (.page op))
    {dmaInfo : DmaInfo} {recycle : Bool}
    (dynamic : ∀ page,
      (mlx5ePageReleaseDynamic page recycle dmaInfo.iovaSize dmaInfo.freeIova).Calls Q) :
    (mlx5ePageRelease rq dmaInfo recycle).Calls Q := by
  unfold mlx5ePageRelease
  split
  · split
    · exact ⟨pages _, fun _ => trivial⟩
    · trivial
  · split
    · exact dynamic _
    · trivial

/-- The calls that a release can make. -/
def ReleaseCall : RxOp → Prop
  | .page _ => True
  | .dma (.dmaUnmapPageAttrs _ _) => True
  | .dma (.dmaUnmapPageAttrsIova _ _ _ _) => True
  | _ => False

theorem release_calls (rq : Rq) (dmaInfo : DmaInfo) (recycle : Bool) :
    (mlx5ePageRelease rq dmaInfo recycle).Calls ReleaseCall := by
  have unmap : ∀ page iovaSize freeIova,
      (mlx5ePageDmaUnmap page iovaSize freeIova).Calls ReleaseCall := by
    intro page iovaSize freeIova
    unfold mlx5ePageDmaUnmap
    refine ⟨trivial, fun addr => ?_⟩
    simp only [Tree.bind_eq, Tree.done_bind]
    split
    · split
      · exact ⟨trivial, fun _ => ⟨trivial, fun _ => trivial⟩⟩
      · exact ⟨trivial, fun _ => trivial⟩
    · exact ⟨trivial, fun _ => ⟨trivial, fun _ => trivial⟩⟩
  apply slot_release_calls rq fun _ => trivial
  exact fun page => release_dynamic_calls (fun _ => trivial) (unmap page _ _)

theorem err_unmap_calls (rq : Rq) (count : Nat) (dmaInfo : Nat → DmaInfo) :
    (errUnmap rq count dmaInfo).Calls ReleaseCall := by
  induction count generalizing dmaInfo with
  | zero => trivial
  | succ i ih =>
    unfold errUnmap
    exact (release_calls rq _ true).bind fun _ => ih _

theorem alloc_loop_calls (rq : Rq) {Q : RxOp → Prop} (pages : ∀ op, Q (.page op))
    (slot : ∀ dmaInfo page, (mapSlotPage dmaInfo page).Calls Q) (iovaBase left i : Nat)
    (dmaInfo : Nat → DmaInfo) (mtts : Nat → Nat) :
    (allocLoop rq iovaBase left i dmaInfo mtts).Calls Q := by
  induction left generalizing i dmaInfo mtts with
  | zero => trivial
  | succ left ih =>
    unfold allocLoop
    apply (page_alloc_calls rq pages (slot _)).bind
    intro out
    dsimp only
    split
    · trivial
    · exact ih _ _ _

theorem batch_base_calls (rq : Rq) {Q : RxOp → Prop}
    (ask : ∀ size, rq.dev.iommuMapped = true → Q (.dma (.iommuDmaAllocIova size))) :
    (batchBase rq).Calls Q := by
  unfold batchBase
  split
  · rename_i mapped
    exact ⟨ask _ mapped, fun _ => trivial⟩
  · trivial

/-- The slots' calls and, when one of them fails, the unwinding's. -/
theorem alloc_batch_calls (rq : Rq) {Q : RxOp → Prop} (back : ∀ op, ReleaseCall op → Q op)
    {wi : MpwInfo} {iovaBase : Nat}
    (loop : (allocLoop rq iovaBase MLX5_MPWRQ_PAGES_PER_WQE 0 wi.dmaInfo fun _ => 0).Calls Q) :
    (allocBatch rq wi iovaBase).Calls Q := by
  unfold allocBatch
  apply loop.bind
  intro run
  split
  · exact ((err_unmap_calls rq _ _).mono back).bind fun _ => trivial
  · trivial

theorem alloc_wqe_calls_of_batch (rq : Rq) {Q : RxOp → Prop} {wi : MpwInfo}
    (room : ∀ pages, Q (.page (.xskBuffCanAlloc pages))) (base : (batchBase rq).Calls Q)
    (batch : ∀ iovaBase, (allocBatch rq wi iovaBase).Calls Q) : (mlx5eAllocRxMpwqe rq wi).Calls Q := by
  have based : ((batchBase rq).bind (allocBatch rq wi)).Calls Q := base.bind batch
  simp only [mlx5eAllocRxMpwqe, Tree.bind_eq]
  split
  · refine ⟨room _, fun enough => ?_⟩
    cases enough
    · trivial
    · exact based
  · exact based

theorem alloc_wqe_calls (rq : Rq) {Q : RxOp → Prop} (pages : ∀ op, Q (.page op))
    (base : (batchBase rq).Calls Q) (slot : ∀ dmaInfo page, (mapSlotPage dmaInfo page).Calls Q)
    (back : ∀ op, ReleaseCall op → Q op) (wi : MpwInfo) : (mlx5eAllocRxMpwqe rq wi).Calls Q :=
  alloc_wqe_calls_of_batch rq (fun _ => pages _) base fun iovaBase =>
    alloc_batch_calls rq back (alloc_loop_calls rq pages slot iovaBase _ 0 _ _)

theorem alloc_batch_returns (rq : Rq) {P : Int × MpwInfo × (Nat → Nat) → Prop} {wi : MpwInfo}
    {iovaBase : Nat}
    (loop : (allocLoop rq iovaBase MLX5_MPWRQ_PAGES_PER_WQE 0 wi.dmaInfo fun _ => 0).Returns fun run =>
      run.err = 0 → P (0, ⟨run.dmaInfo, fun _ => false⟩, run.inlineMtts)) :
    (allocBatch rq wi iovaBase).Returns fun out => out.1 = 0 → P out := by
  unfold allocBatch
  apply loop.bind
  intro run good
  split
  · rename_i failed
    exact Tree.Returns.bind (Tree.returns_anything _) fun _ _ fine => absurd fine failed
  · rename_i fine
    exact fun _ => good (not_not.mp fine)

theorem alloc_wqe_returns (rq : Rq) {P : Int × MpwInfo × (Nat → Nat) → Prop} {wi : MpwInfo}
    (none : P (-ENOMEM, wi, fun _ => 0)) (batch : ∀ iovaBase, (allocBatch rq wi iovaBase).Returns P) :
    (mlx5eAllocRxMpwqe rq wi).Returns P := by
  have based : ((batchBase rq).bind (allocBatch rq wi)).Returns P :=
    Tree.Returns.bind (Tree.returns_anything _) fun iovaBase _ => batch iovaBase
  simp only [mlx5eAllocRxMpwqe, Tree.bind_eq]
  split
  · intro enough
    cases enough
    · exact none
    · exact based
  · exact based

theorem prepare_slot_batched (iovaBase i : Nat) (dmaInfo : DmaInfo) :
    (prepareSlot true iovaBase i dmaInfo).batchIova = true ∧
    (prepareSlot true iovaBase i dmaInfo).iova = iovaBase + i * 4096 ∧
    (prepareSlot true iovaBase i dmaInfo).firstIova = (i == 0) ∧
    (prepareSlot true iovaBase i dmaInfo).iovaSize = 4096 * MLX5_MPWRQ_PAGES_PER_WQE := by
  simp only [prepareSlot, ↓reduceIte]
  split
  · rename_i first
    simp [first]
  · rename_i later
    simp [later]

theorem prepare_slot_free (fands : Bool) (iovaBase i : Nat) (dmaInfo : DmaInfo) :
    (prepareSlot fands iovaBase i dmaInfo).freeIova = dmaInfo.freeIova := by
  unfold prepareSlot
  split
  · split <;> rfl
  · rfl

theorem inner_slot {i : Nat} (below : i < 63) : (i == MLX5_MPWRQ_PAGES_PER_WQE - 1) = false := by
  unfold MLX5_MPWRQ_PAGES_PER_WQE
  simp only [beq_eq_false_iff_ne]
  omega

/- How far the loop came, and what it left in the slots it visited. -/
structure LoopFields (rq : Rq) (iovaBase i left : Nat) (dmaInfo : Nat → DmaInfo) (run : AllocRun) :
    Prop where
  low : i ≤ run.count
  done : run.err = 0 → run.count = i + left
  cut : run.err ≠ 0 → run.count < i + left
  visited : ∀ j, i ≤ j → j < run.count →
    AllocFields rq (prepareSlot rq.dev.iommuMapped iovaBase j (dmaInfo j)) (run.dmaInfo j)
  before : ∀ j < i, run.dmaInfo j = dmaInfo j
  free : ∀ j, (dmaInfo j).freeIova = false → (run.dmaInfo j).freeIova = false

theorem buffer_update (dmaInfo : Nat → DmaInfo) (i : Nat) (di : DmaInfo)
    (same : di.buffer = (dmaInfo i).buffer) (j : Nat) :
    (Function.update dmaInfo i di j).buffer = (dmaInfo j).buffer := by
  by_cases here : j = i
  · subst here
    rw [Function.update_self, same]
  · rw [Function.update_of_ne here]

theorem free_update {dmaInfo : Nat → DmaInfo} {i : Nat} (di : DmaInfo)
    (same : di.freeIova = (dmaInfo i).freeIova) (j : Nat) :
    (Function.update dmaInfo i di j).freeIova = (dmaInfo j).freeIova := by
  by_cases here : j = i
  · subst here
    simpa using same
  · rw [Function.update_of_ne here]

theorem alloc_fields_free {rq : Rq} {old new : DmaInfo} (fields : AllocFields rq old new)
    (kept : old.freeIova = false) : new.freeIova = false := by
  rcases fields with same | ⟨_, same⟩
  · exact same.2.2.2.2.trans kept
  · exact same.2.2.2.2

/- A slot that still knows its batch was not copied from the cache. -/
theorem alloc_fields_batched {rq : Rq} {old new : DmaInfo} (fields : AllocFields rq old new)
    (knows : new.batchIova = true ∨ new.iova ≠ 0) : SameFields old new := by
  rcases fields with same | ⟨_, same⟩
  · exact same
  · rcases knows with batched | some_iova
    · exact absurd (same.1.symm.trans batched) (by decide)
    · exact absurd same.2.1 some_iova

theorem alloc_loop_fields (rq : Rq) (iovaBase left i : Nat) (dmaInfo : Nat → DmaInfo)
    (mtts : Nat → Nat) :
    (allocLoop rq iovaBase left i dmaInfo mtts).Returns (LoopFields rq iovaBase i left dmaInfo) := by
  induction left generalizing i dmaInfo mtts with
  | zero =>
    exact ⟨Nat.le_refl i, fun _ => rfl, fun bad => absurd rfl bad, fun j low high => by
      dsimp only at high; omega, fun _ _ => rfl, fun _ kept => kept⟩
  | succ left ih =>
    simp only [allocLoop, Tree.bind_eq, Tree.pure_eq]
    refine (page_alloc_fields rq _).bind ?_
    rintro ⟨err, di⟩ here
    have free : ∀ j, (dmaInfo j).freeIova = false → (Function.update dmaInfo i di j).freeIova = false := by
      intro j kept
      by_cases last : j = i
      · subst last
        rw [Function.update_self]
        exact alloc_fields_free here ((prepare_slot_free ..).trans kept)
      · rwa [Function.update_of_ne last]
    dsimp only
    split
    · rename_i bad
      refine ⟨Nat.le_refl i, fun good => absurd good bad, fun _ => ?_, fun j low high => ?_,
        fun j below => ?_, free⟩
      · change i < i + (left + 1)
        omega
      · change j < i at high
        omega
      · exact Function.update_of_ne (by omega) _ _
    · refine (ih (i + 1) (Function.update dmaInfo i di) _).mono fun run later => ?_
      refine ⟨by have := later.low; omega, fun good => by have := later.done good; omega,
        fun bad => by have := later.cut bad; omega, fun j low high => ?_, fun j below => ?_,
        fun j kept => later.free j (free j kept)⟩
      · by_cases first : j = i
        · subst first
          rw [later.before j (by omega)]
          simpa using here
        · have rest := later.visited j (by omega) high
          rwa [Function.update_of_ne first] at rest
      · rw [later.before j (by omega)]
        exact Function.update_of_ne (by omega) _ _

/- Slots 0 to 62 never get free_iova. -/
def FreesLast (dmaInfo : Nat → DmaInfo) : Prop := ∀ i < 63, (dmaInfo i).freeIova = false

theorem err_unmap_frees_last (rq : Rq) (count : Nat) {dmaInfo : Nat → DmaInfo}
    (last : FreesLast dmaInfo) : (errUnmap rq count dmaInfo).Returns FreesLast := by
  induction count generalizing dmaInfo with
  | zero => exact last
  | succ i ih =>
    simp only [errUnmap, Tree.bind_eq]
    refine Tree.Returns.bind (Tree.returns_anything _) fun _ _ => ih fun j below => ?_
    rw [free_update _ (by split <;> rfl)]
    exact last j below

theorem free_loop_frees_last (rq : Rq) (noXdpXmit : Bool) (bitmap : Nat → Bool) (recycle : Bool)
    (left i : Nat) {dmaInfo : Nat → DmaInfo} (last : FreesLast dmaInfo) :
    (freeLoop rq noXdpXmit bitmap recycle left i dmaInfo).Returns FreesLast := by
  induction left generalizing i dmaInfo with
  | zero => exact last
  | succ left ih =>
    unfold freeLoop
    split
    · split
      · simp only [Tree.bind_eq]
        refine Tree.Returns.bind (Tree.returns_anything _) fun _ _ => ih _ fun j below => ?_
        by_cases here : j = i
        · subst here
          simp only [Function.update_self, MLX5_MPWRQ_PAGES_PER_WQE, beq_eq_false_iff_ne]
          omega
        · rw [Function.update_of_ne here]
          exact last j below
      · simp only [Tree.bind_eq]
        refine Tree.Returns.bind (Tree.returns_anything _) fun _ _ => ih _ fun j below => ?_
        exact (free_update { dmaInfo i with iovaSize := 0 } rfl j).trans (last j below)
    · exact ih _ last

theorem alloc_wqe_frees_last (rq : Rq) {wi : MpwInfo} (last : FreesLast wi.dmaInfo) :
    (mlx5eAllocRxMpwqe rq wi).Returns fun out => FreesLast out.2.1.dmaInfo := by
  have batch : ∀ iovaBase, (allocBatch rq wi iovaBase).Returns fun out => FreesLast out.2.1.dmaInfo := by
    intro iovaBase
    simp only [allocBatch, Tree.bind_eq, Tree.pure_eq]
    refine (alloc_loop_fields rq iovaBase _ 0 wi.dmaInfo _).bind fun run fields => ?_
    have kept : FreesLast run.dmaInfo := fun i below => fields.free i (last i below)
    split
    · exact (err_unmap_frees_last rq _ kept).bind fun _ kept => kept
    · exact kept
  exact alloc_wqe_returns rq last batch

theorem free_wqe_frees_last (rq : Rq) {wi : MpwInfo} (recycle : Bool) (last : FreesLast wi.dmaInfo) :
    (mlx5eFreeRxMpwqe rq wi recycle).Returns fun out => FreesLast out.dmaInfo := by
  simp only [mlx5eFreeRxMpwqe, Tree.bind_eq, Tree.pure_eq]
  exact (free_loop_frees_last rq _ _ recycle _ _ last).bind fun _ kept => kept

end SlotFields
