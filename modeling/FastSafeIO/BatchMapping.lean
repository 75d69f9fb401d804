import FastSafeIO.SingleCalls
import FastSafeIO.SlotFields

/- A successful mlx5e_alloc_rx_mpwqe whose pages all come fresh from the page pool:
   where each page of the batch is mapped and what is posted for it. -/
namespace BatchMapping
open CallTree KernelCalls DmaLayer RxDriver IommuWorld SingleCalls SlotFields

/-- The rx page cache has nothing to give. -/
def cacheEmpty : (op : KernelOp) → op.Ans → Bool
  | .page .rxCacheGet, got => got.isNone
  | _, _ => true

/-- The range handed out first by a run of mlx5e_alloc_rx_mpwqe. -/
def batchOf (trace : List KernelEvent) : Option Nat :=
  trace.findSome? fun
    | ⟨.iommu (.iommuDmaAllocIova size), base⟩ => if size = batchSize then some base else none
    | _ => none

theorem batch_of_first (base : Nat) (trace : List KernelEvent) :
    batchOf (⟨.iommu (.iommuDmaAllocIova batchSize), base⟩ :: trace) = some base := rfl

/-- The page is mapped at place i of the batch and knows its address. -/
structure Stands (base i : Nat) (page : Page) (w : World) : Prop where
  addr : w.dmaAddr page = base + i * 4096
  pte : w.pt (base / PAGE_SIZE + i) = some page.pfn

/-- What slot i must hold and have posted once it is filled. -/
structure SlotPosted (base i : Nat) (dmaInfo : Nat → DmaInfo) (mtts : Nat → Nat) (w : World)
    (page : Page) : Prop where
  iova : (dmaInfo i).iova = base + i * 4096
  buffer : (dmaInfo i).buffer = .page page
  mtt : mtts i = (base + i * 4096) ||| MLX5_EN_WR
  held : w.held page = true
  stands : Stands base i page w

section
variable {u : Nat} {dev : Device} {page : Page} {iova : Nat} {firstIova : Bool} {w : World}

def MappedAt (page : Page) (iova : Nat) (w : World) (addr : Nat) (last : World) : Prop :=
  addr ≠ DMA_MAPPING_ERROR → addr = iova ∧ last = w.mapPages ⟨iova, PAGE_SIZE⟩ (pageToPhys page)

theorem map_atomic_ensures {paddr size : Nat} :
    Ensures (exec u) (iommuMapAtomic dev iova firstIova paddr size) w fun _ ret last =>
      last = if ret = 0 then w.mapPages ⟨iova, size⟩ paddr else w := by
  unfold iommuMapAtomic _iommuMap
  apply Ensures.call
  intro ret mid here
  cases exec_map.mp here
  simp only [Tree.bind_eq, Tree.done_bind]
  split
  · apply Ensures.call
    intro ans mid here
    cases exec_sync_map.mp here
    exact Ensures.done rfl
  · exact Ensures.done rfl

theorem place_page_ensures (some_iova : iova ≠ 0) :
    Ensures (exec u) (placePage dev page iova firstIova) w fun _ => MappedAt page iova w := by
  unfold placePage placeAt
  rw [if_neg some_iova]
  apply Ensures.bind map_atomic_ensures
  rintro trace ret mid rfl
  by_cases failed : ret = 0
  · subst failed
    exact Ensures.done fun _ => ⟨rfl, rfl⟩
  · rw [if_pos failed]
    apply Ensures.call
    intro ans mid here
    exact Ensures.done fun good => absurd rfl good

theorem map_page_ensures (some_iova : iova ≠ 0) :
    Ensures (exec u) (iommuDmaMapPageIova dev page iova firstIova 0 PAGE_SIZE) w fun _ =>
      MappedAt page iova w := by
  rw [map_page_iova_eq]
  have placed : Ensures (exec u) (__iommuDmaMap dev (pageToPhys page) iova firstIova PAGE_SIZE) w
      fun _ => MappedAt page iova w := by
    rw [dma_map_page_eq]
    apply Ensures.call
    intro attach mid here
    cases exec_deferred_attach.mp here
    cases attach
    · simp only [Bool.false_eq_true, ↓reduceIte, if_pos some_iova]
      exact place_page_ensures some_iova
    · exact Ensures.done fun good => absurd rfl good
  unfold mapPageTail
  apply Ensures.bind placed
  intro trace addr mid mapped
  by_cases failed : addr = DMA_MAPPING_ERROR
  · have nothing : ∀ last, MappedAt page iova w addr last := fun _ good => absurd failed good
    rw [if_pos failed]
    apply Ensures.call
    intro bounced mid here
    cases bounced
    · exact Ensures.done (nothing _)
    · apply Ensures.call
      intro ans mid here
      exact Ensures.done (nothing _)
  · rw [if_neg failed]
    exact Ensures.done mapped

end

/- A driver program, call by call. -/

section
variable {dev : Device} {run : (op : KernelOp) → op.Ans → World → Option World} {w : World}

theorem device_done {a : α} {post : List KernelEvent → α → World → Prop} (now : post [] a w) :
    Ensures run (onDevice dev (.done a)) w post := Ensures.done now

theorem device_bind {t : Rx α} {next : α → Rx β} {first : List KernelEvent → α → World → Prop}
    {post : List KernelEvent → β → World → Prop} (start : Ensures run (onDevice dev t) w first)
    (rest : ∀ trace a mid, first trace a mid →
      Ensures run (onDevice dev (next a)) mid fun more => post (trace ++ more)) :
    Ensures run (onDevice dev (t.bind next)) w post := by
  unfold onDevice
  rw [Tree.interp_bind]
  exact Ensures.bind start rest

theorem device_page_call {op : PageOp} {rest : op.Ans → Rx α}
    {post : List KernelEvent → α → World → Prop}
    (each : ∀ r mid, run (.page op) r w = some mid →
      Ensures run (onDevice dev (rest r)) mid fun trace => post (⟨.page op, r⟩ :: trace)) :
    Ensures run (onDevice dev ((pageCall op).bind rest)) w post := Ensures.call each

theorem device_alloc_batch (rq : Rq) {wi : MpwInfo} {base : Nat}
    {P : List KernelEvent → (Nat → DmaInfo) → (Nat → Nat) → World → Prop}
    (loop : Ensures run (onDevice dev (allocLoop rq base MLX5_MPWRQ_PAGES_PER_WQE 0 wi.dmaInfo fun _ => 0)) w
      fun trace out last => out.err = 0 → P trace out.dmaInfo out.inlineMtts last) :
    Ensures run (onDevice dev (allocBatch rq wi base)) w
      fun trace out last => out.1 = 0 → P trace out.2.1.dmaInfo out.2.2 last := by
  simp only [allocBatch, Tree.bind_eq, Tree.pure_eq]
  apply device_bind loop
  intro trace got mid posted
  by_cases failed : got.err = 0
  · rw [if_neg (not_not_intro failed)]
    apply device_done
    intro _
    rw [List.append_nil]
    exact posted failed
  · rw [if_pos failed]
    constructor
    intro more out last ran good
    have err := exec_returns (P := fun out : Int × MpwInfo × (Nat → Nat) => out.1 = got.err) ran
      (Tree.Returns.interp (Tree.Returns.bind (Tree.returns_anything _) fun _ _ => rfl))
    exact absurd (err.symm.trans good) failed

theorem device_dma_call {op : DmaOp} {post : List KernelEvent → op.Ans → World → Prop}
    (impl : Ensures run (dmaImpl dev (.dma op)) w post) :
    Ensures run (onDevice dev (dmaCall op)) w post := by
  unfold onDevice dmaCall Tree.ask
  rw [Tree.interp_call]
  simp only [Tree.interp_done]
  rw [Tree.bind_done]
  exact impl

end

section
variable {rq : Rq} (api : DmaApi rq.dev) (regular : rq.xskPool = false)
include api regular

/-- The slot got a page that was out of use, mapped at the address chosen for it. -/
def Filled (di : DmaInfo) (w : World) (out : Int × DmaInfo) (last : World) : Prop :=
  out.1 = 0 → ∃ page, w.held page = false ∧ out.2 = { di with addr := di.iova, buffer := .page page } ∧
    last = ((w.hold page true).mapPages ⟨di.iova, PAGE_SIZE⟩ (pageToPhys page)).setDmaAddr page di.iova

theorem page_alloc_fills {di : DmaInfo} {w : World} (batched : di.batchIova = true)
    (some_iova : di.iova ≠ 0) :
    Ensures (limited cacheEmpty (exec 0)) (onDevice rq.dev (mlx5ePageAlloc rq di)) w fun _ =>
      Filled di w := by
  have nothing : ∀ (err : Int) (di' : DmaInfo) (last : World), err ≠ 0 →
      Filled di w (err, di') last := fun _ _ _ bad good => absurd good bad
  unfold mlx5ePageAlloc
  rw [regular]
  simp only [Bool.false_eq_true, ↓reduceIte, mlx5ePageAllocPool, Tree.bind_eq, Tree.pure_eq]
  apply device_page_call
  intro got mid here
  obtain ⟨empty, here⟩ := limited_some.mp here
  cases got with
  | some got => cases empty
  | none =>
    cases exec_cache_miss.mp here
    apply device_page_call
    intro got mid here
    obtain ⟨_, here⟩ := limited_some.mp here
    cases got with
    | none => exact device_done (nothing _ _ _ (by decide))
    | some page =>
      obtain ⟨idle, rfl⟩ := exec_pool_page.mp here
      have mapped : Ensures (limited cacheEmpty (exec 0)) (onDevice rq.dev (mapSlotPage di page))
          (w.hold page true) fun _ => MappedAt page di.iova (w.hold page true) := by
        unfold mapSlotPage
        rw [if_pos batched]
        apply device_dma_call
        apply Ensures.limited
        simp only [dmaImpl, map_iova_route api]
        exact map_page_ensures some_iova
      apply device_bind mapped
      intro trace addr mid mapped
      by_cases failed : addr = DMA_MAPPING_ERROR
      · rw [if_pos failed]
        apply device_page_call
        intro ans last here
        exact device_done (nothing _ _ _ (by decide))
      · obtain ⟨rfl, rfl⟩ := mapped failed
        rw [if_neg failed]
        apply device_page_call
        intro ans last here
        cases exec_set_addr.mp (limited_some.mp here).2
        exact device_done fun _ => ⟨page, idle, rfl, rfl⟩

omit api regular in
theorem place_has {base i x : Nat} :
    (⟨base + i * 4096, PAGE_SIZE⟩ : Range).Has x ↔ x = base / PAGE_SIZE + i := by
  unfold Range.Has PAGE_SIZE
  dsimp only
  omega

omit api regular in
theorem fill_slot {base i : Nat} {dmaInfo : Nat → DmaInfo} {mtts : Nat → Nat} {w : World}
    {page : Page} {di : DmaInfo} (idle : w.held page = false) (iova : di.iova = base + i * 4096)
    (addr : di.addr = base + i * 4096) (buffer : di.buffer = .page page)
    (before : ∀ j < i, ∃ p, SlotPosted base j dmaInfo mtts w p) :
    ∀ j < i + 1, ∃ p, SlotPosted base j (Function.update dmaInfo i di)
      (Function.update mtts i (di.addr ||| MLX5_EN_WR))
      (((w.hold page true).mapPages ⟨base + i * 4096, PAGE_SIZE⟩ (pageToPhys page)).setDmaAddr page
        (base + i * 4096)) p := by
  intro j below
  by_cases here : j = i
  · subst here
    refine ⟨page, by simpa using iova, by simpa using buffer, by simp [addr],
      by simp [World.hold, World.mapPages, World.setDmaAddr],
      by simp [World.setDmaAddr], ?_⟩
    have inside : (⟨base + j * 4096, PAGE_SIZE⟩ : Range).Has (base / PAGE_SIZE + j) :=
      place_has.mpr rfl
    have start : (base + j * 4096) / PAGE_SIZE = base / PAGE_SIZE + j := by
      unfold PAGE_SIZE
      omega
    simp only [World.mapPages, World.setDmaAddr, if_pos inside, start, Nat.sub_self, Nat.add_zero,
      pageToPhys, Nat.mul_div_cancel _ (show 0 < PAGE_SIZE by decide)]
  · obtain ⟨p, posted⟩ := before j (by omega)
    have other : p ≠ page := by
      rintro rfl
      rw [posted.held] at idle
      cases idle
    have outside : ¬ (⟨base + i * 4096, PAGE_SIZE⟩ : Range).Has (base / PAGE_SIZE + j) := by
      rw [place_has]
      omega
    refine ⟨p, ?_, ?_, ?_, ?_, ?_, ?_⟩
    · rw [Function.update_of_ne here]
      exact posted.iova
    · rw [Function.update_of_ne here]
      exact posted.buffer
    · rw [Function.update_of_ne here]
      exact posted.mtt
    · simpa [World.hold, World.mapPages, World.setDmaAddr, Function.update_of_ne other] using posted.held
    · simpa [World.hold, World.mapPages, World.setDmaAddr, Function.update_of_ne other] using
        posted.stands.addr
    · simpa only [World.hold, World.mapPages, World.setDmaAddr, if_neg outside] using posted.stands.pte

theorem alloc_loop_posts {base : Nat} (based : base ≠ 0) (left : Nat) {i : Nat}
    {dmaInfo : Nat → DmaInfo} {mtts : Nat → Nat} {w : World}
    (before : ∀ j < i, ∃ p, SlotPosted base j dmaInfo mtts w p) :
    Ensures (limited cacheEmpty (exec 0)) (onDevice rq.dev (allocLoop rq base left i dmaInfo mtts)) w
      fun _ out last => out.err = 0 →
        ∀ j < i + left, ∃ p, SlotPosted base j out.dmaInfo out.inlineMtts last p := by
  induction left generalizing i dmaInfo mtts w with
  | zero => exact device_done fun _ => before
  | succ left ih =>
    obtain ⟨batched, place, _⟩ := prepare_slot_batched base i (dmaInfo i)
    simp only [allocLoop, Tree.bind_eq, Tree.pure_eq, api.mapped]
    apply device_bind (page_alloc_fills api regular batched (by omega))
    intro trace out mid filled
    by_cases failed : out.1 = 0
    · obtain ⟨page, idle, slot, rfl⟩ := filled failed
      have iova : out.2.iova = base + i * 4096 := slot ▸ place
      have addr : out.2.addr = base + i * 4096 := slot ▸ place
      have buffer : out.2.buffer = .page page := slot ▸ rfl
      rw [place, if_neg (not_not_intro failed)]
      apply Ensures.mono (ih (fill_slot idle iova addr buffer before))
      intro _ run last posts good j below
      exact posts good j (by omega)
    · rw [if_pos failed]
      exact device_done fun good => absurd good failed

omit regular in
/-- Slot 0 starts the batch, unless its page was copied from the cache. -/
theorem alloc_batch_starts (wi : MpwInfo) (base : Nat) :
    (allocBatch rq wi base).Returns fun out => out.1 = 0 → (out.2.1.dmaInfo 0).iova ≠ 0 →
      (out.2.1.dmaInfo 0).iova = base := by
  apply alloc_batch_returns
  apply (alloc_loop_fields rq base 64 0 wi.dmaInfo _).mono
  intro run fields good some_iova
  have far := fields.done good
  have visited := fields.visited 0 (Nat.le_refl 0) (by omega)
  rw [(alloc_fields_batched visited (Or.inr some_iova)).2.1, api.mapped, (prepare_slot_batched base 0 _).2.1]
  simp

theorem alloc_batch_posts (wi : MpwInfo) {base : Nat} (based : base ≠ 0) {w : World} :
    Ensures (limited cacheEmpty (exec 0)) (onDevice rq.dev (allocBatch rq wi base)) w
      fun _ out last => out.1 = 0 →
        ∀ i < 64, ∃ page, SlotPosted base i out.2.1.dmaInfo out.2.2 last page := by
  apply device_alloc_batch rq (P := fun _ dmaInfo mtts last =>
    ∀ i < 64, ∃ page, SlotPosted base i dmaInfo mtts last page)
  apply (alloc_loop_posts api regular based 64 fun j below => absurd below (by omega)).mono
  intro trace run last posts good
  simpa using posts good

/-- Every slot of a WQE that was allocated from fresh pages is posted at its place. -/
theorem alloc_wqe_posts (wi : MpwInfo) (w : World) :
    Ensures (limited cacheEmpty (exec 0)) (onDevice rq.dev (mlx5eAllocRxMpwqe rq wi)) w
      fun trace out last => ∃ base, batchOf trace = some base ∧
        (out.1 = 0 → (out.2.1.dmaInfo 0).iova = base ∧ (base ≠ 0 →
          base % PAGE_SIZE = 0 ∧ base + batchSize ≤ 2 ^ 64 ∧
          ∀ i < 64, ∃ page, SlotPosted base i out.2.1.dmaInfo out.2.2 last page)) := by
  simp only [mlx5eAllocRxMpwqe, regular, Bool.false_eq_true, ↓reduceIte, Tree.bind_eq, Tree.pure_eq,
    Tree.done_bind, batchBase, api.mapped]
  apply Ensures.call
  intro base mid here
  constructor
  intro trace out last ran
  have posts := fun based => (alloc_batch_posts api regular wi based).holds ran
  refine ⟨base, batch_of_first base trace, fun good => ⟨?_, fun based => ?_⟩⟩
  · by_cases based : base = 0
    · by_contra other
      subst based
      exact other (exec_returns ran (alloc_batch_starts api wi 0).interp good other)
    · obtain ⟨_, posted⟩ := posts based good 0 (by omega)
      simpa using posted.iova
  · rcases exec_alloc_iova.mp (limited_some.mp here).2 with ⟨zero, _⟩ | ⟨_, aligned, bound, _⟩
    · exact absurd zero based
    · exact ⟨aligned, bound, posts based good⟩

end

end BatchMapping
