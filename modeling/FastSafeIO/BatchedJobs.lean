import FastSafeIO.BatchTable
import FastSafeIO.PageAccounts
import FastSafeIO.SharedDomain

/- The batched functions of the patched driver when nothing they ask for is refused: from
   nothing, an allocation makes one batch; a free takes all of it away. -/
namespace BatchedJobs
open CallTree KernelCalls DmaLayer RxDriver IommuWorld LocalViews UserViews UserMapping SlotFields
  SharedDomain BatchTable
open PageAccounts (RxAlone page_call_alone)

/- While a WQE is allocated the pool has a page, the allocator a range, the domain is
   attached and the page table takes the mapping. -/
def cleanCall : DomainJob → (op : KernelOp) → op.Ans → Prop
  | .queue (.allocRxMpwqe _), .page .pagePoolDevAllocPages, page => page ≠ none
  | .queue (.allocRxMpwqe _), .iommu .iommuDeferredAttach, failed => failed = false
  | .queue (.allocRxMpwqe _), .iommu (.iommuDmaAllocIova _), base => base ≠ (0 : Nat)
  | .queue (.allocRxMpwqe _), .iommu (.__iommuMap _ _ _), ret => ret = (0 : Int)
  | _, _, _ => True

def cleanStep (job : DomainJob) (op : KernelOp) (r : op.Ans) (v b : UserView) : Prop :=
  UserStep op r v b ∧ cleanCall job op r

abbrev Allocates {α : Type} (ix : Nat) (t : Kernel α) (post : α → UserView → Prop) (v : UserView) :
    Prop := Meets (cleanStep (.queue (.allocRxMpwqe ix))) Fair post t v

/- What a WQE that is posted with the batch b has in its slots. -/
structure Posted (b : Batch) (wi : MpwInfo) (mtts : Nat → Nat) : Prop where
  buffer : ∀ i < 64, (wi.dmaInfo i).buffer = .page (b.page i)
  addr : ∀ i < 64, (wi.dmaInfo i).addr = b.addr i
  entry : ∀ i < 64, mtts i = b.addr i ||| MLX5_EN_WR
  noXdp : wi.xdpXmitBitmap = fun _ => false

section
variable {v : UserView} {base i : Nat} {pages : Nat → Page} {p : Page}

theorem page_place {base x i : Nat} (aligned : base % PAGE_SIZE = 0) :
    (⟨base + i * 4096, PAGE_SIZE⟩ : Range).Has x ↔ x = base / PAGE_SIZE + i := by
  simp only [Range.Has, PAGE_SIZE] at aligned ⊢
  omega

/- One more page: taken, mapped at its place, and its address stored. -/
theorem part_with_page (aligned : base % PAGE_SIZE = 0) (part : Part base pages 0 i v)
    (free : v.page p = none) :
    Part base (Function.update pages i p) 0 (i + 1)
      (((v.setPage p (some 0)).mapPages ⟨base + i * 4096, PAGE_SIZE⟩ (pageToPhys p)).setPage p
        (some (base + i * 4096))) := by
  have frame : pageToPhys p / PAGE_SIZE = p.pfn := by simp [pageToPhys, PAGE_SIZE]
  have old : ∀ {j}, j < i → Function.update pages i p j = pages j :=
    fun below => Function.update_of_ne (Nat.ne_of_lt below) _ _
  refine ⟨fun q a => ?_, part.range, fun x f => ?_, part.cache⟩
  · simp only [UserView.setPage, UserView.mapPages, Function.update_idem]
    by_cases same : q = p
    · subst same
      simp only [Function.update_self, Option.some.injEq]
      constructor
      · rintro rfl
        exact ⟨i, Nat.zero_le i, Nat.lt_succ_self i, Function.update_self .., rfl⟩
      · rintro ⟨j, low, high, here, rfl⟩
        rcases Nat.lt_succ_iff_lt_or_eq.mp high with below | rfl
        · rw [old below] at here
          have stored := (part.page q _).mpr ⟨j, low, below, here, rfl⟩
          rw [free] at stored
          cases stored
        · rfl
    · rw [Function.update_of_ne same, part.page]
      constructor
      · rintro ⟨j, low, high, here, rfl⟩
        exact ⟨j, low, by omega, (old high).trans here, rfl⟩
      · rintro ⟨j, low, high, here, rfl⟩
        rcases Nat.lt_succ_iff_lt_or_eq.mp high with below | rfl
        · exact ⟨j, low, below, (old below).symm.trans here, rfl⟩
        · rw [Function.update_self] at here
          exact absurd here.symm same
  · simp only [UserView.setPage, UserView.mapPages, page_place aligned]
    split
    · rename_i place
      subst place
      rw [frame, Option.some.injEq]
      constructor
      · intro same
        refine ⟨i, Nat.lt_succ_self i, rfl, ?_⟩
        rw [Function.update_self, ← same]
        simp only [PAGE_SIZE] at aligned ⊢
        omega
      · rintro ⟨j, high, here, rfl⟩
        obtain rfl : j = i := by omega
        rw [Function.update_self]
        simp only [PAGE_SIZE] at aligned ⊢
        omega
    · rename_i elsewhere
      rw [part.pt]
      constructor
      · rintro ⟨j, high, here, rfl⟩
        exact ⟨j, by omega, here, by rw [old high]⟩
      · rintro ⟨j, high, here, rfl⟩
        have below : j < i := by
          rcases Nat.lt_succ_iff_lt_or_eq.mp high with below | rfl
          · exact below
          · exact absurd here elsewhere
        exact ⟨j, below, here, by rw [old below]⟩

theorem part_without_page {b : Batch} (part : Part b.base b.page i 64 v) (below : i < 64) :
    Part b.base b.page (i + 1) 64 ((v.setPage (b.page i) (some 0)).setPage (b.page i) none) := by
  refine ⟨fun q a => ?_, part.range, part.pt, part.cache⟩
  simp only [UserView.setPage, Function.update_idem]
  by_cases same : q = b.page i
  · subst same
    simp only [Function.update_self, reduceCtorEq, false_iff]
    rintro ⟨j, low, high, here, _⟩
    have equal := b.distinct j high i below here
    omega
  · rw [Function.update_of_ne same, part.page]
    constructor
    · rintro ⟨j, low, high, rfl, rfl⟩
      have later : j ≠ i := fun equal => same (by rw [equal])
      exact ⟨j, by omega, high, rfl, rfl⟩
    · rintro ⟨j, low, high, here, rfl⟩
      exact ⟨j, by omega, high, here, rfl⟩

end

section
variable {α : Type} {rq : Rq} {ix : Nat} {v : UserView} {post : α → UserView → Prop}

theorem page_call_allocates {op : PageOp} {rest : op.Ans → Rx α} (fair : Fair (.page op) v)
    (more : ∀ r b, PageStep op r v b → cleanCall (.queue (.allocRxMpwqe ix)) (.page op) r →
      Allocates ix (onDevice rq.dev (rest r)) post b) :
    Allocates ix (onDevice rq.dev ((pageCall op).bind rest)) post v :=
  ⟨fair, fun r b here => more r b here.1 here.2⟩

theorem quiet_allocates {op : KernelOp} {rest : op.Ans → Kernel α} (fair : Fair op v)
    (same : ∀ r b, UserStep op r v b → b = v)
    (more : ∀ r, cleanCall (.queue (.allocRxMpwqe ix)) op r → Allocates ix (rest r) post v) :
    Allocates ix (.call op rest) post v :=
  ⟨fair, fun r b here => same r b here.1 ▸ more r here.2⟩

variable (api : DmaApi rq.dev)
include api

theorem map_slot_allocates {page : Page} {iova : Nat} {first : Bool} (positive : iova ≠ 0)
    (fits : iova < DMA_MAPPING_ERROR) (inside : v.Inside ⟨iova, PAGE_SIZE⟩)
    (empty : ∀ x, (⟨iova, PAGE_SIZE⟩ : Range).Has x → v.pt x = none) :
    Allocates ix (onDevice rq.dev (dmaCall (.dmaMapPageAttrsIova page iova first 0 PAGE_SIZE)))
      (fun ret b => ret = iova ∧ b = v.mapPages ⟨iova, PAGE_SIZE⟩ (pageToPhys page)) v := by
  have whole : iovaAlign (PAGE_SIZE + 0) = PAGE_SIZE := by decide
  have last : ∀ b, b = v.mapPages ⟨iova, PAGE_SIZE⟩ (pageToPhys page) →
      Allocates ix (.done iova) (fun ret b => ret = iova ∧
        b = v.mapPages ⟨iova, PAGE_SIZE⟩ (pageToPhys page)) b := fun b mapped => ⟨rfl, mapped⟩
  simp only [onDevice, dmaCall, Tree.ask, Tree.interp_call, Tree.interp_done, dmaImpl,
    map_iova_route api, Tree.bind_done, map_page_iova_eq, mapPageTail, dma_map_eq,
    page_address_aligned, whole, Tree.bind_eq]
  refine quiet_allocates trivial (fun _ _ step => step) fun attach attached => ?_
  obtain rfl : attach = false := attached
  simp only [Bool.false_eq_true, ↓reduceIte, ne_eq, positive, not_false_eq_true, placeAt, iommuMapAtomic,
    _iommuMap, iommuCall, Tree.bind_eq, Tree.ask_bind, Tree.pure_eq, Nat.sub_zero, Nat.add_zero]
  refine ⟨⟨inside, empty⟩, fun ret b here => ?_⟩
  obtain rfl : ret = (0 : Int) := here.2
  have mapped : b = v.mapPages ⟨iova, PAGE_SIZE⟩ (pageToPhys page) := by
    simpa only [UserStep, IommuStep, ↓reduceIte] using here.1
  have placed : iova ≠ DMA_MAPPING_ERROR := Nat.ne_of_lt fits
  simp only [true_and]
  split
  · refine ⟨trivial, fun _ c step => ?_⟩
    obtain rfl : c = b := step.1
    simpa [placed] using last c mapped
  · simpa [placed] using last b mapped

/- Slot i of a new batch. -/
theorem page_alloc_allocates {base i : Nat} {pages : Nat → Page} {d : DmaInfo}
    (regular : rq.xskPool = false) (positive : base ≠ 0) (aligned : base % PAGE_SIZE = 0)
    (fits : base + PAGE_SIZE * 64 ≤ 2 ^ 64) (below : i < 64) (part : Part base pages 0 i v) :
    Allocates ix (onDevice rq.dev (mlx5ePageAlloc rq (prepareSlot true base i d))) (fun out b =>
      out.1 = 0 ∧ out.2.addr = base + i * 4096 ∧ ∃ p, out.2.buffer = .page p ∧
        (∀ j < i, pages j ≠ p) ∧ Part base (Function.update pages i p) 0 (i + 1) b) v := by
  obtain ⟨batched, place, -, -⟩ := prepare_slot_batched base i d
  generalize prepareSlot true base i d = slot at *
  simp only [mlx5ePageAlloc, regular, Bool.false_eq_true, ↓reduceIte, mlx5ePageAllocPool, Tree.bind_eq]
  refine page_call_allocates trivial fun got b step _ => ?_
  cases got with
  | some got =>
    -- the cache of a queue that only batches is empty
    obtain ⟨rest, front, _⟩ := step
    rw [part.cache] at front
    cases front
  | none =>
    obtain rfl : b = v := step
    refine page_call_allocates trivial fun got c step found => ?_
    cases got with
    | none => exact absurd rfl found
    | some page =>
      obtain ⟨free, rfl⟩ := step
      have member : (b.setPage page (some 0)).Inside ⟨slot.iova, PAGE_SIZE⟩ := by
        refine ⟨⟨base, PAGE_SIZE * 64⟩, (part.range _).mpr rfl, fun x here => ?_⟩
        rw [place] at here
        have there := (page_place aligned).mp here
        simp only [Range.Has, PAGE_SIZE] at there ⊢
        omega
      have empty : ∀ x, (⟨slot.iova, PAGE_SIZE⟩ : Range).Has x →
          (b.setPage page (some 0)).pt x = none := by
        intro x here
        rw [place] at here
        by_contra present
        obtain ⟨frame, present⟩ := Option.ne_none_iff_exists'.mp present
        obtain ⟨j, low, there, _⟩ := (part.pt x frame).mp present
        have := (page_place aligned).mp here
        omega
      have error : slot.iova < DMA_MAPPING_ERROR := by
        rw [place]
        simp only [DMA_MAPPING_ERROR, PAGE_SIZE] at fits aligned ⊢
        omega
      simp only [mapSlotPage, batched, ↓reduceIte, onDevice, Tree.interp_bind]
      refine Meets.bind (map_slot_allocates api (by omega) error member empty) ?_
      rintro ret c ⟨rfl, rfl⟩
      rw [if_neg (Nat.ne_of_lt error)]
      refine page_call_allocates (by simp [Fair, UserView.setPage, UserView.mapPages]) fun _ c step _ => ?_
      obtain rfl := step
      refine ⟨rfl, place, page, rfl, fun j low same => ?_, ?_⟩
      · have stored := (part.page page _).mpr ⟨j, Nat.zero_le j, low, same, rfl⟩
        rw [free] at stored
        cases stored
      · rw [place]
        exact part_with_page aligned part free

structure Filled (base : Nat) (pages : Nat → Page) (i : Nat) (dmaInfo : Nat → DmaInfo)
    (mtts : Nat → Nat) : Prop where
  buffer : ∀ j < i, (dmaInfo j).buffer = .page (pages j)
  addr : ∀ j < i, (dmaInfo j).addr = base + j * 4096
  entry : ∀ j < i, mtts j = (base + j * 4096) ||| MLX5_EN_WR
  distinct : ∀ j < i, ∀ k < i, pages j = pages k → j = k

omit api in
theorem filled_more {base i : Nat} {pages : Nat → Page} {dmaInfo : Nat → DmaInfo} {mtts : Nat → Nat}
    {d : DmaInfo} {p : Page} (filled : Filled base pages i dmaInfo mtts) (buffer : d.buffer = .page p)
    (addr : d.addr = base + i * 4096) (new : ∀ j < i, pages j ≠ p) :
    Filled base (Function.update pages i p) (i + 1) (Function.update dmaInfo i d)
      (Function.update mtts i (d.addr ||| MLX5_EN_WR)) := by
  have cases_ : ∀ {j}, j < i + 1 → j < i ∧ j ≠ i ∨ j = i := by
    intro j below
    omega
  refine ⟨fun j below => ?_, fun j below => ?_, fun j below => ?_, fun j below k under same => ?_⟩
  · rcases cases_ below with ⟨low, other⟩ | rfl
    · simpa [Function.update_of_ne other] using filled.buffer j low
    · simpa using buffer
  · rcases cases_ below with ⟨low, other⟩ | rfl
    · simpa [Function.update_of_ne other] using filled.addr j low
    · simpa using addr
  · rcases cases_ below with ⟨low, other⟩ | rfl
    · simpa [Function.update_of_ne other] using filled.entry j low
    · simp [addr]
  · rcases cases_ below with ⟨low, other⟩ | rfl
    · rcases cases_ under with ⟨little, different⟩ | rfl
      · rw [Function.update_of_ne other, Function.update_of_ne different] at same
        exact filled.distinct j low k little same
      · rw [Function.update_of_ne other, Function.update_self] at same
        exact absurd same (new j low)
    · rcases cases_ under with ⟨little, different⟩ | rfl
      · rw [Function.update_self, Function.update_of_ne different] at same
        exact absurd same.symm (new k little)
      · rfl

theorem alloc_loop_allocates {base left i : Nat} {pages : Nat → Page} {dmaInfo : Nat → DmaInfo}
    {mtts : Nat → Nat} (regular : rq.xskPool = false) (positive : base ≠ 0)
    (aligned : base % PAGE_SIZE = 0) (fits : base + PAGE_SIZE * 64 ≤ 2 ^ 64) (all : i + left = 64)
    (part : Part base pages 0 i v) (filled : Filled base pages i dmaInfo mtts) :
    Allocates ix (onDevice rq.dev (allocLoop rq base left i dmaInfo mtts)) (fun run b => run.err = 0 ∧
      ∃ pages, Part base pages 0 64 b ∧ Filled base pages 64 run.dmaInfo run.inlineMtts) v := by
  induction left generalizing i pages dmaInfo mtts v with
  | zero =>
    obtain rfl : i = 64 := by omega
    exact ⟨rfl, pages, part, filled⟩
  | succ left ih =>
    simp only [allocLoop, api.mapped, onDevice, Tree.bind_eq, Tree.interp_bind]
    refine Meets.bind (page_alloc_allocates api regular positive aligned fits (by omega) part) ?_
    rintro ⟨err, di⟩ b ⟨good, addr, p, buffer, new, more⟩
    dsimp only at good
    subst good
    simp only [ne_eq, not_true_eq_false, ↓reduceIte]
    exact ih (by omega) more (filled_more filled buffer addr new)

theorem alloc_allocates {wi : MpwInfo} (regular : rq.xskPool = false) :
    Allocates ix (onDevice rq.dev (mlx5eAllocRxMpwqe rq wi)) (fun out b => out.1 = 0 ∧
      ∃ batch : Batch, Whole batch b ∧ Posted batch out.2.1 out.2.2) nothingSeen := by
  simp only [mlx5eAllocRxMpwqe, regular, Bool.false_eq_true, ↓reduceIte, Tree.pure_eq, Tree.bind_eq,
    Tree.done_bind, batchBase, api.mapped, MLX5_MPWRQ_PAGES_PER_WQE]
  refine ⟨trivial, fun base b here => ?_⟩
  obtain ⟨step, some_base⟩ := here
  rcases step with ⟨none, _⟩ | ⟨positive, aligned, fits, _, _, _, rfl⟩
  · exact absurd none some_base
  · have start : Part base (fun _ => ⟨1, Nat.one_pos⟩) 0 0
        { nothingSeen with range := fun r => r = ⟨base, 4096 * 64⟩ ∨ nothingSeen.range r } := by
      refine ⟨fun p a => ?_, fun r => ?_, fun x frame => ?_, rfl⟩
      · simp [nothingSeen]
      · simp [nothingSeen, PAGE_SIZE]
      · simp [nothingSeen]
    have none : Filled base (fun _ => ⟨1, Nat.one_pos⟩) 0 wi.dmaInfo fun _ => 0 :=
      ⟨fun _ below => absurd below (Nat.not_lt_zero _), fun _ below => absurd below (Nat.not_lt_zero _),
        fun _ below => absurd below (Nat.not_lt_zero _), fun _ below => absurd below (Nat.not_lt_zero _)⟩
    change Allocates ix (onDevice rq.dev (allocBatch rq wi base)) _ _
    simp only [allocBatch, onDevice, Tree.bind_eq, Tree.pure_eq, Tree.interp_bind, MLX5_MPWRQ_PAGES_PER_WQE]
    refine Meets.bind (alloc_loop_allocates api regular positive aligned fits (Nat.zero_add 64) start
      none) ?_
    rintro run b ⟨good, pages, part, filled⟩
    simp only [good, ne_eq, not_true_eq_false, ↓reduceIte]
    exact ⟨rfl, ⟨base, pages, positive, aligned, fits, filled.distinct⟩, part,
      filled.buffer, filled.addr, filled.entry, rfl⟩

end

section
variable {rq : Rq} {v : UserView} {b : Batch} {i : Nat}

/- Pages 0 to 62 leave with their address cleared and nothing unmapped. -/
theorem skip_release_alone (part : Part b.base b.page i 64 v) (below : i < 64) :
    RxAlone rq (mlx5ePageReleaseDynamic (b.page i) false (4096 * 64) false)
      (fun _ => Part b.base b.page (i + 1) 64) v := by
  have mine : v.page (b.page i) = some (b.addr i) :=
    (part.page _ _).mpr ⟨i, Nat.le_refl i, below, rfl, rfl⟩
  simp only [mlx5ePageReleaseDynamic, mlx5ePageDmaUnmap, Bool.false_eq_true, ↓reduceIte, Tree.bind_eq,
    ne_eq, Nat.reduceMul, OfNat.ofNat_ne_zero, not_false_eq_true, Tree.bind_assoc]
  refine page_call_alone (by simp [Fair, mine]) fun addr b step => ?_
  obtain ⟨_, rfl⟩ := step
  refine page_call_alone (by simp [Fair, mine]) fun _ b step => ?_
  obtain rfl := step
  refine page_call_alone (by simp [Fair, UserView.setPage]) fun _ b step => ?_
  obtain rfl := step
  refine page_call_alone (by simp [Fair, UserView.setPage]) fun _ b step => ?_
  obtain rfl := step
  exact part_without_page part below

/- After the range is gone and the last page with it, nothing is left. -/
theorem part_emptied (part : Part b.base b.page 63 64 v) :
    (((withoutRange v b.range).setPage (b.page 63) (some 0)).setPage (b.page 63) none) = nothingSeen := by
  refine UserView.ext (funext fun p => ?_) (funext fun r => ?_) (funext fun x => ?_) part.cache
  · simp only [UserView.setPage, withoutRange, Function.update_idem, nothingSeen]
    by_cases same : p = b.page 63
    · rw [same, Function.update_self]
    · rw [Function.update_of_ne same]
      cases here : v.page p with
      | none => rfl
      | some a =>
        obtain ⟨j, low, high, place, _⟩ := (part.page p a).mp here
        obtain rfl : j = 63 := by omega
        exact absurd place.symm same
  · simp only [UserView.setPage, withoutRange, nothingSeen, part.range, eq_iff_iff, iff_false]
    exact fun both => both.2 both.1
  · simp only [UserView.setPage, withoutRange, fill, nothingSeen]
    split
    · rfl
    · rename_i outside
      cases here : v.pt x with
      | none => rfl
      | some frame =>
        obtain ⟨j, high, place, _⟩ := (part.pt x frame).mp here
        exact absurd (batch_has.mpr ⟨j, high, place⟩) outside

/- Page 63 finds the base again, and the whole batch goes. -/
theorem last_release_alone (api : DmaApi rq.dev) (part : Part b.base b.page 63 64 v) :
    RxAlone rq (mlx5ePageReleaseDynamic (b.page 63) false (4096 * 64) true)
      (fun _ b => b = nothingSeen) v := by
  have mine : v.page (b.page 63) = some (b.addr 63) :=
    (part.page _ _).mpr ⟨63, Nat.le_refl 63, by decide, rfl, rfl⟩
  have fits := b.fits
  have aligned := b.aligned
  have start : sub64 (b.addr 63) (63 * 4096) = b.base := by
    refine sub64_back ?_
    simp only [PAGE_SIZE] at fits
    omega
  have whole : iovaAlign (PAGE_SIZE * 64) = PAGE_SIZE * 64 := by decide
  have range : unmapRange b.base (PAGE_SIZE * 64) = b.range := by
    simp [unmapRange, iovaOffset, aligned, whole, Batch.range]
  have unmapped : RxAlone rq (dmaCall (.dmaUnmapPageAttrsIova b.base (PAGE_SIZE * 64) (4096 * 64) true))
      (fun _ c => c = withoutRange v b.range) v := by
    simp only [RxAlone, onDevice, dmaCall, Tree.ask, Tree.interp_call, Tree.interp_done, dmaImpl,
      unmap_iova_route api, Tree.bind_done]
    have held : v.range (unmapRange b.base (PAGE_SIZE * 64)) := range ▸ (part.range _).mpr rfl
    have found := unmap_page_alone held
    rw [range] at found
    refine Meets.mono found ?_
    rintro _ c (same | ⟨_, absent⟩)
    · exact same
    · -- page 0 is gone, but its mapping is not
      have present := (part.pt (b.base / PAGE_SIZE) _).mpr ⟨0, by decide, rfl, rfl⟩
      exact absurd (absent _ present) (Nat.pos_iff_ne_zero.mp (b.page 0).pos)
  simp only [mlx5ePageReleaseDynamic, mlx5ePageDmaUnmap, Bool.false_eq_true, ↓reduceIte, Tree.bind_eq,
    ne_eq, Nat.reduceMul, OfNat.ofNat_ne_zero, not_false_eq_true, Tree.bind_assoc]
  refine page_call_alone (by simp [Fair, mine]) fun addr c step => ?_
  obtain ⟨stored, rfl⟩ := step
  obtain rfl : b.addr 63 = addr := Option.some.inj (mine.symm.trans stored)
  rw [show (63 * 4096 : Nat) = 258048 from rfl] at start
  rw [start]
  unfold RxAlone onDevice
  rw [Tree.interp_bind]
  refine Meets.bind unmapped ?_
  rintro _ _ rfl
  refine page_call_alone (by simp [Fair, withoutRange, mine]) fun _ d step => ?_
  obtain rfl := step
  refine page_call_alone (by simp [Fair, UserView.setPage]) fun _ d step => ?_
  obtain rfl := step
  refine page_call_alone (by simp [Fair, UserView.setPage]) fun _ d step => ?_
  obtain rfl := step
  exact part_emptied part

theorem free_loop_alone (api : DmaApi rq.dev) (regular : rq.xskPool = false) {left : Nat}
    {bitmap : Nat → Bool} {recycle : Bool} {dmaInfo : Nat → DmaInfo} (all : i + (left + 1) = 64)
    (part : Part b.base b.page i 64 v) (buffer : ∀ j < 64, (dmaInfo j).buffer = .page (b.page j)) :
    RxAlone rq (freeLoop rq true bitmap recycle (left + 1) i dmaInfo) (fun _ b => b = nothingSeen) v := by
  induction left generalizing i dmaInfo v with
  | zero =>
    obtain rfl : i = 63 := by omega
    simp only [freeLoop, Bool.true_or, ↓reduceIte, api.mapped, mlx5ePageRelease, regular,
      Bool.false_eq_true, buffer 63 (by decide), Tree.bind_eq, Tree.pure_eq, RxAlone, onDevice,
      Tree.interp_bind]
    exact Meets.bind (last_release_alone api part) fun _ _ gone => gone
  | succ left ih =>
    have below : i < 64 := by omega
    unfold freeLoop
    simp only [Bool.true_or, ↓reduceIte, api.mapped, mlx5ePageRelease, regular, Bool.false_eq_true,
      buffer i below, Tree.bind_eq, inner_slot (show i < 63 by omega), RxAlone, onDevice, Tree.interp_bind]
    refine Meets.bind (skip_release_alone part below) fun _ c more => ?_
    refine ih (by omega) more fun j under => ?_
    by_cases same : j = i
    · subst same
      simp only [Function.update_self]
    · rw [Function.update_of_ne same]
      exact buffer j under

theorem free_wqe_alone (api : DmaApi rq.dev) (regular : rq.xskPool = false) {wi : MpwInfo}
    {mtts : Nat → Nat} {recycle : Bool} (whole : Whole b v) (posted : Posted b wi mtts) :
    RxAlone rq (mlx5eFreeRxMpwqe rq wi recycle) (fun _ b => b = nothingSeen) v := by
  have empty : bitmapEmpty wi.xdpXmitBitmap = true := by
    rw [posted.noXdp]
    rfl
  simp only [mlx5eFreeRxMpwqe, empty, Tree.bind_eq, Tree.pure_eq, RxAlone, onDevice, Tree.interp_bind]
  exact Meets.bind (free_loop_alone api regular (show 0 + (63 + 1) = 64 from rfl) whole posted.buffer)
    fun _ _ gone => gone

end

end BatchedJobs
