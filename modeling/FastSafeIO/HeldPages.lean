import FastSafeIO.BatchMapping

/- The pages of an allocated WQE, on any device and whether they come from the page pool
   or from the rx page cache. -/
namespace HeldPages
open CallTree KernelCalls DmaLayer DmaCalls RxDriver IommuWorld BatchMapping

/-- b has the page pool, the rx page caches and the stored addresses of a. -/
structure SamePages (a b : World) : Prop where
  dmaAddr : b.dmaAddr = a.dmaAddr
  held : b.held = a.held
  cache : b.cache = a.cache

def OnIommu : KernelOp → Prop
  | .page _ => False
  | .iommu _ => True

theorem iommu_keeps_pages {u : Nat} {op : IommuOp} {r : op.Ans} {a b : World}
    (run : exec u (.iommu op) r a = some b) : SamePages a b := by
  cases op
  case iommuDmaAllocIova =>
    rcases exec_alloc_iova.mp run with ⟨_, rfl⟩ | ⟨_, _, _, _, _, rfl⟩ <;> exact ⟨rfl, rfl, rfl⟩
  case iommuDmaFreeIova =>
    rw [exec_free_iova.mp run]
    split <;> exact ⟨rfl, rfl, rfl⟩
  case __iommuMap =>
    rw [exec_map.mp run]
    split <;> exact ⟨rfl, rfl, rfl⟩
  case fqDomain =>
    rw [(exec_fq_domain.mp run).2]
    exact ⟨rfl, rfl, rfl⟩
  case iommuUnmapFast =>
    rw [(exec_unmap_fast.mp run).2]
    exact ⟨rfl, rfl, rfl⟩
  case iommuIotlbSync =>
    rw [exec_sync.mp run]
    split <;> exact ⟨rfl, rfl, rfl⟩
  case iommuIovaToPhys =>
    rw [(exec_iova_to_phys.mp run).2]
    exact ⟨rfl, rfl, rfl⟩
  all_goals
    cases some_state.mp run
    exact ⟨rfl, rfl, rfl⟩

theorem iommu_run_keeps_pages {u : Nat} {t : Kernel α} {w last : World} {trace : List KernelEvent}
    {a : α} (ran : Exec (exec u) t w trace a last) (calls : t.Calls OnIommu) : SamePages w last := by
  induction ran with
  | done => exact ⟨rfl, rfl, rfl⟩
  | @call op rest r w mid last trace a here _ ih =>
    cases op with
    | page op => exact absurd calls.1 id
    | iommu op =>
      have first := iommu_keeps_pages here
      have later := ih (calls.2 r)
      exact ⟨later.dmaAddr.trans first.dmaAddr, later.held.trans first.held,
        later.cache.trans first.cache⟩

theorem dma_impl_on_iommu (dev : Device) (op : DmaOp) : (dmaImpl dev (.dma op)).Calls OnIommu := by
  apply (dma_impl_calls dev (.dma op)).mono
  intro low made
  cases low with
  | iommu low => trivial
  | page low =>
    cases op
    case iommuDmaAllocIova => cases made
    all_goals rcases made with ⟨_, made⟩ | made <;> cases made

/-- The rx page cache has different pages, all of them out of the pool. -/
structure CacheSound (w : World) : Prop where
  nodup : (w.cache 0).Nodup
  held : ∀ page ∈ w.cache 0, w.held page = true

/-- The page came out of the pool or the cache, and nothing else was taken. -/
structure Took (page : Page) (addr : Nat) (w last : World) : Prop where
  addr : last.dmaAddr page = addr
  others : ∀ p ≠ page, last.dmaAddr p = w.dmaAddr p
  held : ∀ p, last.held p = true ↔ w.held p = true ∨ p = page
  cache : (w.held page = false ∧ last.cache 0 = w.cache 0) ∨ w.cache 0 = page :: last.cache 0

/-- The first i slots have different pages that are nobody else's, under their addresses. -/
structure SlotsHeld (i : Nat) (dmaInfo : Nat → DmaInfo) (w : World) : Prop where
  cache : CacheSound w
  slot : ∀ j < i, ∃ page, (dmaInfo j).buffer = .page page ∧ w.dmaAddr page = (dmaInfo j).addr ∧
    w.held page = true ∧ page ∉ w.cache 0
  distinct : ∀ j < i, ∀ k < i, (dmaInfo j).buffer = (dmaInfo k).buffer → j = k

theorem Took.new {page p : Page} {addr : Nat} {w last : World} (took : Took page addr w last)
    (held : w.held p = true) (kept : p ∉ w.cache 0) : p ≠ page := by
  rintro rfl
  rcases took.cache with ⟨idle, _⟩ | head
  · rw [held] at idle
    cases idle
  · rw [head] at kept
    exact kept List.mem_cons_self

theorem Took.sound {page : Page} {addr : Nat} {w last : World} (took : Took page addr w last)
    (sound : CacheSound w) : CacheSound last ∧ page ∉ last.cache 0 ∧
      ∀ p ∈ last.cache 0, p ∈ w.cache 0 := by
  rcases took.cache with ⟨idle, same⟩ | head
  · refine ⟨⟨by rw [same]; exact sound.nodup, fun p member => ?_⟩, fun member => ?_, fun p member => ?_⟩
    · rw [same] at member
      exact (took.held p).mpr (Or.inl (sound.held p member))
    · rw [same] at member
      rw [sound.held page member] at idle
      cases idle
    · rwa [same] at member
  · have nodup := sound.nodup
    rw [head] at nodup
    have inside : ∀ p ∈ last.cache 0, p ∈ w.cache 0 := fun p member =>
      head ▸ List.mem_cons_of_mem page member
    refine ⟨⟨(List.nodup_cons.mp nodup).2, fun p member => ?_⟩, (List.nodup_cons.mp nodup).1, inside⟩
    exact (took.held p).mpr (Or.inl (sound.held p (inside p member)))

theorem SlotsHeld.fill {i : Nat} {dmaInfo : Nat → DmaInfo} {w last : World} {page : Page} {di : DmaInfo}
    (before : SlotsHeld i dmaInfo w) (buffer : di.buffer = .page page)
    (took : Took page di.addr w last) : SlotsHeld (i + 1) (Function.update dmaInfo i di) last := by
  obtain ⟨sound, away, inside⟩ := took.sound before.cache
  have other : ∀ j < i, (dmaInfo j).buffer ≠ .page page := by
    intro j below same
    obtain ⟨p, here, _, held, kept⟩ := before.slot j below
    rw [here] at same
    cases same
    exact took.new held kept rfl
  refine ⟨sound, fun j below => ?_, fun j low k high same => ?_⟩
  · by_cases here : j = i
    · subst here
      rw [Function.update_self]
      exact ⟨page, buffer, took.addr, (took.held page).mpr (Or.inr rfl), away⟩
    · obtain ⟨p, there, addr, held, kept⟩ := before.slot j (by omega)
      rw [Function.update_of_ne here]
      exact ⟨p, there, (took.others p (took.new held kept)).trans addr,
        (took.held p).mpr (Or.inl held), fun member => kept (inside p member)⟩
  · by_cases first : j = i
    · by_cases second : k = i
      · exact first.trans second.symm
      · subst first
        rw [Function.update_self, Function.update_of_ne second, buffer] at same
        exact absurd same.symm (other k (by omega))
    · by_cases second : k = i
      · subst second
        rw [Function.update_self, Function.update_of_ne first, buffer] at same
        exact absurd same (other j (by omega))
      · rw [Function.update_of_ne first, Function.update_of_ne second] at same
        exact before.distinct j (by omega) k (by omega) same

section
variable {rq : Rq} (regular : rq.xskPool = false)
include regular

theorem page_alloc_takes {di : DmaInfo} {w : World} (sound : CacheSound w) :
    Ensures (exec 0) (onDevice rq.dev (mlx5ePageAlloc rq di)) w fun _ out last =>
      out.1 = 0 → ∃ page, out.2.buffer = .page page ∧ Took page out.2.addr w last := by
  have refused : (-ENOMEM : Int) ≠ 0 := by decide
  unfold mlx5ePageAlloc
  rw [regular]
  simp only [Bool.false_eq_true, ↓reduceIte, mlx5ePageAllocPool, Tree.bind_eq, Tree.pure_eq]
  apply device_page_call
  intro got mid here
  cases got with
  | some got =>
    obtain ⟨page, addr⟩ := got
    obtain ⟨rest, cached, stored, rfl⟩ := exec_cache_hit.mp here
    have held := sound.held page (cached ▸ List.mem_cons_self)
    apply device_done
    refine fun _ => ⟨page, rfl, stored, fun _ _ => rfl, fun p => ?_, Or.inr ?_⟩
    · constructor
      · exact Or.inl
      · rintro (out | rfl)
        · exact out
        · exact held
    · simpa [World.setCache] using cached
  | none =>
    cases exec_cache_miss.mp here
    apply device_page_call
    intro got mid here
    cases got with
    | none => exact device_done fun good => absurd good refused
    | some page =>
      obtain ⟨idle, rfl⟩ := exec_pool_page.mp here
      have aside : Ensures (exec 0) (onDevice rq.dev (mapSlotPage di page)) (w.hold page true)
          fun _ _ last => SamePages (w.hold page true) last := by
        constructor
        intro trace addr last ran
        apply iommu_run_keeps_pages ran
        unfold mapSlotPage
        split <;> exact (dma_impl_on_iommu rq.dev _).bind fun _ => trivial
      apply device_bind aside
      intro trace addr mid same
      by_cases failed : addr = DMA_MAPPING_ERROR
      · rw [if_pos failed]
        apply device_page_call
        intro ans last here
        exact device_done fun good => absurd good refused
      · rw [if_neg failed]
        apply device_page_call
        intro ans last here
        cases exec_set_addr.mp here
        apply device_done
        refine fun _ => ⟨page, rfl, by simp [World.setDmaAddr], fun p other => ?_, fun p => ?_,
          Or.inl ⟨idle, ?_⟩⟩
        · simp [World.setDmaAddr, Function.update_of_ne other, same.dmaAddr, World.hold]
        · by_cases this : p = page
          · subst this
            simp [World.setDmaAddr, same.held, World.hold]
          · simp [World.setDmaAddr, same.held, World.hold, this]
        · simp [World.setDmaAddr, same.cache, World.hold]

theorem alloc_loop_holds (base left : Nat) {i : Nat} {dmaInfo : Nat → DmaInfo} {mtts : Nat → Nat}
    {w : World} (before : SlotsHeld i dmaInfo w) :
    Ensures (exec 0) (onDevice rq.dev (allocLoop rq base left i dmaInfo mtts)) w fun _ out last =>
      out.err = 0 → SlotsHeld (i + left) out.dmaInfo last := by
  induction left generalizing i dmaInfo mtts w with
  | zero => exact device_done fun _ => before
  | succ left ih =>
    simp only [allocLoop, Tree.bind_eq, Tree.pure_eq]
    apply device_bind (page_alloc_takes regular before.cache)
    intro trace out mid takes
    by_cases failed : out.1 = 0
    · obtain ⟨page, buffer, took⟩ := takes failed
      rw [if_neg (not_not_intro failed)]
      apply Ensures.mono (ih (before.fill buffer took))
      intro _ run last holds good
      have slots := holds good
      rwa [Nat.add_right_comm, Nat.add_assoc] at slots
    · rw [if_pos failed]
      exact device_done fun good => absurd good failed

/-- A WQE that was allocated holds 64 different pages under their addresses. -/
theorem alloc_wqe_holds (wi : MpwInfo) {w : World} (sound : CacheSound w) :
    Ensures (exec 0) (onDevice rq.dev (mlx5eAllocRxMpwqe rq wi)) w fun _ out last =>
      out.1 = 0 → SlotsHeld 64 out.2.1.dmaInfo last := by
  have start : ∀ base mid, SamePages w mid →
      Ensures (exec 0) (onDevice rq.dev (allocBatch rq wi base)) mid fun _ out last =>
        out.1 = 0 → SlotsHeld 64 out.2.1.dmaInfo last := by
    intro base mid same
    have none : SlotsHeld 0 wi.dmaInfo mid :=
      ⟨⟨by rw [same.cache]; exact sound.nodup, by rw [same.cache, same.held]; exact sound.held⟩,
        fun _ below => absurd below (Nat.not_lt_zero _), fun _ below => absurd below (Nat.not_lt_zero _)⟩
    apply device_alloc_batch rq (P := fun _ dmaInfo _ last => SlotsHeld 64 dmaInfo last)
    apply (alloc_loop_holds regular base 64 none).mono
    intro trace run last holds good
    simpa using holds good
  simp only [mlx5eAllocRxMpwqe, regular, Bool.false_eq_true, ↓reduceIte, Tree.bind_eq, Tree.pure_eq,
    Tree.done_bind]
  have aside : Ensures (exec 0) (onDevice rq.dev (batchBase rq)) w fun _ _ mid => SamePages w mid := by
    constructor
    intro trace base mid ran
    apply iommu_run_keeps_pages ran
    unfold batchBase
    split
    · exact (dma_impl_on_iommu rq.dev _).bind fun _ => trivial
    · trivial
  apply device_bind aside
  intro trace base mid same
  exact start base mid same

end

end HeldPages
