import FastSafeIO.ReleaseProtection

/- The driver functions against the protection invariant, and from them every run of
   the receive queue. -/
namespace DriverProtection
open CallTree KernelCalls DmaLayer RxDriver IommuWorld AgentPool RxQueue ReleaseProtection

/- Every page is tracked at the address stored in it. -/
def Sound (w : World) : Prop := Calm w.dmaAddr w.held w

theorem steady_sound : Steady Sound := by
  intro a b sound access
  have calm := steady_calm a.dmaAddr a.held a b sound access
  exact ⟨rfl, rfl, by rw [calm.1, calm.2.1]; exact calm.2.2⟩

theorem sound_of_calm {addr : Page → Nat} {held : Page → Bool} {w : World}
    (calm : Calm addr held w) : Sound w := by
  refine ⟨rfl, rfl, ?_⟩
  rw [calm.1, calm.2.1]
  exact calm.2.2

theorem steady_sound_protected (page : Page) : Steady fun w => Sound w ∧ Protected page w :=
  steady_and steady_sound (steady_protected page)

theorem sound_set_addr {page : Page} {w : World} (sound : Sound w) (safe : Protected page w)
    (addr : Nat) : Sound (w.setDmaAddr page addr) := by
  have moved := tracked_of_protected sound.2.2 safe
    (Function.update w.dmaAddr page addr) w.held
    (fun q other => Function.update_of_ne other _ _) (fun _ _ => rfl)
  exact ⟨rfl, rfl, moved.pte, moved.tlb⟩

theorem sound_hold {page : Page} {w : World} (sound : Sound w) (safe : Protected page w)
    (out : Bool) : Sound (w.hold page out) := by
  have moved := tracked_of_protected sound.2.2 safe
    w.dmaAddr (Function.update w.held page out)
    (fun _ _ => rfl) (fun q other => Function.update_of_ne other _ _)
  exact ⟨rfl, rfl, moved.pte, moved.tlb⟩

theorem idle_page_protected {page : Page} {w : World} (sound : Sound w)
    (idle : w.held page = false) : Protected page w := by
  have nowhere : ∀ x, ¬ MappedAt w.dmaAddr w.held x page.pfn := by
    rintro x ⟨q, frame, out, _⟩
    rw [pfn_injective frame, idle] at out
    exact Bool.false_ne_true out
  exact ⟨fun x present => nowhere x (sound.2.2.pte x _ present),
    fun x member => nowhere x (sound.2.2.tlb x _ member).1⟩

section
variable {rq : Rq} {kinds : RxJob → Prop} {L : RxLimits} {job : RxJob} {mem : RxMem}
  {α β : Type} {post : α → World → Prop}

/- A driver program keeps the queue sound, and its result meets post. -/
def Keeps (rq : Rq) (kinds : RxJob → Prop) (L : RxLimits) (job : RxJob) (mem : RxMem)
    (t : Rx α) (post : α → World → Prop) (w : World) : Prop :=
  Safe (protecting rq kinds) L () job mem post (onDevice rq.dev t) w

theorem keeps_done {a : α} {w : World} (steady : Steady (post a)) (now : post a w) :
    Keeps rq kinds L job mem (.done a) post w := fine_done steady now

theorem keeps_bind {t : Rx α} {next : α → Rx β} {last : β → World → Prop} {w : World}
    (strict : w.fq = false) (first : Keeps rq kinds L job mem t post w)
    (rest : ∀ a now, now.fq = false → post a now → Keeps rq kinds L job mem (next a) last now) :
    Keeps rq kinds L job mem (t.bind next) last w := by
  simp only [Keeps, onDevice, Tree.interp_bind]
  exact Safe.bind strict first rest

theorem keeps_page_call {op : PageOp} {rest : op.Ans → Rx α} {w : World} {A : World → Prop}
    (steady : Steady A) (now : A w)
    (release : ∀ a page, A a → leaving (.page op) = some page → Protected page a)
    (fire : ∀ a r b, A a → a.fq = false → L.call () job mem (.page op) r a →
      exec 0 (.page op) r a = some b → Keeps rq kinds L job mem (rest r) post b) :
    Keeps rq kinds L job mem ((pageCall op).bind rest) post w :=
  fine_call steady now release fire

theorem forget_addr_keeps {page : Page} {w : World} (still : Sound w ∧ Protected page w) :
    Keeps rq kinds L job mem (pageCall (.pagePoolSetDmaAddr page 0))
      (fun _ w => Sound w ∧ Protected page w) w := by
  refine keeps_page_call (steady_sound_protected page) still (by simp [leaving, givenUp]) ?_
  intro a _ b kept _ _ run
  obtain ⟨sound, safe⟩ := kept
  rw [exec_set_addr.mp run]
  exact keeps_done (steady_sound_protected page) ⟨sound_set_addr sound safe 0, safe⟩

theorem recycle_direct_keeps {page : Page} {a : α} {w : World} (still : Sound w ∧ Protected page w) :
    Keeps rq kinds L job mem ((pageCall (.pagePoolRecycleDirect page)).bind fun _ => .done a)
      (fun _ => Sound) w := by
  refine keeps_page_call (steady_sound_protected page) still
    (fun a p both gives => Option.some.inj gives ▸ both.2) ?_
  intro a _ b kept _ _ run
  obtain ⟨sound, safe⟩ := kept
  rw [exec_recycle.mp run]
  exact keeps_done steady_sound (sound_hold sound safe false)

variable (api : DmaApi rq.dev)
include api

theorem unmap_single_keeps {page : Page} {freeIova : Bool} {w : World} (now : Sound w) :
    Keeps rq kinds L job mem (mlx5ePageDmaUnmap page 0 freeIova)
      (fun _ w => Sound w ∧ Protected page w) w := by
  simp only [mlx5ePageDmaUnmap, ne_eq, not_true_eq_false, ↓reduceIte, Tree.bind_eq]
  refine keeps_page_call steady_sound now (by simp [leaving, givenUp]) ?_
  intro a addr b sound strict _ run
  obtain ⟨rfl, rfl⟩ := exec_get_addr.mp run
  have unmapped : Keeps rq kinds L job mem (dmaCall (.dmaUnmapPageAttrs (b.dmaAddr page) PAGE_SIZE))
      (fun _ w => Sound w ∧ Protected page w) b := by
    simp only [Keeps, onDevice, dmaCall, Tree.ask, Tree.interp_call, dmaImpl, unmap_route api]
    refine Safe.bind strict
      (unmap_page_fine False (by decide) (show Calm b.dmaAddr b.held b from sound) False.elim) ?_
    rintro - w _ ⟨calm, gone, -⟩
    exact fine_done (steady_sound_protected page)
      ⟨sound_of_calm calm, gone_page_protected calm.2.2 gone⟩
  exact keeps_bind strict unmapped fun _ _ _ still => forget_addr_keeps still

/- The batch unmap reaches the page when the subtraction gives the start of 64 pages
   that end with it, and that start is still mapped. -/
def BatchStarts (page : Page) (w : World) : Prop :=
  sub64 (w.dmaAddr page) (63 * 4096) + 63 * 4096 = w.dmaAddr page ∧
    w.pt (sub64 (w.dmaAddr page) (63 * 4096) / PAGE_SIZE) ≠ none

omit api in
theorem steady_batch_starts (page : Page) : Steady (BatchStarts page) :=
  steady_tables fun _ _ same => same

omit api in
theorem batch_covers_last (start : Nat) :
    (unmapRange start (PAGE_SIZE * 64)).Has ((start + 63 * 4096) / PAGE_SIZE) := by
  simp only [unmapRange, Range.Has, iovaOffset, iovaAlign, PAGE_SIZE]
  omega

theorem unmap_batch_keeps {page : Page} {iovaSize : Nat} {w : World} (some_size : iovaSize ≠ 0)
    (now : Sound w) (starts : BatchStarts page w) :
    Keeps rq kinds L job mem (mlx5ePageDmaUnmap page iovaSize true)
      (fun _ w => Sound w ∧ Protected page w) w := by
  simp only [mlx5ePageDmaUnmap, ne_eq, some_size, not_false_eq_true, ↓reduceIte, Tree.bind_eq]
  refine keeps_page_call (steady_and steady_sound (steady_batch_starts page)) ⟨now, starts⟩
    (by simp [leaving, givenUp]) ?_
  intro a addr b kept strict _ run
  obtain ⟨sound, starts⟩ := kept
  obtain ⟨rfl, rfl⟩ := exec_get_addr.mp run
  have unmapped : Keeps rq kinds L job mem (dmaCall (.dmaUnmapPageAttrsIova
        (sub64 (b.dmaAddr page) (63 * 4096)) (PAGE_SIZE * 64) iovaSize true))
      (fun _ w => Sound w ∧ Protected page w) b := by
    simp only [Keeps, onDevice, dmaCall, Tree.ask, Tree.interp_call, dmaImpl, unmap_iova_route api]
    refine Safe.bind strict
      (unmap_page_fine True (by decide) (show Calm b.dmaAddr b.held b from sound)
        fun _ => starts.2) ?_
    rintro - w _ ⟨calm, -, gone⟩
    have last := gone trivial _ (batch_covers_last _)
    rw [starts.1] at last
    exact fine_done (steady_sound_protected page)
      ⟨sound_of_calm calm, gone_page_protected calm.2.2 last⟩
  exact keeps_bind strict unmapped fun _ _ _ still => forget_addr_keeps still

omit api in
theorem sound_cache {w : World} (sound : Sound w) (u : Nat) (pages : List Page) :
    Sound (w.setCache u pages) := ⟨rfl, rfl, sound.2.2.pte, sound.2.2.tlb⟩

omit api in
theorem release_page_keeps {page : Page} {iovaSize : Nat} {freeIova : Bool} {w : World}
    (strict : w.fq = false)
    (unmapped : Keeps rq kinds L job mem (mlx5ePageDmaUnmap page iovaSize freeIova)
      (fun _ w => Sound w ∧ Protected page w) w) :
    Keeps rq kinds L job mem (mlx5ePageReleaseDynamic page false iovaSize freeIova)
      (fun _ => Sound) w := by
  simp only [mlx5ePageReleaseDynamic, Bool.false_eq_true, ↓reduceIte, Tree.bind_eq]
  refine keeps_bind strict unmapped ?_
  rintro - w _ still
  refine keeps_page_call (steady_sound_protected page) still
    (fun a p both gives => Option.some.inj gives ▸ both.2) ?_
  intro a _ b still _ _ run
  rw [exec_release_page.mp run]
  refine keeps_page_call (steady_sound_protected page) still
    (fun a p both gives => Option.some.inj gives ▸ both.2) ?_
  intro a _ b kept _ _ run
  obtain ⟨sound, safe⟩ := kept
  rw [exec_put_page.mp run]
  exact keeps_done steady_sound (sound_hold sound safe false)

/- Recycling a page: the cache may keep it mapped, the pool gets it unmapped. -/
theorem recycle_page_keeps {page : Page} {recycle freeIova : Bool} {w : World} (now : Sound w)
    (strict : w.fq = false) :
    Keeps rq kinds L job mem (mlx5ePageReleaseDynamic page recycle 0 freeIova)
      (fun _ => Sound) w := by
  cases recycle with
  | false => exact release_page_keeps strict (unmap_single_keeps api now)
  | true =>
    simp only [mlx5ePageReleaseDynamic, ↓reduceIte, Tree.bind_eq]
    refine keeps_page_call steady_sound now (by simp [leaving, givenUp]) ?_
    intro a accepted b sound strict _ run
    have stored := exec_cache_put.mp run
    cases accepted with
    | true => exact keeps_done steady_sound (stored ▸ sound_cache sound 0 _)
    | false =>
      subst stored
      exact keeps_bind strict (unmap_single_keeps api sound) fun _ _ _ still =>
        recycle_direct_keeps (a := ()) still

omit api in
theorem sound_of_placed {page : Page} {iova : Nat} {addr : Page → Nat} {held : Page → Bool}
    {w : World} (placed : Placed page iova addr held w) : Sound (w.setDmaAddr page iova) := by
  obtain ⟨rfl, rfl, tracked⟩ := placed
  exact ⟨rfl, rfl, tracked.pte, tracked.tlb⟩

theorem map_slot_keeps {page : Page} {dmaInfo : DmaInfo} {w : World}
    (aligned : dmaInfo.iova % PAGE_SIZE = 0) (strict : w.fq = false) (out : w.held page = true)
    (sound : Sound w) (safe : Protected page w) :
    Keeps rq kinds L job mem (mapSlotPage dmaInfo page)
      (fun ret => MapResult page (ret = DMA_MAPPING_ERROR) ret w.dmaAddr w.held) w := by
  unfold mapSlotPage
  cases dmaInfo.batchIova with
  | true =>
    simp only [Keeps, onDevice, dmaCall, Tree.ask, Tree.interp_call, Tree.interp_done, dmaImpl,
      map_iova_route api, ↓reduceIte, Tree.bind_done]
    exact map_page_fine aligned out strict ⟨sound, safe⟩
  | false =>
    simp only [Keeps, onDevice, dmaCall, Tree.ask, Tree.interp_call, Tree.interp_done, dmaImpl,
      map_route api, Bool.false_eq_true, ↓reduceIte, Tree.bind_done]
    exact map_page_fine (Nat.zero_mod _) out strict ⟨sound, safe⟩

theorem alloc_pool_keeps {dmaInfo : DmaInfo} {w : World} (now : Sound w)
    (aligned : dmaInfo.iova % PAGE_SIZE = 0) :
    Keeps rq kinds L job mem (mlx5ePageAllocPool rq dmaInfo) (fun _ => Sound) w := by
  simp only [mlx5ePageAllocPool, Tree.bind_eq, Tree.pure_eq]
  refine keeps_page_call steady_sound now (by simp [leaving, givenUp]) ?_
  intro a got b sound strict _ run
  cases got with
  | some got =>
    obtain ⟨rest, _, _, rfl⟩ := exec_cache_hit.mp run
    exact keeps_done steady_sound (sound_cache sound 0 rest)
  | none =>
    rw [exec_cache_miss.mp run]
    refine keeps_page_call steady_sound sound (by simp [leaving, givenUp]) ?_
    intro a got b sound strict _ run
    cases got with
    | none =>
      rw [exec_pool_empty.mp run]
      exact keeps_done steady_sound sound
    | some page =>
      obtain ⟨idle, rfl⟩ := exec_pool_page.mp run
      have safe : Protected page a := idle_page_protected sound idle
      have out : (a.hold page true).held page = true := by simp [World.hold]
      refine keeps_bind (w := a.hold page true) strict (map_slot_keeps api aligned strict out
        (sound_hold sound safe true) safe) ?_
      intro ret w strict result
      split
      · rename_i failed
        exact recycle_direct_keeps ⟨sound_of_calm (result.1 failed).1, (result.1 failed).2⟩
      · rename_i good
        have steady := steady_map_result page (ret = DMA_MAPPING_ERROR) ret (a.hold page true).dmaAddr
          (a.hold page true).held
        refine keeps_page_call steady result (by simp [leaving, givenUp]) ?_
        intro a _ b result _ _ run
        rw [exec_set_addr.mp run]
        exact keeps_done steady_sound (sound_of_placed (result.2 good))

omit api in
theorem xsk_alloc_keeps {dmaInfo : DmaInfo} {w : World} (now : Sound w) :
    Keeps rq kinds L job mem (mlx5eXskPageAllocPool dmaInfo)
      (fun out w => Sound w ∧ ∀ page, out.2.buffer ≠ .page page) w := by
  simp only [mlx5eXskPageAllocPool, Tree.bind_eq, Tree.pure_eq]
  refine keeps_page_call steady_sound now (by simp [leaving, givenUp]) ?_
  intro a got b sound _ _ run
  rw [exec_xsk_alloc.mp run]
  cases got with
  | none => exact keeps_done (steady_and steady_sound fun _ _ pure _ => pure) ⟨sound, by simp⟩
  | some got => exact keeps_done (steady_and steady_sound fun _ _ pure _ => pure) ⟨sound, by simp⟩

/- Slots of an AF_XDP queue never hold pages of the pool. -/
def SlotsOk (rq : Rq) (dmaInfo : Nat → DmaInfo) : Prop :=
  rq.xskPool = true → ∀ i page, (dmaInfo i).buffer ≠ .page page

omit api in
theorem steady_with_pure {A : World → Prop} (steady : Steady A) (p : Prop) :
    Steady fun w => A w ∧ p := steady_and steady fun _ _ pure _ => pure

omit api in
theorem slots_update {dmaInfo : Nat → DmaInfo} {i : Nat} {di : DmaInfo} (slots : SlotsOk rq dmaInfo)
    (here : rq.xskPool = true → ∀ page, di.buffer ≠ .page page) :
    SlotsOk rq (Function.update dmaInfo i di) := by
  intro xsk j page
  by_cases same : j = i
  · subst same
    simpa using here xsk page
  · simpa [Function.update_of_ne same] using slots xsk j page

theorem page_alloc_keeps {dmaInfo : DmaInfo} {w : World} (now : Sound w)
    (aligned : dmaInfo.iova % PAGE_SIZE = 0) :
    Keeps rq kinds L job mem (mlx5ePageAlloc rq dmaInfo)
      (fun out w => Sound w ∧ (rq.xskPool = true → ∀ page, out.2.buffer ≠ .page page)) w := by
  unfold mlx5ePageAlloc
  split
  · exact Safe.mono (xsk_alloc_keeps now) fun _ _ _ both => ⟨both.1, fun _ => both.2⟩
  · rename_i regular
    exact Safe.mono (alloc_pool_keeps api now aligned) fun _ _ _ sound =>
      ⟨sound, fun xsk => absurd xsk regular⟩

omit api in
theorem prepare_slot_aligned {fands : Bool} {iovaBase i : Nat} {dmaInfo : DmaInfo}
    (aligned : iovaBase % PAGE_SIZE = 0) :
    (prepareSlot fands iovaBase i dmaInfo).iova % PAGE_SIZE = 0 := by
  simp only [PAGE_SIZE] at aligned ⊢
  unfold prepareSlot
  split
  · split <;> simp <;> omega
  · rfl

theorem alloc_loop_keeps {iovaBase left i : Nat} {dmaInfo : Nat → DmaInfo} {mtts : Nat → Nat}
    {w : World} (aligned : iovaBase % PAGE_SIZE = 0) (now : Sound w) (strict : w.fq = false)
    (slots : SlotsOk rq dmaInfo) :
    Keeps rq kinds L job mem (allocLoop rq iovaBase left i dmaInfo mtts)
      (fun run w => Sound w ∧ SlotsOk rq run.dmaInfo) w := by
  induction left generalizing i dmaInfo mtts w with
  | zero => exact keeps_done (steady_with_pure steady_sound _) ⟨now, slots⟩
  | succ left ih =>
    simp only [allocLoop, Tree.bind_eq, Tree.pure_eq]
    refine keeps_bind strict (page_alloc_keeps api now (prepare_slot_aligned aligned)) ?_
    rintro ⟨err, di⟩ w strict ⟨sound, here⟩
    dsimp only
    split
    · exact keeps_done (steady_with_pure steady_sound _) ⟨sound, slots_update slots here⟩
    · exact ih sound strict (slots_update slots here)

omit api in
/- A slot without a page of the pool gives none up. -/
theorem release_no_page_keeps {di : DmaInfo} {recycle : Bool} {A : World → Prop} {w : World}
    (steady : Steady A) (now : A w) (empty : ∀ page, di.buffer ≠ .page page) :
    Keeps rq kinds L job mem (mlx5ePageRelease rq di recycle) (fun _ => A) w := by
  unfold mlx5ePageRelease
  split
  · split
    · refine keeps_page_call steady now (by simp [leaving, givenUp]) ?_
      intro a _ b still _ _ run
      rw [exec_xsk_free.mp run]
      exact keeps_done steady still
    · exact keeps_done steady now
  · split
    · rename_i page holds
      exact absurd holds (empty page)
    · exact keeps_done steady now

omit api in
/- The unwinding gives no page up as long as the rx cache takes them all. -/
theorem err_unmap_keeps {count : Nat} {dmaInfo : Nat → DmaInfo} {w : World}
    (accepts : ∀ page r a, L.call () job mem (.page (.rxCachePut page)) r a → r = true)
    (now : Sound w) (strict : w.fq = false) (slots : SlotsOk rq dmaInfo) :
    Keeps rq kinds L job mem (errUnmap rq count dmaInfo)
      (fun dmaInfo w => Sound w ∧ SlotsOk rq dmaInfo) w := by
  induction count generalizing dmaInfo w with
  | zero => exact keeps_done (steady_with_pure steady_sound _) ⟨now, slots⟩
  | succ i ih =>
    simp only [errUnmap, Tree.bind_eq]
    generalize newSlot : (if (dmaInfo i).batchIova then dmaInfo i
      else { dmaInfo i with iovaSize := 0 }) = di
    have sameBuffer : di.buffer = (dmaInfo i).buffer := by
      subst newSlot
      split <;> rfl
    have released : Keeps rq kinds L job mem (mlx5ePageRelease rq di true) (fun _ => Sound) w := by
      by_cases empty : ∀ page, di.buffer ≠ .page page
      · exact release_no_page_keeps steady_sound now empty
      · simp only [ne_eq, not_forall, not_not] at empty
        obtain ⟨page, holds⟩ := empty
        have regular : rq.xskPool = false := by
          rw [← Bool.not_eq_true]
          exact fun xsk => slots xsk i page (sameBuffer ▸ holds)
        simp only [mlx5ePageRelease, regular, Bool.false_eq_true, holds, mlx5ePageReleaseDynamic,
          ↓reduceIte, Tree.bind_eq]
        refine keeps_page_call steady_sound now (by simp [leaving, givenUp]) ?_
        intro a accepted b sound _ allowed run
        obtain rfl : accepted = true := accepts _ _ _ allowed
        rw [exec_cache_put.mp run]
        exact keeps_done steady_sound (sound_cache sound 0 _)
    refine keeps_bind strict released fun _ w strict sound => ih sound strict ?_
    exact slots_update slots fun xsk page => sameBuffer ▸ slots xsk i page

theorem alloc_wqe_keeps {wi : MpwInfo} {w : World}
    (accepts : ∀ page r a, L.call () job mem (.page (.rxCachePut page)) r a → r = true)
    (now : Sound w) (strict : w.fq = false) (slots : SlotsOk rq wi.dmaInfo) :
    Keeps rq kinds L job mem (mlx5eAllocRxMpwqe rq wi)
      (fun out w => Sound w ∧ SlotsOk rq out.2.1.dmaInfo) w := by
  have finish : ∀ iovaBase w, iovaBase % PAGE_SIZE = 0 → Sound w → w.fq = false →
      Keeps rq kinds L job mem (allocBatch rq wi iovaBase)
        (fun out w => Sound w ∧ SlotsOk rq out.2.1.dmaInfo) w := by
    intro iovaBase w aligned sound strict
    simp only [allocBatch, Tree.bind_eq, Tree.pure_eq]
    refine keeps_bind strict (alloc_loop_keeps api aligned sound strict slots) ?_
    rintro run w strict ⟨sound, slots⟩
    split
    · refine keeps_bind strict (err_unmap_keeps accepts sound strict slots) ?_
      exact fun dmaInfo w _ both => keeps_done (steady_with_pure steady_sound _) both
    · exact keeps_done (steady_with_pure steady_sound _) ⟨sound, slots⟩
  have based : ∀ w, Sound w → w.fq = false →
      Keeps rq kinds L job mem ((batchBase rq).bind (allocBatch rq wi))
        (fun out w => Sound w ∧ SlotsOk rq out.2.1.dmaInfo) w := by
    intro w sound strict
    unfold batchBase
    split
    · refine fine_call steady_sound sound (by simp [leaving, givenUp]) ?_
      intro a iovaBase b sound strict _ run
      rcases exec_alloc_iova.mp run with ⟨rfl, rfl⟩ | ⟨_, aligned, _, _, _, rfl⟩
      · exact finish 0 b (Nat.zero_mod _) sound strict
      · exact finish iovaBase _ aligned ⟨rfl, rfl, sound.2.2.pte, sound.2.2.tlb⟩ strict
    · exact finish 0 w (Nat.zero_mod _) sound strict
  simp only [mlx5eAllocRxMpwqe, Tree.bind_eq, Tree.pure_eq]
  split
  · refine keeps_page_call steady_sound now (by simp [leaving, givenUp]) ?_
    intro a enough b sound strict _ run
    rw [exec_xsk_can.mp run]
    split
    · exact based a sound strict
    · exact keeps_done (steady_with_pure steady_sound _) ⟨sound, slots⟩
  · exact based w now strict

/- Of the pages the loop still has to release only page 63 may be one of the pool, and
   its batch is in place. -/
def FreeableFrom (i : Nat) (bitmap : Nat → Bool) (noXdpXmit : Bool) (dmaInfo : Nat → DmaInfo)
    (w : World) : Prop :=
  ∀ j page, i ≤ j → j < MLX5_MPWRQ_PAGES_PER_WQE → (noXdpXmit || !bitmap j) = true →
    (dmaInfo j).buffer = .page page → j = 63 ∧ BatchStarts page w

omit api in
theorem steady_freeable (i : Nat) (bitmap : Nat → Bool) (noXdpXmit : Bool)
    (dmaInfo : Nat → DmaInfo) : Steady (FreeableFrom i bitmap noXdpXmit dmaInfo) :=
  fun a b freeable access j page low high out holds =>
    ⟨(freeable j page low high out holds).1,
      steady_batch_starts page a b (freeable j page low high out holds).2 access⟩

omit api in
theorem freeable_next {i : Nat} {bitmap : Nat → Bool} {noXdpXmit : Bool}
    {dmaInfo : Nat → DmaInfo} {di : DmaInfo} {w : World}
    (freeable : FreeableFrom i bitmap noXdpXmit dmaInfo w) :
    FreeableFrom (i + 1) bitmap noXdpXmit (Function.update dmaInfo i di) w := by
  intro j page low high out holds
  rw [Function.update_of_ne (by omega)] at holds
  exact freeable j page (by omega) high out holds

theorem free_loop_keeps {noXdpXmit recycle : Bool} {bitmap : Nat → Bool} {left i : Nat}
    {dmaInfo : Nat → DmaInfo} {w : World} (fits : i + left = MLX5_MPWRQ_PAGES_PER_WQE)
    (now : Sound w) (strict : w.fq = false) (slots : SlotsOk rq dmaInfo)
    (freeable : FreeableFrom i bitmap noXdpXmit dmaInfo w) :
    Keeps rq kinds L job mem (freeLoop rq noXdpXmit bitmap recycle left i dmaInfo)
      (fun out w => Sound w ∧ SlotsOk rq out) w := by
  induction left generalizing i dmaInfo w with
  | zero => exact keeps_done (steady_with_pure steady_sound _) ⟨now, slots⟩
  | succ left ih =>
    simp only [MLX5_MPWRQ_PAGES_PER_WQE] at fits
    unfold freeLoop
    split
    · rename_i out
      simp only [api.mapped, ↓reduceIte, Tree.bind_eq]
      generalize newSlot : ({ dmaInfo i with
        iovaSize := 4096 * 64, batchIova := true,
        freeIova := i == MLX5_MPWRQ_PAGES_PER_WQE - 1 } : DmaInfo) = di
      have sameBuffer : di.buffer = (dmaInfo i).buffer := by rw [← newSlot]
      have slots : SlotsOk rq (Function.update dmaInfo i di) :=
        slots_update slots fun xsk page => sameBuffer ▸ slots xsk i page
      have steady := steady_and steady_sound
        (steady_freeable (i + 1) bitmap noXdpXmit (Function.update dmaInfo i di))
      have released : Keeps rq kinds L job mem (mlx5ePageRelease rq di false)
          (fun _ w => Sound w ∧
            FreeableFrom (i + 1) bitmap noXdpXmit (Function.update dmaInfo i di) w) w := by
        by_cases empty : ∀ page, di.buffer ≠ .page page
        · exact release_no_page_keeps steady ⟨now, freeable_next freeable⟩ empty
        · simp only [ne_eq, not_forall, not_not] at empty
          obtain ⟨page, holds⟩ := empty
          have regular : rq.xskPool = false := by
            rw [← Bool.not_eq_true]
            intro xsk
            exact slots xsk i page (by simpa using holds)
          obtain ⟨rfl, starts⟩ := freeable i page (Nat.le_refl i)
            (by simp only [MLX5_MPWRQ_PAGES_PER_WQE]; omega) out (sameBuffer ▸ holds)
          simp only [mlx5ePageRelease, regular, Bool.false_eq_true, ↓reduceIte, holds]
          subst newSlot
          refine Safe.mono (release_page_keeps strict
            (unmap_batch_keeps api (show 4096 * 64 ≠ 0 by decide) now starts)) ?_
          -- nothing is left to release
          intro _ w _ sound
          exact ⟨sound, fun j page low high _ _ => by
            simp only [MLX5_MPWRQ_PAGES_PER_WQE] at high
            omega⟩
      refine keeps_bind strict released fun _ w strict both => ?_
      exact ih (by simp only [MLX5_MPWRQ_PAGES_PER_WQE]; omega) both.1 strict slots both.2
    · exact ih (by simp only [MLX5_MPWRQ_PAGES_PER_WQE]; omega) now strict slots
        fun j page low high out holds => freeable j page (by omega) high out holds

def FreeableAt (wi : MpwInfo) (w : World) : Prop :=
  FreeableFrom 0 wi.xdpXmitBitmap false wi.dmaInfo w

omit api in
theorem bitmap_empty_clear {bitmap : Nat → Bool} {j : Nat} (empty : bitmapEmpty bitmap = true)
    (below : j < MLX5_MPWRQ_PAGES_PER_WQE) : bitmap j = false := by
  simpa using List.all_eq_true.mp empty j (List.mem_range.mpr below)

theorem free_wqe_keeps {wi : MpwInfo} {recycle : Bool} {w : World} (now : Sound w)
    (strict : w.fq = false) (slots : SlotsOk rq wi.dmaInfo) (freeable : FreeableAt wi w) :
    Keeps rq kinds L job mem (mlx5eFreeRxMpwqe rq wi recycle)
      (fun out w => Sound w ∧ SlotsOk rq out.dmaInfo) w := by
  simp only [mlx5eFreeRxMpwqe, Tree.bind_eq, Tree.pure_eq]
  refine keeps_bind strict (free_loop_keeps api rfl now strict slots ?_) ?_
  · intro j page low high out holds
    refine freeable j page low high ?_ holds
    cases empty : bitmapEmpty wi.xdpXmitBitmap with
    | true => simp [bitmap_empty_clear empty high]
    | false => simpa [empty] using out
  · exact fun _ _ _ both => keeps_done (steady_with_pure steady_sound _) both

end

/- The jobs that a WQE and its pages go through. -/
def wqeJobs : RxJob → Prop
  | .allocRxMpwqe _ | .freeRxMpwqe _ _ | .xdpRedirect _ _ | .xdpTx _ _ | .xdpTxComplete _ => True
  | _ => False

/- While a WQE is being allocated the rx cache takes every page offered to it; a WQE is
   freed only when XDP took all its pages, page 63 apart if its batch is in place. -/
def orderly : RxLimits where
  start _ job mem w :=
    match job with
    | .freeRxMpwqe ix _ => FreeableAt (mem.wqe ix) w
    | _ => True
  call _ job _ op r _ :=
    match job, op, r with
    | .allocRxMpwqe _, .page (.rxCachePut _), accepted => accepted = true
    | _, _, _ => True

def QueueOk (rq : Rq) (_ : Unit) (mem : RxMem) (w : World) : Prop :=
  Sound w ∧ ∀ ix, SlotsOk rq (mem.wqe ix).dmaInfo

theorem steady_queue_ok (rq : Rq) (mem : RxMem) : Steady (QueueOk rq () mem) :=
  steady_with_pure steady_sound _

theorem slots_set_wqe {rq : Rq} {mem : RxMem} {ix : Nat} {wi : MpwInfo}
    (slots : ∀ ix, SlotsOk rq (mem.wqe ix).dmaInfo) (here : SlotsOk rq wi.dmaInfo) (j : Nat) :
    SlotsOk rq (Function.update mem.wqe ix wi j).dmaInfo := by
  by_cases same : j = ix
  · subst same
    simpa using here
  · simpa [Function.update_of_ne same] using slots j

section
variable {rq : Rq} (api : DmaApi rq.dev) {mem : RxMem} {w : World}
include api

theorem xdp_handle_keeps {L : RxLimits} {job : RxJob} {page : Page} (regular : rq.xskPool = false)
    (now : Sound w) (strict : w.fq = false) :
    Keeps rq wqeJobs L job mem (mlx5eXdpHandle rq page) (fun _ => Sound) w := by
  simp only [mlx5eXdpHandle, regular, Bool.not_false, ↓reduceIte, Tree.bind_eq]
  refine keeps_bind strict (unmap_single_keeps api now) ?_
  rintro - w _ still
  refine keeps_page_call (steady_sound_protected page) still
    (fun a p both gives => Option.some.inj gives ▸ both.2) ?_
  intro a _ b kept _ _ run
  obtain ⟨sound, safe⟩ := kept
  rw [exec_hand_over.mp run]
  exact keeps_done steady_sound (sound_hold sound safe false)

theorem job_is_safe {job : RxJob} (strict : w.fq = false) (fine : QueueOk rq () mem w)
    (can : wqeJobs job ∧ ready job mem) (allowed : orderly.start () job mem w) :
    Safe (protecting rq wqeJobs) orderly () job mem (QueueOk rq ()) (body rq job mem) w := by
  obtain ⟨sound, slots⟩ := fine
  have steady := steady_queue_ok rq
  cases job with
  | allocRxMpwqe ix =>
    simp only [body, Tree.bind_eq, Tree.pure_eq]
    refine Safe.bind strict
      (alloc_wqe_keeps api (fun _ _ _ accepted => accepted) sound strict (slots ix)) ?_
    rintro ⟨err, wi, mtts⟩ w _ ⟨sound, here⟩
    exact fine_done (steady _) ⟨sound, slots_set_wqe slots here⟩
  | freeRxMpwqe ix recycle =>
    simp only [body, Tree.bind_eq, Tree.pure_eq]
    refine Safe.bind strict (free_wqe_keeps api sound strict (slots ix) allowed) ?_
    rintro wi w _ ⟨sound, here⟩
    exact fine_done (steady _) ⟨sound, slots_set_wqe slots here⟩
  | xdpRedirect ix i =>
    simp only [body]
    split
    · rename_i page holds
      have regular : rq.xskPool = false := by
        rw [← Bool.not_eq_true]
        exact fun xsk => slots ix xsk i page holds
      simp only [Tree.bind_eq, Tree.pure_eq]
      refine Safe.bind strict (xdp_handle_keeps api regular sound strict) ?_
      rintro - w _ sound
      exact fine_done (steady _) ⟨sound, slots_set_wqe slots (slots ix)⟩
    · exact fine_done (steady _) ⟨sound, slots⟩
  | xdpTx ix i =>
    simp only [body]
    split
    · exact fine_done (steady _) ⟨sound, slots_set_wqe slots (slots ix)⟩
    · exact fine_done (steady _) ⟨sound, slots⟩
  | xdpTxComplete recycle =>
    simp only [body]
    split
    · exact fine_done (steady _) ⟨sound, slots⟩
    · simp only [Tree.bind_eq, Tree.pure_eq]
      refine Safe.bind strict (recycle_page_keeps api sound strict) ?_
      rintro - w _ sound
      exact fine_done (steady _) ⟨sound, slots⟩
  | freeRq => exact absurd can.1 id
  | buildShampoHdUmr => exact absurd can.1 id
  | shampoDeallocHd => exact absurd can.1 id
  | freeRxShampoHdEntry => exact absurd can.1 id

end

theorem start_queue_ok (rq : Rq) : QueueOk rq () .initial (startWorld false) := by
  refine ⟨⟨rfl, rfl, ?_, ?_⟩, ?_⟩
  · intro x f present
    simp [startWorld] at present
  · intro x f member
    simp [startWorld] at member
  · intro ix _ i page holds
    simp [RxMem.initial, DmaInfo.zeroed] at holds

/- Whenever the driver is about to give a page up, the device cannot reach it. -/
def ReleasesProtected (rq : Rq) (L : RxLimits) : Prop :=
  ∀ (d : RxConfig) (job : RxJob) (mem : RxMem) (op : KernelOp) (rest : op.Ans → Kernel RxMem)
    (page : Page), Reaches (rxPool rq wqeJobs) L (startConfig false) d →
    d.phase () = .busy job mem (.call op rest) → givenUp op = some page → Protected page d.world

theorem orderly_releases_are_protected (rq : Rq) (api : DmaApi rq.dev) :
    ReleasesProtected rq orderly := by
  intro d job mem op rest page run busy gives
  have ok := run_calls_ok (D := protecting rq wqeJobs) (L := orderly) (QueueOk rq)
    (fun _ mem a b fine _ moved => steady_star (steady_queue_ok rq mem) fine moved)
    (fun _ _ _ _ strict fine can allowed => Safe.mono (job_is_safe api strict fine can allowed)
      fun _ _ _ fine => ⟨fine, trivial⟩)
    (c := startConfig false) ⟨rfl, fun _ => start_queue_ok rq⟩ run busy
  exact ok page (leaving_of_given_up gives)

/- The calls that orderly leaves free while a WQE is being allocated. -/
def withoutCachePut : (op : KernelOp) → op.Ans → World → Option World
  | .page (.rxCachePut _), _, _ => none
  | op, r, w => exec 0 op r w

theorem without_cache_put_orderly (op : KernelOp) (r : op.Ans) (a b : World)
    (run : withoutCachePut op r a = some b) :
    orderly.call () (.allocRxMpwqe 0) .initial op r a ∧ exec 0 op r a = some b := by
  cases op with
  | iommu op => exact ⟨trivial, run⟩
  | page op =>
    cases op
    case rxCachePut => simp [withoutCachePut] at run
    all_goals exact ⟨trivial, run⟩

/- A WQE is filled, its page 0 is sent by XDP, and the completion gives the page up. -/

def firstPage : Page := ⟨1, by decide⟩

def filledWqe : Option (List KernelEvent × RxMem × World) :=
  runBy withoutCachePut plentiful.answer (body regularRq (.allocRxMpwqe 0) .initial) (startWorld false)

def pageSent (mem : RxMem) (w : World) : Option (List KernelEvent × RxMem × World) :=
  runBy (exec 0) plentiful.answer (body regularRq (.xdpTx 0 0) mem) w

def pageLeaves (mem : RxMem) (w : World) : Option (Kernel RxMem × World) :=
  advance (exec 0) plentiful.answer 8 (body regularRq (.xdpTxComplete false) mem) w

def releasedNext : Kernel RxMem → Option Page
  | .call (.page (.pagePoolReleasePage page)) _ => some page
  | _ => none

theorem released_next_call {t : Kernel RxMem} {page : Page} (next : releasedNext t = some page) :
    ∃ rest, t = .call (.page (.pagePoolReleasePage page)) rest := by
  unfold releasedNext at next
  split at next
  · cases next
    exact ⟨_, rfl⟩
  · cases next

theorem sent_page_run : (filledWqe.bind fun filled => (pageSent filled.2.1 filled.2.2).bind fun sent =>
    (pageLeaves sent.2.1 sent.2.2).map fun out => ((filled.2.1.posted 0,
      (filled.2.1.wqe 0).xdpXmitBitmap 0, ((filled.2.1.wqe 0).dmaInfo 0).buffer, filled.2.2.pt 0x100),
      sent.2.1.xdpFifo, releasedNext out.1)) =
    some ((true, false, .page firstPage, some 1), [firstPage], some firstPage) := by
  decide +kernel

/- The page was mapped when it was sent. -/
theorem sent_page_is_protected :
    ∃ (c d : RxConfig) (mem : RxMem) (rest : Unit → Kernel RxMem),
      Reaches (rxPool regularRq wqeJobs) orderly (startConfig false) c ∧
      c.world.pt 0x100 = some firstPage.pfn ∧ Reaches (rxPool regularRq wqeJobs) orderly c d ∧
      d.phase () = .busy (.xdpTxComplete false) mem
        (.call (.page (.pagePoolReleasePage firstPage)) rest) ∧ Protected firstPage d.world := by
  obtain ⟨⟨trace, filled, w⟩, ran, rest⟩ := Option.bind_eq_some_iff.mp sent_page_run
  obtain ⟨⟨again, sent, mid⟩, sends, rest⟩ := Option.bind_eq_some_iff.mp rest
  obtain ⟨⟨t, last⟩, leaves, facts⟩ := Option.map_eq_some_iff.mp rest
  simp only [Prod.mk.injEq] at facts
  obtain ⟨⟨posted, free, buffer, mapped⟩, fifo, next⟩ := facts
  obtain ⟨cont, rfl⟩ := released_next_call next
  have alloc := job_returns regularRq wqeJobs orderly (.allocRxMpwqe 0) .initial ⟨trivial, rfl⟩ trivial
    without_cache_put_orderly (runBy_exec ran)
  have first := alloc.tail (job_finishes regularRq wqeJobs orderly _ _ filled w)
  have ready : xdpReady filled 0 0 := ⟨posted, by decide, free, firstPage, buffer⟩
  have send := job_returns regularRq wqeJobs orderly (.xdpTx 0 0) filled ⟨trivial, ready⟩ trivial
    (fun _ _ _ _ same => ⟨trivial, same⟩) (runBy_exec sends)
  have second := send.tail (job_finishes regularRq wqeJobs orderly _ _ sent mid)
  have queued : sent.xdpFifo ≠ [] := by
    rw [fifo]
    exact List.cons_ne_nil _ _
  have third := job_reaches regularRq wqeJobs orderly (.xdpTxComplete false) sent ⟨trivial, queued⟩ trivial
    (fun _ _ _ _ same => ⟨trivial, same⟩) leaves
  have later := second.trans third
  exact ⟨_, _, sent, cont, first, mapped, later, rfl,
    orderly_releases_are_protected regularRq regular_rq_api _ _ _ _ _ firstPage (first.trans later) rfl rfl⟩

/- Page 1 cannot be had, and the unwinding recycles page 0 while it is still mapped. -/
theorem unwinding_recycles_mapped_page : ¬ ∀ rq, DmaApi rq.dev → ReleasesProtected rq .unlimited := by
  intro always
  have out : ∃ last after, advance (exec 0) shortOfPages.answer 11
      (body regularRq (.allocRxMpwqe 0) .initial) (startWorld false) =
        some (.call (.page (.pagePoolRecycleDirect samplePage)) last, after) ∧
      after.pt 256 = some 7 := ⟨_, _, rfl, rfl⟩
  obtain ⟨last, after, out, present⟩ := out
  have run := job_reaches regularRq wqeJobs .unlimited (.allocRxMpwqe 0) .initial ⟨trivial, rfl⟩ trivial
    (fun _ _ _ _ same => ⟨trivial, same⟩) out
  exact (always regularRq regular_rq_api _ _ _ _ _ samplePage run rfl rfl).1 256 present

end DriverProtection
