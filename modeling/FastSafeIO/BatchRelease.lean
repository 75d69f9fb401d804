import FastSafeIO.BatchMapping

/- What the driver's release functions do to a page of a batch on an ordinary device:
   the ranges given back, the page table and the stored addresses afterwards. -/
namespace BatchRelease
open CallTree KernelCalls DmaLayer RxDriver IommuWorld SingleCalls BatchMapping SlotFields

/-- What a step gives back and how it leaves the page table and the stored addresses. -/
def Leaves (ranges : List Range) (pt : Nat → Option Nat) (addrs : Page → Nat)
    (trace : List KernelEvent) (_ : Unit) (last : World) : Prop :=
  freed trace = ranges ∧ last.pt = pt ∧ last.dmaAddr = addrs

theorem freed_append (a b : List KernelEvent) : freed (a ++ b) = freed a ++ freed b :=
  List.filterMap_append

theorem quiet_lookup (iova phys : Nat) :
    freed [⟨.iommu (.iommuIovaToPhys iova), phys⟩] = [] := rfl

theorem freed_between {before trace after : List KernelEvent} (first : freed before = [])
    (last : freed after = []) : freed (before ++ (trace ++ after)) = freed trace := by
  rw [freed_append, freed_append, first, last, List.nil_append, List.append_nil]

section
variable {u : Nat} {addr size iovaSize : Nat} {freeIova : Bool} {w : World}

theorem unmap_absent_ensures {post : List KernelEvent → Unit → World → Prop}
    (absent : w.iovaToPhys addr = 0) (now : post [⟨.iommu (.iommuIovaToPhys addr), (0 : Nat)⟩] () w) :
    Ensures (exec u) (iommuDmaUnmapPageIova addr size iovaSize freeIova) w post := by
  unfold iommuDmaUnmapPageIova
  apply Ensures.call
  intro phys mid here
  obtain ⟨rfl, rfl⟩ := exec_iova_to_phys.mp here
  simp only [absent, Tree.done_bind, ↓reduceIte]
  exact Ensures.done now

theorem unmap_gone (gone : w.pt (addr / PAGE_SIZE) = none) :
    Ensures (exec u) (iommuDmaUnmapPageIova addr size iovaSize freeIova) w
      (Leaves [] w.pt w.dmaAddr) := by
  have absent : w.iovaToPhys addr = 0 := by
    unfold World.iovaToPhys
    rw [gone]
  exact unmap_absent_ensures absent ⟨rfl, rfl, rfl⟩

theorem unmap_range_ensures (aligned : iovaOffset addr = 0) (whole : iovaAlign size = size) :
    Ensures (exec u) (__iommuDmaUnmapIova addr size iovaSize freeIova) w
      (Leaves (if freeIova then [⟨addr, iovaSize⟩] else []) (fill w.pt ⟨addr, size⟩ none)
        w.dmaAddr) := by
  have back : ∀ (gather : IotlbGather) (b : World),
      Ensures (exec u) (giveBack addr iovaSize freeIova gather) b
        (Leaves (if freeIova then [⟨addr, iovaSize⟩] else []) b.pt b.dmaAddr) := by
    intro gather b
    unfold giveBack
    split
    · apply Ensures.call
      intro ans last here
      rw [exec_free_iova.mp here]
      apply Ensures.done
      split <;> exact ⟨rfl, rfl, rfl⟩
    · exact Ensures.done ⟨rfl, rfl, rfl⟩
  rw [unmap_aligned_eq iovaSize freeIova aligned whole]
  apply Ensures.call
  intro queued mid here
  obtain ⟨_, rfl⟩ := exec_fq_domain.mp here
  apply Ensures.call
  intro out mid here
  obtain ⟨rfl, rfl⟩ := exec_unmap_fast.mp here
  dsimp only
  split
  · exact back _ _
  · apply Ensures.call
    intro ans mid here
    rw [exec_sync.mp here]
    exact back _ _

/-- Behind an unmap only the bounce buffer is looked after. -/
inductive Bounce (phys size : Nat) : List KernelEvent → Prop where
  | direct : Bounce phys size [⟨.iommu (.isSwiotlbBuffer phys), false⟩]
  | bounced : Bounce phys size
      [⟨.iommu (.isSwiotlbBuffer phys), true⟩, ⟨.iommu (.swiotlbTblUnmapSingle phys size), ()⟩]

theorem unmap_page_ensures {during post : List KernelEvent → Unit → World → Prop}
    (there : w.iovaToPhys addr ≠ 0)
    (unmap : Ensures (exec u) (__iommuDmaUnmapIova addr size iovaSize freeIova) w during)
    (around : ∀ trace last tail, during trace () last → Bounce (w.iovaToPhys addr) size tail →
      post (⟨.iommu (.iommuIovaToPhys addr), w.iovaToPhys addr⟩ :: (trace ++ tail)) () last) :
    Ensures (exec u) (iommuDmaUnmapPageIova addr size iovaSize freeIova) w post := by
  unfold iommuDmaUnmapPageIova
  apply Ensures.call
  intro phys mid here
  obtain ⟨rfl, rfl⟩ := exec_iova_to_phys.mp here
  simp only [there, Tree.bind_eq, Tree.done_bind, ↓reduceIte]
  apply Ensures.bind unmap
  intro trace _ last after
  apply Ensures.call
  intro bounced mid here
  cases exec_swiotlb_buffer.mp here
  cases bounced
  · exact Ensures.done (around trace _ _ after .direct)
  · apply Ensures.call
    intro ans mid here
    cases exec_swiotlb_unmap.mp here
    exact Ensures.done (around trace _ _ after .bounced)

theorem unmap_present {frame : Nat} (present : w.pt (addr / PAGE_SIZE) = some frame)
    (positive : 0 < frame) (aligned : iovaOffset addr = 0) (whole : iovaAlign size = size) :
    Ensures (exec u) (iommuDmaUnmapPageIova addr size iovaSize freeIova) w
      (Leaves (if freeIova then [⟨addr, iovaSize⟩] else []) (fill w.pt ⟨addr, size⟩ none)
        w.dmaAddr) := by
  apply unmap_page_ensures (present_phys present positive) (unmap_range_ensures aligned whole)
  intro trace last tail after bounce
  have quiet : freed tail = [] := by cases bounce <;> rfl
  exact ⟨(freed_between (quiet_lookup addr _) quiet).trans after.1, after.2⟩

end

/- The DMA call that mlx5e_page_dma_unmap chooses. -/
def unmapCall (dmaAddr iovaSize : Nat) (freeIova : Bool) : Rx Unit :=
  if iovaSize ≠ 0 then
    if freeIova then
      dmaCall (.dmaUnmapPageAttrsIova (sub64 dmaAddr (63 * 4096)) (PAGE_SIZE * 64) iovaSize freeIova)
    else .done ()
  else dmaCall (.dmaUnmapPageAttrs dmaAddr PAGE_SIZE)

theorem page_dma_unmap_eq (page : Page) (iovaSize : Nat) (freeIova : Bool) :
    mlx5ePageDmaUnmap page iovaSize freeIova =
      (pageCall (.pagePoolGetDmaAddr page)).bind fun dmaAddr =>
        (unmapCall dmaAddr iovaSize freeIova).bind fun _ => pageCall (.pagePoolSetDmaAddr page 0) := by
  unfold mlx5ePageDmaUnmap unmapCall
  simp only [Tree.bind_eq]
  congr 1
  funext dmaAddr
  by_cases some_size : iovaSize ≠ 0
  · simp only [if_pos some_size]
    cases freeIova <;> rfl
  · simp only [if_neg some_size]

/-- Only a page-pool call that stores an address changes what pages know. -/
theorem page_call_same {u : Nat} {op : PageOp} {r : op.Ans} {a b : World}
    (plain : ∀ page addr, op ≠ .pagePoolSetDmaAddr page addr) (run : exec u (.page op) r a = some b) :
    b.pt = a.pt ∧ b.dmaAddr = a.dmaAddr := by
  refine ⟨(page_keeps_iommu run).pt, ?_⟩
  cases op
  case rxCacheGet =>
    cases r with
    | none => rw [exec_cache_miss.mp run]
    | some got =>
      obtain ⟨rest, _, _, rfl⟩ := exec_cache_hit.mp run
      rfl
  case rxCachePut => rw [exec_cache_put.mp run]; split <;> rfl
  case rxCacheEntries => rw [(exec_cache_entries.mp run).2]; rfl
  case pagePoolDevAllocPages =>
    cases r with
    | none => rw [exec_pool_empty.mp run]
    | some page => rw [(exec_pool_page.mp run).2]; rfl
  case pagePoolGetDmaAddr => rw [(exec_get_addr.mp run).2]
  case pagePoolSetDmaAddr page addr => exact absurd rfl (plain page addr)
  all_goals
    cases some_state.mp run
    rfl

section
variable {dev : Device} {page : Page} {w : World} {ranges : List Range} {pt : Nat → Option Nat}
  {addrs : Page → Nat}

theorem leaves_page_call {allowed : (op : KernelOp) → op.Ans → Bool} {op : PageOp}
    {rest : op.Ans → Rx Unit} (plain : ∀ page addr, op ≠ .pagePoolSetDmaAddr page addr)
    (each : ∀ r mid, allowed (.page op) r = true → mid.pt = w.pt → mid.dmaAddr = w.dmaAddr →
      Ensures (limited allowed (exec 0)) (onDevice dev (rest r)) mid (Leaves ranges pt addrs)) :
    Ensures (limited allowed (exec 0)) (onDevice dev ((pageCall op).bind rest)) w
      (Leaves ranges pt addrs) := by
  apply device_page_call
  intro r mid here
  obtain ⟨fits, here⟩ := limited_some.mp here
  obtain ⟨tables, known⟩ := page_call_same plain here
  exact each r mid fits tables known

/-- mlx5e_page_dma_unmap makes one DMA call and forgets the address of the page. -/
theorem page_dma_unmap_leaves {iovaSize : Nat} {freeIova : Bool}
    (unmap : Ensures (exec 0) (onDevice dev (unmapCall (w.dmaAddr page) iovaSize freeIova)) w
      (Leaves ranges pt w.dmaAddr)) :
    Ensures (exec 0) (onDevice dev (mlx5ePageDmaUnmap page iovaSize freeIova)) w
      (Leaves ranges pt (Function.update w.dmaAddr page 0)) := by
  rw [page_dma_unmap_eq]
  apply device_page_call
  intro addr mid here
  obtain ⟨rfl, rfl⟩ := exec_get_addr.mp here
  apply device_bind unmap
  intro trace _ last after
  apply Ensures.call
  intro ans mid here
  cases exec_set_addr.mp here
  apply Ensures.done
  obtain ⟨gave, tables, known⟩ := after
  refine ⟨?_, tables, ?_⟩
  · have quiet : freed [⟨.page (.pagePoolGetDmaAddr page), mid.dmaAddr page⟩] = [] := rfl
    exact (freed_between quiet rfl).trans gave
  · rw [← known]
    rfl

theorem leaves_bind {run : (op : KernelOp) → op.Ans → World → Option World} {t : Rx Unit}
    {next : Unit → Rx Unit} (first : Ensures run (onDevice dev t) w (Leaves ranges pt addrs))
    (rest : ∀ mid, Ensures run (onDevice dev (next ())) mid (Leaves [] mid.pt mid.dmaAddr)) :
    Ensures run (onDevice dev (t.bind next)) w (Leaves ranges pt addrs) := by
  apply device_bind first
  intro trace _ mid here
  obtain ⟨gave, tables, known⟩ := here
  apply (rest mid).mono
  intro more _ last later
  refine ⟨?_, later.2.1.trans tables, later.2.2.trans known⟩
  rw [freed_append, gave, later.1, List.append_nil]

theorem quiet_page_call {allowed : (op : KernelOp) → op.Ans → Bool} {op : PageOp}
    {rest : op.Ans → Rx Unit} (plain : ∀ page addr, op ≠ .pagePoolSetDmaAddr page addr)
    (each : ∀ r mid, Ensures (limited allowed (exec 0)) (onDevice dev (rest r)) mid
      (Leaves [] mid.pt mid.dmaAddr)) :
    Ensures (limited allowed (exec 0)) (onDevice dev ((pageCall op).bind rest)) w
      (Leaves [] w.pt w.dmaAddr) := by
  apply leaves_page_call plain
  intro r mid _ tables known
  rw [← tables, ← known]
  exact each r mid

theorem quiet_last_call {allowed : (op : KernelOp) → op.Ans → Bool} (op : PageOp)
    (plain : ∀ page addr, op ≠ .pagePoolSetDmaAddr page addr) :
    Ensures (limited allowed (exec 0)) (onDevice dev (pageCall op)) w fun trace _ last =>
      Leaves [] w.pt w.dmaAddr trace () last := by
  apply Ensures.call
  intro r mid here
  obtain ⟨tables, known⟩ := page_call_same plain (limited_some.mp here).2
  exact Ensures.done ⟨rfl, tables, known⟩

theorem release_leaves {allowed : (op : KernelOp) → op.Ans → Bool} {iovaSize : Nat}
    {recycle freeIova : Bool}
    (refused : recycle = true → allowed (.page (.rxCachePut page)) true = false)
    (unmap : Ensures (exec 0) (onDevice dev (mlx5ePageDmaUnmap page iovaSize freeIova)) w
      (Leaves ranges pt addrs)) :
    Ensures (limited allowed (exec 0))
      (onDevice dev (mlx5ePageReleaseDynamic page recycle iovaSize freeIova)) w
      (Leaves ranges pt addrs) := by
  simp only [mlx5ePageReleaseDynamic, Tree.bind_eq]
  cases recycle with
  | false =>
    apply leaves_bind unmap.limited
    intro mid
    apply quiet_page_call (by simp)
    intro r mid
    exact quiet_last_call (.putPage page) (by simp)
  | true =>
    apply device_page_call
    intro taken mid here
    obtain ⟨fits, here⟩ := limited_some.mp here
    cases taken with
    | true =>
      rw [refused rfl] at fits
      cases fits
    | false =>
      cases exec_cache_put.mp here
      apply leaves_bind unmap.limited
      intro mid
      exact quiet_last_call (.pagePoolRecycleDirect page) (by simp)

theorem kept_release_leaves {allowed : (op : KernelOp) → op.Ans → Bool} {iovaSize : Nat}
    {freeIova : Bool} (taken : allowed (.page (.rxCachePut page)) false = false) :
    Ensures (limited allowed (exec 0))
      (onDevice dev (mlx5ePageReleaseDynamic page true iovaSize freeIova)) w
      (Leaves [] w.pt w.dmaAddr) := by
  simp only [mlx5ePageReleaseDynamic, Tree.bind_eq]
  apply leaves_page_call (by simp)
  intro accepted mid fits tables known
  cases accepted with
  | false =>
    rw [taken] at fits
    cases fits
  | true => exact device_done ⟨rfl, tables, known⟩

end

section
variable {rq : Rq} (api : DmaApi rq.dev) {page : Page} {w : World}

theorem inner_unmap_leaves {dev : Device} {iovaSize : Nat} (some_size : iovaSize ≠ 0) :
    Ensures (exec 0) (onDevice dev (mlx5ePageDmaUnmap page iovaSize false)) w
      (Leaves [] w.pt (Function.update w.dmaAddr page 0)) := by
  apply page_dma_unmap_leaves
  unfold unmapCall
  rw [if_pos some_size]
  exact device_done ⟨rfl, rfl, rfl⟩

include api

theorem gone_unmap_leaves (gone : w.pt (w.dmaAddr page / PAGE_SIZE) = none) :
    Ensures (exec 0) (onDevice rq.dev (mlx5ePageDmaUnmap page 0 true)) w
      (Leaves [] w.pt (Function.update w.dmaAddr page 0)) := by
  apply page_dma_unmap_leaves
  unfold unmapCall
  rw [if_neg (not_not_intro rfl)]
  apply device_dma_call
  simp only [dmaImpl, unmap_route api]
  exact unmap_gone gone

/-- A page released alone frees its own place in the batch. -/
theorem single_unmap_leaves {base i : Nat} (aligned : base % PAGE_SIZE = 0)
    (stands : Stands base i page w) :
    Ensures (exec 0) (onDevice rq.dev (mlx5ePageDmaUnmap page 0 true)) w
      (Leaves [⟨base + i * 4096, PAGE_SIZE⟩] (fill w.pt ⟨base + i * 4096, PAGE_SIZE⟩ none)
        (Function.update w.dmaAddr page 0)) := by
  have offset : iovaOffset (base + i * 4096) = 0 := by
    unfold iovaOffset PAGE_SIZE at *
    omega
  have place : (base + i * 4096) / PAGE_SIZE = base / PAGE_SIZE + i := by
    unfold PAGE_SIZE
    omega
  apply page_dma_unmap_leaves
  unfold unmapCall
  rw [if_neg (not_not_intro rfl)]
  apply device_dma_call
  simp only [dmaImpl, unmap_route api, stands.addr, offset]
  exact unmap_present (place ▸ stands.pte) page.pos offset (by decide)

/-- The last page unmaps and frees the whole batch, provided that page 0 is mapped. -/
theorem last_unmap_leaves {base iovaSize frame : Nat} (aligned : base % PAGE_SIZE = 0)
    (bound : base + batchSize ≤ 2 ^ 64) (some_size : iovaSize ≠ 0)
    (stored : w.dmaAddr page = base + 63 * 4096) (first : w.pt (base / PAGE_SIZE) = some frame)
    (positive : 0 < frame) :
    Ensures (exec 0) (onDevice rq.dev (mlx5ePageDmaUnmap page iovaSize true)) w
      (Leaves [⟨base, iovaSize⟩] (fill w.pt ⟨base, batchSize⟩ none)
        (Function.update w.dmaAddr page 0)) := by
  have start : sub64 (base + 63 * 4096) (63 * 4096) = base := by
    apply sub64_back
    unfold batchSize MLX5_MPWRQ_PAGES_PER_WQE at bound
    omega
  apply page_dma_unmap_leaves
  unfold unmapCall
  rw [if_pos some_size, stored, start]
  apply device_dma_call
  simp only [dmaImpl, unmap_iova_route api]
  exact unmap_present first positive aligned (by decide)

omit api in
theorem page_release_eq (regular : rq.xskPool = false) {D : DmaInfo} (here : D.buffer = .page page)
    (recycle : Bool) : mlx5ePageRelease rq D recycle =
      mlx5ePageReleaseDynamic page recycle D.iovaSize D.freeIova := by
  unfold mlx5ePageRelease
  rw [regular, here]
  rfl

omit api in
theorem stored_later {base i : Nat} {dmaInfo : Nat → DmaInfo} {di : DmaInfo} {addr later : Page → Nat}
    (stored : ∀ j, i ≤ j → j < 64 →
      ∃ page, (dmaInfo j).buffer = .page page ∧ addr page = base + j * 4096)
    (here : addr page = base + i * 4096) (known : later = Function.update addr page 0) :
    ∀ j, i + 1 ≤ j → j < 64 →
      ∃ p, (Function.update dmaInfo i di j).buffer = .page p ∧ later p = base + j * 4096 := by
  intro j low high
  obtain ⟨p, there, place⟩ := stored j (by omega) high
  refine ⟨p, ?_, ?_⟩
  · rw [Function.update_of_ne (by omega)]
    exact there
  · have other : p ≠ page := by
      rintro rfl
      omega
    rw [known, Function.update_of_ne other]
    exact place

/-- Slots i to 63 of a WQE whose last bit is clear: the last slot unmaps everything,
    and pages that stay with XDP keep their stored address. -/
theorem free_loop_leaves {allowed : (op : KernelOp) → op.Ans → Bool} (regular : rq.xskPool = false)
    {base frame : Nat} (aligned : base % PAGE_SIZE = 0) (bound : base + batchSize ≤ 2 ^ 64)
    (positive : 0 < frame) {noXdp : Bool} {bitmap : Nat → Bool} (recycle : Bool)
    (lastClear : bitmap 63 = false) {m i : Nat} (all : i + m = 63) {dmaInfo : Nat → DmaInfo}
    {w : World} (stored : ∀ j, i ≤ j → j < 64 →
      ∃ page, (dmaInfo j).buffer = .page page ∧ w.dmaAddr page = base + j * 4096)
    (first : w.pt (base / PAGE_SIZE) = some frame) :
    Ensures (limited allowed (exec 0))
      (onDevice rq.dev (freeLoop rq noXdp bitmap recycle (m + 1) i dmaInfo)) w fun trace _ last =>
        freed trace = [⟨base, batchSize⟩] ∧ last.pt = fill w.pt ⟨base, batchSize⟩ none ∧
        ∀ page, (∀ j, i ≤ j → j < 64 → (noXdp || !bitmap j) = true →
          w.dmaAddr page ≠ base + j * 4096) → last.dmaAddr page = w.dmaAddr page := by
  induction m generalizing i dmaInfo w with
  | zero =>
    obtain rfl : i = 63 := by omega
    obtain ⟨page, here, addr⟩ := stored 63 (by omega) (by omega)
    unfold freeLoop
    simp only [lastClear, Bool.not_false, Bool.or_true, ↓reduceIte, api.mapped, Tree.bind_eq]
    rw [page_release_eq regular (D := { dmaInfo 63 with
      iovaSize := 4096 * 64, batchIova := true, freeIova := 63 == MLX5_MPWRQ_PAGES_PER_WQE - 1 }) here]
    apply device_bind (release_leaves (fun impossible => by cases impossible)
      (last_unmap_leaves api aligned bound (show 4096 * 64 ≠ 0 by decide) addr first positive))
    intro trace _ last after
    obtain ⟨gave, tables, known⟩ := after
    apply device_done
    refine ⟨by rw [List.append_nil]; exact gave, tables, fun other apart => ?_⟩
    have elsewhere : other ≠ page := by
      rintro rfl
      exact apart 63 (by omega) (by omega) (by simp [lastClear]) addr
    rw [known, Function.update_of_ne elsewhere]
  | succ m ih =>
    unfold freeLoop
    split
    · rename_i released
      obtain ⟨page, here, addr⟩ := stored i (by omega) (by omega)
      have inner := inner_slot (i := i) (by omega)
      simp only [api.mapped, ↓reduceIte, Tree.bind_eq, inner]
      rw [page_release_eq regular (D := { dmaInfo i with
        iovaSize := 4096 * 64, batchIova := true, freeIova := false }) here]
      apply device_bind (release_leaves (fun impossible => by cases impossible)
        (inner_unmap_leaves (show 4096 * 64 ≠ 0 by decide)))
      intro trace _ mid after
      obtain ⟨gave, tables, known⟩ := after
      apply (ih (by omega) (stored_later stored addr known) (tables ▸ first)).mono
      intro more _ last rest
      refine ⟨?_, ?_, fun other apart => ?_⟩
      · rw [freed_append, gave, List.nil_append]
        exact rest.1
      · rw [rest.2.1, tables]
      · have elsewhere : other ≠ page := by
          rintro rfl
          exact apart i (by omega) (by omega) released addr
        have kept : mid.dmaAddr other = w.dmaAddr other := by
          rw [known, Function.update_of_ne elsewhere]
        rw [rest.2.2 other, kept]
        intro j low high free
        rw [kept]
        exact apart j (by omega) high free
    · apply (ih (by omega) (fun j low => stored j (by omega)) first).mono
      intro trace _ last rest
      exact ⟨rest.1, rest.2.1, fun other apart => rest.2.2 other fun j low => apart j (by omega)⟩

end

end BatchRelease
