import FastSafeIO.DmaCalls
import FastSafeIO.IommuWorld
import FastSafeIO.SlotFields

/- Driver calls about one page at a time: on any device they never give a whole batch
   range back to the IOVA allocator. -/
namespace SingleCalls
open CallTree KernelCalls DmaLayer DmaCalls RxDriver IommuWorld SlotFields

def batchSize : Nat := 4096 * MLX5_MPWRQ_PAGES_PER_WQE

/- A driver call about one page, and a kernel call that gives back no whole batch. -/
def Single : RxOp → Prop
  | .dma (.dmaMapPageAttrs _ _ size) => size = PAGE_SIZE
  | .dma (.dmaMapPageAttrsIova _ _ _ _ size) => size = PAGE_SIZE
  | .dma (.dmaUnmapPageAttrs _ size) => size = PAGE_SIZE
  | .dma (.dmaUnmapPageAttrsIova _ _ _ _) => False
  | _ => True

def SmallFree : KernelOp → Prop
  | .iommu (.iommuDmaFreeIova _ size _) => size ≠ batchSize
  | _ => True

theorem page_size_small (addr : Nat) : iovaAlign (PAGE_SIZE + iovaOffset addr) ≠ batchSize := by
  unfold iovaAlign iovaOffset batchSize MLX5_MPWRQ_PAGES_PER_WQE PAGE_SIZE
  omega

/-- On any device, a call about one page gives back no whole batch. -/
theorem single_impl_small (dev : Device) (op : RxOp) (single : Single op) :
    (dmaImpl dev op).Calls SmallFree := by
  apply (dma_impl_calls dev op).mono
  intro low made
  unfold SmallFree
  split
  · cases op with
    | page op => cases made
    | dma op =>
      cases op with
      | dmaMapPageAttrs page offset size =>
        cases single
        rcases made with ⟨_, addr, rfl⟩ | made
        · exact page_size_small addr
        · cases made
      | dmaMapPageAttrsIova page iova firstIova offset size =>
        cases single
        rcases made with ⟨_, addr, rfl⟩ | made
        · exact page_size_small addr
        · cases made
      | dmaUnmapPageAttrs addr size =>
        cases single
        rcases made with ⟨_, rfl⟩ | made
        · exact page_size_small addr
        · cases made
      | dmaUnmapPageAttrsIova addr size iovaSize freeIova => exact absurd single id
      | iommuDmaAllocIova size => cases made
  · trivial

theorem map_slot_single (dmaInfo : DmaInfo) (page : Page) :
    (mapSlotPage dmaInfo page).Calls Single := by
  unfold mapSlotPage
  split <;> exact ⟨rfl, fun _ => trivial⟩

theorem page_alloc_single (rq : Rq) (dmaInfo : DmaInfo) :
    (mlx5ePageAlloc rq dmaInfo).Calls Single :=
  page_alloc_calls rq (fun _ => trivial) (map_slot_single dmaInfo)

theorem alloc_loop_single (rq : Rq) (iovaBase left i : Nat) (dmaInfo : Nat → DmaInfo)
    (mtts : Nat → Nat) : (allocLoop rq iovaBase left i dmaInfo mtts).Calls Single := by
  induction left generalizing i dmaInfo mtts with
  | zero => trivial
  | succ left ih =>
    unfold allocLoop
    apply Tree.Calls.bind (page_alloc_single rq _)
    intro out
    dsimp only
    split
    · trivial
    · exact ih (i + 1) _ _

theorem dma_unmap_single (page : Page) {iovaSize : Nat} {freeIova : Bool}
    (notLast : iovaSize ≠ 0 → freeIova = false) :
    (mlx5ePageDmaUnmap page iovaSize freeIova).Calls Single := by
  unfold mlx5ePageDmaUnmap
  refine ⟨trivial, fun addr => ?_⟩
  simp only [Tree.bind_eq, Tree.done_bind]
  split
  · rename_i some_size
    rw [notLast some_size]
    exact ⟨trivial, fun _ => trivial⟩
  · exact ⟨rfl, fun _ => ⟨trivial, fun _ => trivial⟩⟩

theorem release_dynamic_single (page : Page) (recycle : Bool) {iovaSize : Nat} {freeIova : Bool}
    (notLast : iovaSize ≠ 0 → freeIova = false) :
    (mlx5ePageReleaseDynamic page recycle iovaSize freeIova).Calls Single :=
  release_dynamic_calls (fun _ => trivial) (dma_unmap_single page notLast)

theorem release_single (rq : Rq) {dmaInfo : DmaInfo} (recycle : Bool)
    (notLast : dmaInfo.iovaSize ≠ 0 → dmaInfo.freeIova = false) :
    (mlx5ePageRelease rq dmaInfo recycle).Calls Single :=
  slot_release_calls rq (fun _ => trivial) fun page => release_dynamic_single page recycle notLast

theorem small_freed {trace : List KernelEvent} (small : ∀ e ∈ trace, SmallFree e.1) :
    ∀ r ∈ freed trace, r.size ≠ batchSize := by
  intro r member
  obtain ⟨e, made, gave⟩ := List.mem_filterMap.mp member
  have here := small e made
  unfold freedRange at gave
  split at gave
  · cases gave
    exact here
  · cases gave

theorem single_freed {dev : Device} {t : Rx α} {w last : World} {trace : List KernelEvent} {a : α}
    {run : (op : KernelOp) → op.Ans → World → Option World} (single : t.Calls Single)
    (ran : Exec run (onDevice dev t) w trace a last) : ∀ r ∈ freed trace, r.size ≠ batchSize :=
  small_freed (exec_calls ran (single.interp (single_impl_small dev)))

end SingleCalls
