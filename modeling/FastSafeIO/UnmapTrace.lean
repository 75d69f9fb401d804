import FastSafeIO.BatchRelease
import FastSafeIO.HeldPages

/- Which unmap calls the release functions end in, on any device. -/
namespace UnmapTrace
open CallTree KernelCalls DmaLayer DmaCalls RxDriver IommuWorld BatchMapping BatchRelease HeldPages

/-- The addresses that an unmap call is for. -/
def unmapping : KernelEvent → Option Range
  | ⟨.iommu (.dmaDirectUnmapPage addr size), _⟩ => some ⟨addr, size⟩
  | ⟨.iommu (.unmapPage addr size), _⟩ => some ⟨addr, size⟩
  | ⟨.iommu (.iommuUnmapFast iova size _), _⟩ => some ⟨iova, size⟩
  | _ => none

/-- A page that the rx page cache keeps, mapped as it is. -/
def takenBack : KernelEvent → Option Page
  | ⟨.page (.rxCachePut page), taken⟩ => if taken then some page else none
  | _ => none

def unmaps (trace : List KernelEvent) : List Range := trace.filterMap unmapping

def taken (trace : List KernelEvent) : List Page := trace.filterMap takenBack

theorem unmaps_append (a b : List KernelEvent) : unmaps (a ++ b) = unmaps a ++ unmaps b :=
  List.filterMap_append

theorem taken_append (a b : List KernelEvent) : taken (a ++ b) = taken a ++ taken b :=
  List.filterMap_append

/-- What a step unmaps, what goes to the rx page cache, and the stored addresses it leaves. -/
def Undoes (ranges : List Range) (pages : List Page) (addrs : Page → Nat)
    (trace : List KernelEvent) (_ : Unit) (last : World) : Prop :=
  unmaps trace = ranges ∧ taken trace = pages ∧ last.dmaAddr = addrs

/-- Only tables other than dma-iommu's may have no unmap_page. -/
def canUnmap (dev : Device) : Bool := dev.dmaMapDirect || dev.mapOps != .other false

/-- What the unmap call for a whole batch comes to. -/
def batchUnmaps (dev : Device) (addr : Nat) (w : World) : List Range :=
  if deviceRoute dev = .dmaIommu then
    if w.iovaToPhys addr = 0 then [] else [unmapRange addr (PAGE_SIZE * 64)]
  else if canUnmap dev then [⟨addr, PAGE_SIZE * 64⟩] else []

section
variable {dev : Device} {w : World} {page : Page}

theorem bypass_unmaps {addr size iovaSize : Nat} {freeIova : Bool}
    (bypass : deviceRoute dev ≠ .dmaIommu) :
    Ensures (exec 0) (dmaUnmapPageAttrsIova dev addr size iovaSize freeIova) w
      (Undoes (if canUnmap dev then [⟨addr, size⟩] else []) [] w.dmaAddr) := by
  unfold dmaUnmapPageAttrsIova canUnmap
  split
  · rename_i direct
    simp only [direct, Bool.true_or, ↓reduceIte]
    apply Ensures.call
    intro ans mid here
    cases exec_direct_unmap.mp here
    exact Ensures.done ⟨rfl, rfl, rfl⟩
  · rename_i direct
    split
    · rename_i ops
      exact absurd (iommu_route direct ops) bypass
    · rename_i ops
      simp only [direct, ops, Bool.false_or]
      apply Ensures.call
      intro ans mid here
      cases exec_unmap_page.mp here
      exact Ensures.done ⟨rfl, rfl, rfl⟩
    · rename_i ops
      simp only [direct, ops, Bool.false_or]
      exact Ensures.done ⟨rfl, rfl, rfl⟩

/-- dma-iommu looks the address up and unmaps the range around it if something is there. -/
theorem iommu_unmaps {addr size iovaSize : Nat} {freeIova : Bool} :
    Ensures (exec 0) (iommuDmaUnmapPageIova addr size iovaSize freeIova) w fun trace _ _ =>
      unmaps trace = if w.iovaToPhys addr = 0 then [] else [unmapRange addr size] := by
  have back : ∀ (gather : IotlbGather) (b : World),
      Ensures (exec 0) (giveBack (addr - iovaOffset addr) iovaSize freeIova gather) b
        fun trace _ _ => unmaps trace = [] := by
    intro gather b
    unfold giveBack
    split
    · exact Ensures.call fun ans last _ => Ensures.done rfl
    · exact Ensures.done rfl
  have unmap : ∀ b : World, Ensures (exec 0) (__iommuDmaUnmapIova addr size iovaSize freeIova) b
      fun trace _ _ => unmaps trace = [unmapRange addr size] := by
    intro b
    simp only [__iommuDmaUnmapIova, iommuCall, Tree.bind_eq, Tree.ask_bind]
    apply Ensures.call
    intro queued mid _
    apply Ensures.call
    intro out mid _
    split
    · apply Ensures.call
      intro ans mid _
      apply (back out.2 mid).mono
      exact fun trace _ _ none => congrArg (unmapRange addr size :: ·) none
    · apply (back out.2 mid).mono
      exact fun trace _ _ none => congrArg (unmapRange addr size :: ·) none
  by_cases gone : w.iovaToPhys addr = 0
  · rw [if_pos gone]
    exact unmap_absent_ensures gone rfl
  · rw [if_neg gone]
    apply unmap_page_ensures gone (unmap w)
    intro trace last tail one bounce
    have quiet : unmaps tail = [] := by cases bounce <;> rfl
    change unmaps (trace ++ tail) = _
    rw [unmaps_append, one, quiet, List.append_nil]

theorem dma_call_undoes {op : DmaOp} {ranges : List Range}
    (unmap : Ensures (exec 0) (dmaImpl dev (.dma op)) w fun trace _ _ => unmaps trace = ranges) :
    Ensures (exec 0) (dmaImpl dev (.dma op)) w fun trace _ last =>
      Undoes ranges [] w.dmaAddr trace () last := by
  constructor
  intro trace a last ran
  have calls := dma_impl_on_iommu dev op
  refine ⟨unmap.holds ran, ?_, (iommu_run_keeps_pages ran calls).dmaAddr⟩
  apply List.filterMap_eq_nil_iff.mpr
  intro e member
  have aside := exec_calls ran calls e member
  unfold takenBack
  split
  · exact absurd aside id
  · rfl

theorem batch_unmap_undoes {addr iovaSize : Nat} {freeIova : Bool} :
    Ensures (exec 0) (dmaImpl dev (.dma (.dmaUnmapPageAttrsIova addr (PAGE_SIZE * 64) iovaSize freeIova)))
      w (Undoes (batchUnmaps dev addr w) [] w.dmaAddr) := by
  unfold batchUnmaps
  by_cases route : deviceRoute dev = .dmaIommu
  · rw [if_pos route]
    apply dma_call_undoes
    have direct := of_iommu_route route
    simp only [dmaImpl, dmaUnmapPageAttrsIova, direct.1, direct.2, Bool.false_eq_true, ↓reduceIte]
    exact iommu_unmaps
  · rw [if_neg route]
    exact bypass_unmaps route

theorem bypass_unmap_eq {addr size iovaSize : Nat} {freeIova : Bool}
    (bypass : deviceRoute dev ≠ .dmaIommu) :
    dmaUnmapPageAttrs dev addr size = dmaUnmapPageAttrsIova dev addr size iovaSize freeIova := by
  unfold dmaUnmapPageAttrs dmaUnmapPageAttrsIova
  split
  · rfl
  · rename_i direct
    split
    · rename_i ops
      exact absurd (iommu_route direct ops) bypass
    · rfl
    · rfl

theorem single_unmap_undoes {addr : Nat} (bypass : deviceRoute dev ≠ .dmaIommu) :
    Ensures (exec 0) (dmaImpl dev (.dma (.dmaUnmapPageAttrs addr PAGE_SIZE))) w
      (Undoes (if canUnmap dev then [⟨addr, PAGE_SIZE⟩] else []) [] w.dmaAddr) := by
  simp only [dmaImpl]
  rw [@bypass_unmap_eq dev addr PAGE_SIZE 0 false bypass]
  exact bypass_unmaps bypass

theorem page_dma_unmap_undoes {iovaSize : Nat} {freeIova : Bool} {ranges : List Range}
    (unmap : Ensures (exec 0) (onDevice dev (unmapCall (w.dmaAddr page) iovaSize freeIova)) w
      (Undoes ranges [] w.dmaAddr)) :
    Ensures (exec 0) (onDevice dev (mlx5ePageDmaUnmap page iovaSize freeIova)) w
      (Undoes ranges [] (Function.update w.dmaAddr page 0)) := by
  rw [page_dma_unmap_eq]
  apply device_page_call
  intro addr mid here
  obtain ⟨rfl, rfl⟩ := exec_get_addr.mp here
  apply device_bind unmap
  intro trace _ last after
  apply Ensures.call
  intro ans mid here
  cases exec_set_addr.mp here
  apply Ensures.done
  obtain ⟨made, kept, known⟩ := after
  refine ⟨?_, ?_, by rw [← known]; rfl⟩
  · change unmaps (trace ++ _) = _
    rw [unmaps_append, made]
    exact List.append_nil ranges
  · change taken (trace ++ _) = _
    rw [taken_append, kept]
    rfl

/-- A page is either taken back as it is or unmapped as its release says. -/
theorem release_undoes {iovaSize : Nat} {recycle freeIova : Bool} {ranges : List Range}
    (unmap : Ensures (exec 0) (onDevice dev (mlx5ePageDmaUnmap page iovaSize freeIova)) w
      (Undoes ranges [] (Function.update w.dmaAddr page 0))) :
    Ensures (exec 0) (onDevice dev (mlx5ePageReleaseDynamic page recycle iovaSize freeIova)) w
      fun trace out last => (recycle = true ∧ Undoes [] [page] w.dmaAddr trace out last) ∨
        Undoes ranges [] (Function.update w.dmaAddr page 0) trace out last := by
  simp only [mlx5ePageReleaseDynamic, Tree.bind_eq]
  cases recycle with
  | false =>
    apply device_bind unmap
    intro trace _ mid after
    obtain ⟨made, kept, known⟩ := after
    apply device_page_call
    intro ans later here
    cases exec_release_page.mp here
    apply Ensures.call
    intro ans last here
    cases exec_put_page.mp here
    apply Ensures.done
    refine Or.inr ⟨?_, ?_, known⟩
    · rw [unmaps_append, made]
      exact List.append_nil ranges
    · rw [taken_append, kept]
      rfl
  | true =>
    apply device_page_call
    intro accepted mid here
    cases accepted with
    | true =>
      rw [exec_cache_put.mp here]
      exact device_done (Or.inl ⟨rfl, rfl, rfl, rfl⟩)
    | false =>
      cases exec_cache_put.mp here
      apply device_bind unmap
      intro trace _ later after
      obtain ⟨made, kept, known⟩ := after
      apply Ensures.call
      intro ans last here
      cases exec_recycle.mp here
      apply Ensures.done
      refine Or.inr ⟨?_, ?_, known⟩
      · change unmaps (trace ++ _) = _
        rw [unmaps_append, made]
        exact List.append_nil ranges
      · change taken (trace ++ _) = _
        rw [taken_append, kept]
        rfl

theorem page_run_keeps_table {t : Rx α} {trace : List KernelEvent} {a : α} {last : World}
    (pages : t.Calls fun op => ∃ low, op = .page low) (ran : Exec (exec 0) (onDevice dev t) w trace a last) :
    last.pt = w.pt := by
  induction t generalizing w trace with
  | done a =>
    obtain ⟨_, _, rfl⟩ := exec_done_iff.mp ran
    rfl
  | call op rest ih =>
    obtain ⟨low, rfl⟩ := pages.1
    obtain ⟨r, mid, tail, here, later, rfl⟩ := exec_call_iff.mp ran
    exact (ih r (pages.2 r) later).trans (page_keeps_iommu here).pt

theorem inner_release_undoes {iovaSize : Nat} (some_size : iovaSize ≠ 0) :
    Ensures (exec 0) (onDevice dev (mlx5ePageDmaUnmap page iovaSize false)) w
      (Undoes [] [] (Function.update w.dmaAddr page 0)) := by
  apply page_dma_unmap_undoes
  unfold unmapCall
  rw [if_pos some_size]
  exact device_done ⟨rfl, rfl, rfl⟩

theorem last_release_undoes {iovaSize : Nat} (some_size : iovaSize ≠ 0) :
    Ensures (exec 0) (onDevice dev (mlx5ePageDmaUnmap page iovaSize true)) w
      (Undoes (batchUnmaps dev (sub64 (w.dmaAddr page) (63 * 4096)) w) []
        (Function.update w.dmaAddr page 0)) := by
  apply page_dma_unmap_undoes
  unfold unmapCall
  rw [if_pos some_size]
  exact device_dma_call batch_unmap_undoes

theorem lone_release_undoes (bypass : deviceRoute dev ≠ .dmaIommu) (freeIova : Bool) :
    Ensures (exec 0) (onDevice dev (mlx5ePageDmaUnmap page 0 freeIova)) w
      (Undoes (if canUnmap dev then [⟨w.dmaAddr page, PAGE_SIZE⟩] else []) []
        (Function.update w.dmaAddr page 0)) := by
  apply page_dma_unmap_undoes
  unfold unmapCall
  rw [if_neg (not_not_intro rfl)]
  exact device_dma_call (single_unmap_undoes bypass)

end

end UnmapTrace
