import FastSafeIO.DmaCalls
import FastSafeIO.UserViews

/- In strict mode a page that was unmapped is stale until it is invalidated. A user has
   stale pages only inside an unmap, and of all other pages the IOTLB knows only what is
   mapped. -/
namespace StalePages
open CallTree KernelCalls DmaLayer DmaCalls IommuWorld IovaOwnership AgentPool LocalViews UserViews

/- What a call does to the stale pages of the user who makes it. -/
def unsynced : KernelOp → (Nat → Prop) → Nat → Prop
  | .iommu (.iommuUnmapFast iova size _), s => fun x => (⟨iova, size⟩ : Range).Has x ∨ s x
  | .iommu (.iommuIotlbSync gather), s => fun x =>
    s x ∧ ∀ iova size, gather.range = some (iova, size) → ¬ (⟨iova, size⟩ : Range).Has x
  | _, s => s

/- No flush queue: every unmap is invalidated at once. -/
def strictAnswer : (op : KernelOp) → op.Ans → Prop
  | .iommu .fqDomain, queued => queued = false
  | .iommu (.iommuUnmapFast iova size gather), out =>
    out = (size, { gather with range := some (iova, size) })
  | _, _ => True

def StaleStep (op : KernelOp) (r : op.Ans) (s b : Nat → Prop) : Prop :=
  strictAnswer op r ∧ b = unsynced op s

/- Nothing is mapped over a stale page, no stale page is given back, and the page pool is
   not called while there are stale pages. -/
def StaleOk : KernelOp → (Nat → Prop) → Prop
  | .iommu (.__iommuMap iova _ size), s => ∀ x, (⟨iova, size⟩ : Range).Has x → ¬ s x
  | .iommu (.iommuDmaFreeIova iova size _), s => ∀ x, (⟨iova, size⟩ : Range).Has x → ¬ s x
  | .page _, s => ∀ x, ¬ s x
  | _, _ => True

def noStale : Nat → Prop := fun _ => False

/- A program that begins and ends without stale pages. -/
abbrev Tidy {α : Type} (t : Kernel α) : Prop :=
  Meets StaleStep StaleOk (fun _ s => s = noStale) t noStale

section
variable {α β : Type}

theorem no_stale_ok (op : KernelOp) : StaleOk op noStale := by
  cases op with
  | page op => exact fun _ => id
  | iommu op =>
    cases op
    case __iommuMap => exact fun _ _ => id
    case iommuDmaFreeIova => exact fun _ _ => id
    all_goals trivial

def NoUnmap (op : KernelOp) : Prop :=
  ∀ iova size gather, op ≠ .iommu (.iommuUnmapFast iova size gather)

theorem no_stale_stays {op : KernelOp} (other : NoUnmap op) : unsynced op noStale = noStale := by
  cases op with
  | page op => rfl
  | iommu op =>
    cases op
    case iommuUnmapFast iova size gather => exact absurd rfl (other iova size gather)
    case iommuIotlbSync => exact funext fun x => by simp [unsynced, noStale]
    all_goals rfl

theorem tidy_bind {t : Kernel α} {next : α → Kernel β} (first : Tidy t) (rest : ∀ a, Tidy (next a)) :
    Tidy (t.bind next) := by
  refine first.bind fun a s none => ?_
  rw [none]
  exact rest a

theorem tidy_call {op : KernelOp} {rest : op.Ans → Kernel α} (other : NoUnmap op)
    (more : ∀ r, strictAnswer op r → Tidy (rest r)) : Tidy (.call op rest) := by
  refine ⟨no_stale_ok op, fun r after step => ?_⟩
  rw [step.2, no_stale_stays other]
  exact more r step.1

theorem tidy_of_calls {t : Kernel α} (calls : t.Calls NoUnmap) : Tidy t := by
  induction t with
  | done a => exact rfl
  | call op rest ih => exact tidy_call calls.1 fun r _ => ih r (calls.2 r)

theorem map_call_no_unmap {firstIova : Bool} {size : Nat} {op : KernelOp}
    (made : MapCall firstIova size op) : NoUnmap op := by
  rintro iova length gather rfl
  exact made

theorem bypass_no_unmap {dev : Device} {op : KernelOp} (made : Bypass dev op) : NoUnmap op := by
  rintro iova length gather rfl
  exact made

/- The unmapped range is invalidated before anything else. -/
theorem unmap_iova_tidy (dmaAddr size iovaSize : Nat) (freeIova : Bool) :
    Tidy (__iommuDmaUnmapIova dmaAddr size iovaSize freeIova) := by
  simp only [__iommuDmaUnmapIova, iommuCall, Tree.bind_eq, Tree.ask_bind]
  refine tidy_call (by simp [NoUnmap]) fun queued strict => ⟨trivial, ?_⟩
  obtain rfl : queued = false := strict
  rintro _ _ ⟨rfl, rfl⟩
  refine ⟨trivial, ?_⟩
  rintro _ _ ⟨-, rfl⟩
  have synced : unsynced (.iommu (.iommuIotlbSync { IotlbGather.init false with
      range := some (dmaAddr - iovaOffset dmaAddr, iovaAlign (size + iovaOffset dmaAddr)) }))
      (unsynced (.iommu (.iommuUnmapFast (dmaAddr - iovaOffset dmaAddr)
        (iovaAlign (size + iovaOffset dmaAddr)) (.init false))) noStale) = noStale := by
    funext x
    simp only [unsynced, noStale, or_false, Option.some.injEq, Prod.mk.injEq, eq_iff_iff, iff_false]
    rintro ⟨unmapped, left⟩
    exact left _ _ ⟨rfl, rfl⟩ unmapped
  rw [synced]
  refine tidy_of_calls ?_
  split
  · exact ⟨by simp [NoUnmap], fun _ => trivial⟩
  · trivial

theorem unmap_page_tidy (dmaHandle size iovaSize : Nat) (freeIova : Bool) :
    Tidy (iommuDmaUnmapPageIova dmaHandle size iovaSize freeIova) := by
  simp only [iommuDmaUnmapPageIova, iommuCall, Tree.bind_eq, Tree.ask_bind]
  refine tidy_call (by simp [NoUnmap]) fun phys _ => ?_
  split
  · exact rfl
  · refine tidy_bind (unmap_iova_tidy dmaHandle size iovaSize freeIova) fun _ => ?_
    refine tidy_call (by simp [NoUnmap]) fun bounced _ => ?_
    split
    · exact tidy_call (by simp [NoUnmap]) fun _ _ => rfl
    · exact rfl

theorem impl_unmap_tidy (dev : Device) (addr size : Nat) : Tidy (dmaUnmapPageAttrs dev addr size) := by
  unfold dmaUnmapPageAttrs
  split
  · exact tidy_call (by simp [NoUnmap]) fun _ _ => rfl
  · split
    · rw [unmap_page_is_unmap_page_iova]
      exact unmap_page_tidy ..
    · exact tidy_call (by simp [NoUnmap]) fun _ _ => rfl
    · exact rfl

theorem impl_unmap_iova_tidy (dev : Device) (addr size iovaSize : Nat) (freeIova : Bool) :
    Tidy (dmaUnmapPageAttrsIova dev addr size iovaSize freeIova) := by
  unfold dmaUnmapPageAttrsIova
  split
  · exact tidy_call (by simp [NoUnmap]) fun _ _ => rfl
  · split
    · exact unmap_page_tidy ..
    · exact tidy_call (by simp [NoUnmap]) fun _ _ => rfl
    · exact rfl

theorem impl_tidy (dev : Device) (op : RxOp) : Tidy (dmaImpl dev op) := by
  have mapped : ∀ {firstIova size low}, (deviceRoute dev = .dmaIommu ∧ MapCall firstIova size low) ∨
      Bypass dev low → NoUnmap low := by
    rintro firstIova size low (⟨_, made⟩ | made)
    · exact map_call_no_unmap made
    · exact bypass_no_unmap made
  cases op with
  | page op => exact tidy_call (by simp [NoUnmap]) fun _ _ => rfl
  | dma op =>
    cases op with
    | dmaMapPageAttrs page offset size =>
      exact tidy_of_calls ((dma_impl_calls dev (.dma (.dmaMapPageAttrs page offset size))).mono
        fun _ => mapped)
    | dmaMapPageAttrsIova page iova firstIova offset size =>
      exact tidy_of_calls ((dma_impl_calls dev
        (.dma (.dmaMapPageAttrsIova page iova firstIova offset size))).mono fun _ => mapped)
    | dmaUnmapPageAttrs addr size => exact impl_unmap_tidy dev addr size
    | dmaUnmapPageAttrsIova addr size iovaSize freeIova =>
      exact impl_unmap_iova_tidy dev addr size iovaSize freeIova
    | iommuDmaAllocIova size => exact tidy_call (by simp [NoUnmap]) fun _ _ => rfl

theorem on_device_tidy (dev : Device) (t : Rx α) : Tidy (onDevice dev t) := by
  unfold onDevice
  induction t with
  | done a => exact rfl
  | call op rest ih => exact tidy_bind (impl_tidy dev op) ih

end

end StalePages
