import FastSafeIO.Custody
import FastSafeIO.UserMapping

/- A user of the ordinary DMA calls in a shared domain: each of its mappings has a range of
   its own. -/
namespace ClientRanges
open CallTree KernelCalls DmaLayer IommuWorld LocalViews UserViews UserMapping Custody

def InUse (mapped : Nat → Option (Nat × Nat)) (r : Range) : Prop :=
  ∃ h e, mapped h = some e ∧ r = unmapRange e.1 e.2

/- What a client keeps: each of its mappings has a range of its own. -/
structure Client (dev : Device) (mapped : Nat → Option (Nat × Nat)) (v : UserView) : Prop where
  api : DmaApi dev
  distinct : ∀ h k d e, mapped h = some d → mapped k = some e →
    unmapRange d.1 d.2 = unmapRange e.1 e.2 → h = k
  owned : ∀ r, InUse mapped r → v.range r

section
variable {dev : Device} {mapped : Nat → Option (Nat × Nat)} {v : UserView}

theorem client_maps {h addr size : Nat} {b : UserView} (ranges : Client dev mapped v)
    (more : ∀ r, v.range r → b.range r) (mine : b.range (unmapRange addr size))
    (out : ¬ v.range (unmapRange addr size)) :
    Client dev (Function.update mapped h (some (addr, size))) b := by
  have entry : ∀ {k e}, Function.update mapped h (some (addr, size)) k = some e →
      (k = h ∧ e = (addr, size)) ∨ (k ≠ h ∧ mapped k = some e) := by
    intro k e here
    rcases update_some here with ⟨same, equal⟩ | found
    · exact Or.inl ⟨same, (Option.some.inj equal).symm⟩
    · exact Or.inr found
  refine ⟨ranges.api, fun j k d e first second equal => ?_, ?_⟩
  · rcases entry first with ⟨rfl, rfl⟩ | ⟨_, one⟩
    · rcases entry second with ⟨rfl, _⟩ | ⟨_, two⟩
      · rfl
      · exact absurd (ranges.owned _ ⟨k, e, two, equal⟩) out
    · rcases entry second with ⟨rfl, rfl⟩ | ⟨_, two⟩
      · exact absurd (ranges.owned _ ⟨j, d, one, equal.symm⟩) out
      · exact ranges.distinct j k d e one two equal
  · rintro r ⟨k, e, here, rfl⟩
    rcases entry here with ⟨_, rfl⟩ | ⟨_, before⟩
    · exact mine
    · exact more _ (ranges.owned _ ⟨k, e, before, rfl⟩)

theorem client_unmaps {h addr size : Nat} {b : UserView} (ranges : Client dev mapped v)
    (here : mapped h = some (addr, size))
    (others : ∀ r, v.range r → r ≠ unmapRange addr size → b.range r) :
    Client dev (Function.update mapped h none) b := by
  have before : ∀ {k e}, Function.update mapped h none k = some e → k ≠ h ∧ mapped k = some e := by
    intro k e there
    rcases update_some there with ⟨_, impossible⟩ | found
    · cases impossible
    · exact found
  refine ⟨ranges.api, fun j k d e first second equal =>
    ranges.distinct j k d e (before first).2 (before second).2 equal, ?_⟩
  rintro r ⟨k, e, there, rfl⟩
  obtain ⟨distinct, there⟩ := before there
  refine others _ (ranges.owned _ ⟨k, e, there, rfl⟩) fun equal => ?_
  exact distinct (ranges.distinct k h e (addr, size) there here equal)

theorem placed_range {iova : Nat} (phys size : Nat) (aligned : iova % PAGE_SIZE = 0) :
    unmapRange (iova + iovaOffset phys) size = ⟨iova, iovaAlign (size + iovaOffset phys)⟩ := by
  have offset : iovaOffset (iova + iovaOffset phys) = iovaOffset phys := by
    simp only [iovaOffset, PAGE_SIZE] at aligned ⊢
    omega
  simp only [unmapRange, offset, Nat.add_sub_cancel]

theorem client_map_alone {page : Page} {offset size : Nat} (ranges : Client dev mapped v) :
    Alone (dmaMapPageAttrs dev page offset size) (fun addr b => Client dev mapped b ∧
      (addr ≠ DMA_MAPPING_ERROR → ∀ h,
        Client dev (Function.update mapped h (some (addr, size))) b)) v := by
  rw [map_route ranges.api]
  refine Meets.mono map_page_alone ?_
  rintro ret b ⟨phys, (⟨rfl, rfl⟩ | ⟨iova, new, rfl, rfl⟩)⟩
  · exact ⟨ranges, fun good => absurd rfl good⟩
  · have range := placed_range phys size new.aligned
    refine ⟨⟨ranges.api, ranges.distinct, fun r inUse => Or.inr (ranges.owned r inUse)⟩, fun _ h => ?_⟩
    refine client_maps ranges (fun r had => Or.inr had) (Or.inl range) ?_
    rw [range]
    exact new.not_had

theorem client_unmap_alone {h addr size : Nat} (ranges : Client dev mapped v)
    (here : mapped h = some (addr, size)) :
    Alone (dmaUnmapPageAttrs dev addr size)
      (fun _ b => Client dev (Function.update mapped h none) b) v := by
  rw [unmap_route ranges.api]
  refine Meets.mono (unmap_page_alone (ranges.owned _ ⟨h, _, here, rfl⟩)) ?_
  rintro _ b (rfl | ⟨rfl, _⟩)
  · exact client_unmaps ranges here fun r had other => ⟨had, other⟩
  · exact client_unmaps ranges here fun r had _ => had

end

end ClientRanges
