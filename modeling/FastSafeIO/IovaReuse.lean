import FastSafeIO.AgentPool
import FastSafeIO.IommuWorld

/- Reuse of IOVA pages. What the allocator considers free is out of the page table and
   out of the IOTLB, whether frees are immediate or wait for a flush. -/
namespace IovaReuse
open CallTree KernelCalls DmaLayer IommuWorld AgentPool
set_option linter.style.nameCheck false

structure Clean (w : World) : Prop where
  pte : ∀ x f, w.pt x = some f → ∃ u, w.owner x = .user u
  tlb : ∀ x f, (x, f) ∈ w.tlb → w.owner x ≠ .free
  flushed : ∀ r, (r, true) ∈ w.parked → ∀ x f, r.Has x → (x, f) ∉ w.tlb
  parked : ∀ e ∈ w.parked, ∀ x, e.1.Has x → w.owner x = .parked
  apart : w.parked.Pairwise fun e f => e.1.Disjoint f.1

theorem free_page_gone {w : World} (clean : Clean w) {x : Nat} (free : w.owner x = .free) :
    Gone x w := by
  constructor
  · cases present : w.pt x with
    | none => rfl
    | some f =>
      obtain ⟨u, user⟩ := clean.pte x f present
      rw [free] at user
      cases user
  · exact fun f member => clean.tlb x f member free

/- User u may count on its own pages: they stay its own, nobody maps or unmaps them, and
   the IOTLB learns nothing about a page that is not mapped. -/
def Kept (u : Nat) (a b : World) : Prop :=
  ∀ x, a.owner x = .user u → b.owner x = .user u ∧ b.pt x = a.pt x ∧
    (a.pt x = none → ∀ f, (x, f) ∈ b.tlb → (x, f) ∈ a.tlb)

theorem kept_refl (u : Nat) (w : World) : Kept u w w := fun _ mine => ⟨mine, rfl, fun _ _ old => old⟩

theorem kept_trans (u : Nat) (a b c : World) (first : Kept u a b) (second : Kept u b c) :
    Kept u a c := by
  intro x mine
  obtain ⟨owner, pt, tlb⟩ := first x mine
  obtain ⟨owner', pt', tlb'⟩ := second x owner
  exact ⟨owner', pt'.trans pt, fun bare f member => tlb bare f (tlb' (pt.trans bare) f member)⟩

def Mine (u : Nat) (P : Nat → Prop) (w : World) : Prop := ∀ x, P x → w.owner x = .user u

def Bare (P : Nat → Prop) (w : World) : Prop := ∀ x, P x → Gone x w

theorem mine_later {u : Nat} {P : Nat → Prop} {a b : World} (mine : Mine u P a) (moved : Kept u a b) :
    Mine u P b := fun x inside => (moved x (mine x inside)).1

theorem bare_later {u : Nat} {P : Nat → Prop} {a b : World} (mine : Mine u P a) (bare : Bare P a)
    (moved : Kept u a b) : Bare P b := by
  intro x inside
  obtain ⟨_, pt, tlb⟩ := moved x (mine x inside)
  obtain ⟨absent, unknown⟩ := bare x inside
  exact ⟨pt.trans absent, fun f member => unknown f (tlb absent f member)⟩

/- What user u must know before a call that touches IOVA pages. -/
def Entitled (u : Nat) : KernelOp → World → Prop
  | .iommu (.iommuDmaFreeIova iova size gather), w =>
    Mine u (⟨iova, size⟩ : Range).Has w ∧ (∀ x, (⟨iova, size⟩ : Range).Has x → w.pt x = none) ∧
      (gather.any (·.queued) = true ∨ Bare (⟨iova, size⟩ : Range).Has w)
  | .iommu (.__iommuMap iova _ size), w => Mine u (⟨iova, size⟩ : Range).Has w
  | .iommu (.iommuUnmapFast iova size _), w => Mine u (⟨iova, size⟩ : Range).Has w
  | _, _ => True

theorem clean_same {a b : World} (clean : Clean a) (pt : b.pt = a.pt) (tlb : ∀ e ∈ b.tlb, e ∈ a.tlb)
    (owner : b.owner = a.owner) (parked : b.parked = a.parked) : Clean b where
  pte := by rw [pt, owner]; exact clean.pte
  tlb x f member := by rw [owner]; exact clean.tlb x f (tlb _ member)
  flushed r waiting x f inside member := clean.flushed r (parked ▸ waiting) x f inside (tlb _ member)
  parked := by rw [parked, owner]; exact clean.parked
  apart := parked ▸ clean.apart

theorem kept_same {u : Nat} {a b : World} (pt : b.pt = a.pt) (tlb : ∀ e ∈ b.tlb, e ∈ a.tlb)
    (owner : b.owner = a.owner) : Kept u a b :=
  fun x mine => ⟨by rw [owner]; exact mine, by rw [pt], fun _ _ member => tlb _ member⟩

/- A change of owner, page table or both in pages that are not user v's. -/
theorem kept_inside {v : Nat} {a b : World} {P : Nat → Prop}
    (mine : ∀ x, P x → a.owner x ≠ .user v) (owner : ∀ x, ¬ P x → b.owner x = a.owner x)
    (pt : ∀ x, ¬ P x → b.pt x = a.pt x) (tlb : b.tlb = a.tlb) : Kept v a b := by
  intro x theirs
  have outside : ¬ P x := fun inside => mine x inside theirs
  exact ⟨by rw [owner x outside]; exact theirs, pt x outside, fun _ _ member => tlb ▸ member⟩

theorem not_theirs {u v x : Nat} {w : World} (other : v ≠ u) (mine : w.owner x = .user u) :
    w.owner x ≠ .user v := by
  rw [mine]
  exact fun same => other (Owner.user.inj same).symm

theorem allocate_clean {w : World} (clean : Clean w) {u : Nat} {r : Range}
    (available : w.Available r) : Clean (w.allocate u r) where
  pte x f present := by
    by_cases inside : r.Has x
    · exact ⟨u, fill_in inside⟩
    · obtain ⟨v, user⟩ := clean.pte x f present
      exact ⟨v, (fill_out inside).trans user⟩
  tlb x f member := by
    by_cases inside : r.Has x
    · simp [World.allocate, fill_in inside]
    · simpa [World.allocate, fill_out inside] using clean.tlb x f member
  flushed := clean.flushed
  parked e waiting x inside := by
    have parked := clean.parked e waiting x inside
    refine (fill_out fun other => ?_).trans parked
    rw [available_free available other] at parked
    cases parked
  apart := clean.apart

theorem release_clean {w : World} (clean : Clean w) {u : Nat} {r : Range} (mine : Mine u r.Has w)
    (bare : Bare r.Has w) : Clean (w.release r) where
  pte x f present := by
    obtain ⟨v, user⟩ := clean.pte x f present
    refine ⟨v, (fill_out fun inside => ?_).trans user⟩
    have absent := (bare x inside).1
    simp [show w.pt x = some f from present] at absent
  tlb x f member := by
    have outside : ¬ r.Has x := fun inside => (bare x inside).2 f member
    simpa [World.release, fill_out outside] using clean.tlb x f member
  flushed := clean.flushed
  parked e waiting x inside := by
    have parked := clean.parked e waiting x inside
    refine (fill_out fun other => ?_).trans parked
    rw [mine x other] at parked
    cases parked
  apart := clean.apart

theorem park_clean {w : World} (clean : Clean w) {u : Nat} {r : Range} (mine : Mine u r.Has w)
    (absent : ∀ x, r.Has x → w.pt x = none) : Clean (w.park r) where
  pte x f present := by
    obtain ⟨v, user⟩ := clean.pte x f present
    refine ⟨v, (fill_out fun inside => ?_).trans user⟩
    have := absent x inside
    simp [show w.pt x = some f from present] at this
  tlb x f member := by
    by_cases inside : r.Has x
    · simp [World.park, fill_in inside]
    · simpa [World.park, fill_out inside] using clean.tlb x f member
  flushed s waiting x f inside member := by
    rcases List.mem_cons.mp waiting with impossible | waiting
    · cases impossible
    · exact clean.flushed s waiting x f inside member
  parked e waiting x inside := by
    rcases List.mem_cons.mp waiting with rfl | waiting
    · exact fill_in inside
    · by_cases other : r.Has x
      · exact fill_in other
      · exact (fill_out other).trans (clean.parked e waiting x inside)
  apart := by
    refine List.pairwise_cons.mpr ⟨fun e waiting x inside other => ?_, clean.apart⟩
    have parked := clean.parked e waiting x other
    rw [mine x inside] at parked
    cases parked

theorem map_clean {w : World} (clean : Clean w) {u : Nat} {r : Range} {paddr : Nat}
    (mine : Mine u r.Has w) : Clean (w.mapPages r paddr) where
  pte x f present := by
    simp only [World.mapPages] at present
    split at present
    · rename_i inside
      exact ⟨u, mine x inside⟩
    · exact clean.pte x f present
  tlb := clean.tlb
  flushed := clean.flushed
  parked := clean.parked
  apart := clean.apart

theorem clear_clean {w : World} (clean : Clean w) (r : Range) : Clean (w.clear r) where
  pte x f present := by
    simp only [World.clear, fill] at present
    split at present
    · cases present
    · exact clean.pte x f present
  tlb := clean.tlb
  flushed := clean.flushed
  parked := clean.parked
  apart := clean.apart

theorem invalidate_subset (w : World) (r : Range) : ∀ e ∈ (w.invalidate r).tlb, e ∈ w.tlb :=
  fun _ member => (List.mem_filter.mp member).1

theorem entitled_call {u : Nat} {op : KernelOp} {r : op.Ans} {a b : World} (clean : Clean a)
    (entitled : Entitled u op a) (run : exec u op r a = some b) :
    Clean b ∧ ∀ v, v ≠ u → Kept v a b := by
  have same : b.pt = a.pt → b.tlb = a.tlb → b.owner = a.owner → b.parked = a.parked →
      Clean b ∧ ∀ v, v ≠ u → Kept v a b := by
    intro pt tlb owner parked
    have fewer : ∀ e ∈ b.tlb, e ∈ a.tlb := fun e member => tlb ▸ member
    exact ⟨clean_same clean pt fewer owner parked, fun v _ => kept_same pt fewer owner⟩
  cases op with
  | page op =>
    have aside := page_keeps_iommu run
    exact same aside.pt aside.tlb aside.owner aside.parked
  | iommu op =>
    cases op
    case iommuDmaAllocIova size =>
      rcases exec_alloc_iova.mp run with ⟨_, rfl⟩ | ⟨_, _, _, _, available, rfl⟩
      · exact same rfl rfl rfl rfl
      · refine ⟨allocate_clean clean available, fun v other => kept_inside
          (P := (⟨r, size⟩ : Range).Has) (fun x inside => ?_) (fun x outside => fill_out outside)
          (fun _ _ => rfl) rfl⟩
        rw [available_free available inside]
        simp
    case iommuDmaFreeIova iova size gather =>
      obtain ⟨mine, absent, quiet⟩ := entitled
      have freed := exec_free_iova.mp run
      have others : ∀ c : World, (∀ x, ¬ (⟨iova, size⟩ : Range).Has x → c.owner x = a.owner x) →
          c.pt = a.pt → c.tlb = a.tlb → ∀ v, v ≠ u → Kept v a c := fun c owner pt tlb v other =>
        kept_inside (fun x inside => not_theirs other (mine x inside)) owner
          (fun x _ => by rw [pt]) tlb
      split at freed
      · subst freed
        exact ⟨park_clean clean mine absent, others _ (fun x outside => fill_out outside) rfl rfl⟩
      · rename_i direct
        subst freed
        exact ⟨release_clean clean mine (quiet.resolve_left direct),
          others _ (fun x outside => fill_out outside) rfl rfl⟩
    case __iommuMap iova paddr size =>
      have written := exec_map.mp run
      split at written
      · subst written
        exact ⟨map_clean clean entitled, fun v other => kept_inside
          (fun x inside => not_theirs other (entitled x inside)) (fun _ _ => rfl)
          (fun x outside => if_neg outside) rfl⟩
      · subst written
        exact same rfl rfl rfl rfl
    case iommuUnmapFast iova size gather =>
      obtain ⟨_, rfl⟩ := exec_unmap_fast.mp run
      exact ⟨clear_clean clean _, fun v other => kept_inside
        (fun x inside => not_theirs other (entitled x inside)) (fun _ _ => rfl)
        (fun x outside => fill_out outside) rfl⟩
    case iommuIotlbSync gather =>
      have synced := exec_sync.mp run
      split at synced
      · subst synced
        exact same rfl rfl rfl rfl
      · subst synced
        exact ⟨clean_same clean rfl (invalidate_subset a _) rfl rfl,
          fun v _ => kept_same rfl (invalidate_subset a _) rfl⟩
    all_goals
      simp only [exec, execIommu] at run
      grind

theorem access_kept {a b : World} (access : DeviceAccess a b) (clean : Clean a) :
    Clean b ∧ ∀ u, Kept u a b := by
  cases access with
  | @cache x frame present =>
    have user := clean.pte x frame present
    refine ⟨⟨clean.pte, fun y f member => ?_, fun r waiting y f inside member => ?_, clean.parked,
      clean.apart⟩, fun u y mine => ⟨mine, rfl, fun absent f member => ?_⟩⟩
    · rcases List.mem_cons.mp member with same | old
      · cases same
        obtain ⟨v, owner⟩ := user
        simp [owner]
      · exact clean.tlb y f old
    · rcases List.mem_cons.mp member with same | old
      · cases same
        obtain ⟨v, owner⟩ := user
        have parked := clean.parked _ waiting x inside
        rw [owner] at parked
        cases parked
      · exact clean.flushed r waiting y f inside old
    · rcases List.mem_cons.mp member with same | old
      · cases same
        simp [present] at absent
      · exact old

theorem flush_kept {a b : World} (flush : Flush a b) (clean : Clean a) :
    Clean b ∧ ∀ u, Kept u a b := by
  cases flush with
  | invalidateAll =>
    refine ⟨⟨clean.pte, fun x f member => by simp at member, fun r waiting x f _ member => by
      simp at member, fun e waiting x inside => ?_, List.pairwise_map.mpr clean.apart⟩,
      fun u x mine => ⟨mine, rfl, fun _ f member => by simp at member⟩⟩
    obtain ⟨old, parked, rfl⟩ := List.mem_map.mp waiting
    exact clean.parked old parked x inside
  | @complete before after r waiting =>
    have done : (r, true) ∈ a.parked := by simp [waiting]
    have old : ∀ e ∈ before ++ after, e ∈ a.parked := by
      intro e member
      rw [waiting]
      rcases List.mem_append.mp member with front | back
      · exact List.mem_append_left _ front
      · exact List.mem_append_right _ (List.mem_cons_of_mem _ back)
    have apart := clean.apart
    rw [waiting] at apart
    obtain ⟨-, rest, across⟩ := List.pairwise_append.mp apart
    refine ⟨⟨fun x f present => ?_, fun x f member => ?_, fun s parked => clean.flushed s (old _ parked),
      fun e member x inside => ?_,
      apart.sublist ((List.Sublist.refl before).append (List.sublist_cons_self _ after))⟩,
      fun u x mine => ⟨?_, rfl, fun _ _ member => member⟩⟩
    · obtain ⟨v, user⟩ := clean.pte x f present
      refine ⟨v, (fill_out fun inside => ?_).trans user⟩
      rw [clean.parked _ done x inside] at user
      cases user
    · have outside : ¬ r.Has x := fun inside => clean.flushed r done x f inside member
      simpa [fill_out outside] using clean.tlb x f member
    · refine (fill_out fun other => ?_).trans (clean.parked e (old e member) x inside)
      rcases List.mem_append.mp member with front | back
      · exact across e front (r, true) (List.mem_cons_self ..) x inside other
      · exact (List.pairwise_cons.mp rest).1 e back x other inside
    · refine (fill_out fun inside => ?_).trans mine
      rw [clean.parked _ done x inside] at mine
      cases mine

theorem background_kept (a b : World) (moved : Background a b) (clean : Clean a) :
    Clean b ∧ ∀ u, Kept u a b := by
  cases moved with
  | access access => exact access_kept access clean
  | flush flush => exact flush_kept flush clean

end IovaReuse
