import FastSafeIO.IommuWorld

/- Who owns which IOVA range. A user may map, unmap and free only inside ranges it was
   given; then nobody disturbs anybody else's ranges. -/
namespace IovaOwnership
open CallTree KernelCalls IommuWorld

structure Owned (w : World) : Prop where
  apart : w.live.Pairwise fun e f => e.2.Disjoint f.2
  nonempty : ∀ e ∈ w.live, 0 < e.2.size / PAGE_SIZE
  owner : ∀ e ∈ w.live, ∀ x, e.2.Has x → w.owner x = .user e.1
  parkedApart : w.parked.Pairwise fun e f => e.1.Disjoint f.1
  parkedOwner : ∀ e ∈ w.parked, ∀ x, e.1.Has x → w.owner x = .parked
  mapped : ∀ x f, w.pt x = some f → ∃ e ∈ w.live, e.2.Has x

def Owns (u : Nat) (r : Range) (w : World) : Prop := (u, r) ∈ w.live

def Empty (r : Range) (w : World) : Prop := ∀ x, r.Has x → w.pt x = none

/- What the others leave to user u: its ranges and what is mapped in them. -/
def Undisturbed (u : Nat) (a b : World) : Prop :=
  (∀ r, Owns u r a → Owns u r b) ∧ ∀ r x, Owns u r a → r.Has x → b.pt x = a.pt x

theorem undisturbed_refl (u : Nat) (w : World) : Undisturbed u w w :=
  ⟨fun _ mine => mine, fun _ _ _ _ => rfl⟩

theorem undisturbed_trans (u : Nat) (a b c : World) (first : Undisturbed u a b)
    (second : Undisturbed u b c) : Undisturbed u a c :=
  ⟨fun r mine => second.1 r (first.1 r mine),
    fun r x mine inside => (second.2 r x (first.1 r mine) inside).trans (first.2 r x mine inside)⟩

theorem disjoint_symm {r s : Range} (apart : r.Disjoint s) : s.Disjoint r :=
  fun x inside other => apart x other inside

theorem range_inhabited {r : Range} (nonempty : 0 < r.size / PAGE_SIZE) :
    r.Has (r.base / PAGE_SIZE) := ⟨Nat.le_refl _, by omega⟩

theorem live_disjoint {w : World} (owned : Owned w) {e f : Nat × Range} (first : e ∈ w.live)
    (second : f ∈ w.live) (distinct : e ≠ f) : e.2.Disjoint f.2 := by
  have symmetric : Std.Symm fun e f : Nat × Range => e.2.Disjoint f.2 :=
    ⟨fun _ _ apart => disjoint_symm apart⟩
  exact owned.apart.forall first second distinct

theorem live_owner_unique {w : World} (owned : Owned w) {e f : Nat × Range} (first : e ∈ w.live)
    (second : f ∈ w.live) (same : e.2 = f.2) : e = f := by
  by_contra distinct
  have inside := range_inhabited (owned.nonempty e first)
  exact live_disjoint owned first second distinct _ inside (same ▸ inside)

theorem mapped_in_one {w : World} (owned : Owned w) {x f : Nat} (present : w.pt x = some f) :
    ∃! e, e ∈ w.live ∧ e.2.Has x := by
  obtain ⟨e, live, inside⟩ := owned.mapped x f present
  refine ⟨e, ⟨live, inside⟩, ?_⟩
  rintro g ⟨other, holds⟩
  by_contra distinct
  exact live_disjoint owned other live distinct x holds inside

theorem available_disjoint {w : World} (owned : Owned w) {r : Range} (available : w.Available r)
    {e : Nat × Range} (live : e ∈ w.live) : r.Disjoint e.2 := by
  intro x inside other
  have free := available_free available inside
  rw [owned.owner e live x other] at free
  cases free

theorem available_empty {w : World} (owned : Owned w) {r : Range} (available : w.Available r) :
    Empty r w := by
  intro x inside
  cases present : w.pt x with
  | none => rfl
  | some f =>
    obtain ⟨e, live, other⟩ := owned.mapped x f present
    exact absurd other (available_disjoint owned available live x inside)

theorem allocate_owned {w : World} (owned : Owned w) {u : Nat} {r : Range}
    (available : w.Available r) (nonempty : 0 < r.size / PAGE_SIZE) : Owned (w.allocate u r) where
  apart := List.pairwise_cons.mpr
    ⟨fun _ live => available_disjoint owned available live, owned.apart⟩
  nonempty e live := by
    rcases List.mem_cons.mp live with rfl | live
    · exact nonempty
    · exact owned.nonempty e live
  owner e live x inside := by
    simp only [World.allocate, fill]
    rcases List.mem_cons.mp live with rfl | live
    · exact if_pos inside
    · rw [if_neg fun other => available_disjoint owned available live x other inside]
      exact owned.owner e live x inside
  parkedApart := owned.parkedApart
  parkedOwner e waiting x inside := by
    simp only [World.allocate, fill]
    rw [if_neg fun other => ?_]
    · exact owned.parkedOwner e waiting x inside
    · have free := available_free available other
      rw [owned.parkedOwner e waiting x inside] at free
      cases free
  mapped x f present := by
    obtain ⟨e, live, inside⟩ := owned.mapped x f present
    exact ⟨e, List.mem_cons_of_mem _ live, inside⟩

theorem kept_is_apart {w : World} (owned : Owned w) {u : Nat} {r : Range} (mine : Owns u r w)
    {e : Nat × Range} (live : e ∈ w.live.filter fun e => e.2 ≠ r) :
    e ∈ w.live ∧ e.2.Disjoint r := by
  simp only [List.mem_filter, decide_eq_true_eq] at live
  exact ⟨live.1, live_disjoint owned live.1 mine fun same => live.2 (congrArg Prod.snd same)⟩

theorem mapped_elsewhere {w : World} (owned : Owned w) {r : Range} (empty : Empty r w) {x f : Nat}
    (present : w.pt x = some f) : ∃ e ∈ w.live.filter fun e => e.2 ≠ r, e.2.Has x := by
  obtain ⟨e, live, inside⟩ := owned.mapped x f present
  refine ⟨e, ?_, inside⟩
  simp only [List.mem_filter, decide_eq_true_eq]
  refine ⟨live, ?_⟩
  rintro rfl
  rw [empty x inside] at present
  cases present

theorem release_owned {w : World} (owned : Owned w) {u : Nat} {r : Range} (mine : Owns u r w)
    (empty : Empty r w) : Owned (w.release r) where
  apart := owned.apart.sublist List.filter_sublist
  nonempty e live := owned.nonempty e (kept_is_apart owned mine live).1
  owner e live x inside := by
    obtain ⟨old, apart⟩ := kept_is_apart owned mine live
    simp only [World.release, fill, if_neg (apart x inside)]
    exact owned.owner e old x inside
  parkedApart := owned.parkedApart
  parkedOwner e waiting x inside := by
    have parked := owned.parkedOwner e waiting x inside
    simp only [World.release, fill]
    rw [if_neg fun other => ?_]
    · exact parked
    · rw [owned.owner _ mine x other] at parked
      cases parked
  mapped x f present := mapped_elsewhere owned empty present

theorem park_owned {w : World} (owned : Owned w) {u : Nat} {r : Range} (mine : Owns u r w)
    (empty : Empty r w) : Owned (w.park r) where
  apart := owned.apart.sublist List.filter_sublist
  nonempty e live := owned.nonempty e (kept_is_apart owned mine live).1
  owner e live x inside := by
    obtain ⟨old, apart⟩ := kept_is_apart owned mine live
    simp only [World.park, fill, if_neg (apart x inside)]
    exact owned.owner e old x inside
  parkedApart := by
    refine List.pairwise_cons.mpr ⟨fun e waiting x inside other => ?_, owned.parkedApart⟩
    have parked := owned.parkedOwner e waiting x other
    rw [owned.owner _ mine x inside] at parked
    cases parked
  parkedOwner e waiting x inside := by
    simp only [World.park, fill]
    rcases List.mem_cons.mp waiting with rfl | waiting
    · exact if_pos inside
    · split
      · rfl
      · exact owned.parkedOwner e waiting x inside
  mapped x f present := mapped_elsewhere owned empty present

theorem map_owned {w : World} (owned : Owned w) {u : Nat} {r s : Range} {paddr : Nat}
    (mine : Owns u r w) (within : ∀ x, s.Has x → r.Has x) : Owned (w.mapPages s paddr) where
  apart := owned.apart
  nonempty := owned.nonempty
  owner := owned.owner
  parkedApart := owned.parkedApart
  parkedOwner := owned.parkedOwner
  mapped x f present := by
    simp only [World.mapPages] at present
    split at present
    · rename_i inside
      exact ⟨_, mine, within x inside⟩
    · exact owned.mapped x f present

theorem clear_owned {w : World} (owned : Owned w) (s : Range) : Owned (w.clear s) where
  apart := owned.apart
  nonempty := owned.nonempty
  owner := owned.owner
  parkedApart := owned.parkedApart
  parkedOwner := owned.parkedOwner
  mapped x f present := by
    simp only [World.clear, fill] at present
    split at present
    · cases present
    · exact owned.mapped x f present

/- Calls that change neither the page table nor the allocator. -/
theorem owned_same {a b : World} (owned : Owned a) (pt : b.pt = a.pt) (owner : b.owner = a.owner)
    (live : b.live = a.live) (parked : b.parked = a.parked) : Owned b where
  apart := live ▸ owned.apart
  nonempty := live ▸ owned.nonempty
  owner := by rw [live, owner]; exact owned.owner
  parkedApart := parked ▸ owned.parkedApart
  parkedOwner := by rw [parked, owner]; exact owned.parkedOwner
  mapped := by rw [live, pt]; exact owned.mapped

/- What user u must know before a call that touches IOVA space. -/
def Entitled (u : Nat) : KernelOp → World → Prop
  | .iommu (.iommuDmaFreeIova iova size _), w => Owns u ⟨iova, size⟩ w ∧ Empty ⟨iova, size⟩ w
  | .iommu (.__iommuMap iova _ size), w => ∃ r, Owns u r w ∧ ∀ x, (⟨iova, size⟩ : Range).Has x → r.Has x
  | .iommu (.iommuUnmapFast iova size _), w =>
    ∃ r, Owns u r w ∧ ∀ x, (⟨iova, size⟩ : Range).Has x → r.Has x
  | _, _ => True

/- A change inside one user's range is not seen by the others. -/
theorem undisturbed_inside {u v : Nat} {a b : World} (owned : Owned a) (other : v ≠ u) {r : Range}
    (mine : Owns u r a) (live : b.live = a.live) (outside : ∀ x, ¬ r.Has x → b.pt x = a.pt x) :
    Undisturbed v a b := by
  refine ⟨fun s theirs => by unfold Owns; rw [live]; exact theirs, fun s x theirs inside => ?_⟩
  exact outside x fun here =>
    live_disjoint owned theirs mine (fun same => other (congrArg Prod.fst same)) x inside here

theorem undisturbed_removed {u v : Nat} {a b : World} (owned : Owned a) (other : v ≠ u) {r : Range}
    (mine : Owns u r a) (live : b.live = a.live.filter fun e => e.2 ≠ r) (pt : b.pt = a.pt) :
    Undisturbed v a b := by
  refine ⟨fun s theirs => ?_, fun _ x _ _ => by rw [pt]⟩
  simp only [Owns, live, List.mem_filter, decide_eq_true_eq]
  exact ⟨theirs, fun same => other (congrArg Prod.fst (live_owner_unique owned theirs mine same))⟩

/- One call of an entitled user keeps the ownership and leaves the others alone. -/
theorem entitled_call {u : Nat} {op : KernelOp} {r : op.Ans} {a b : World} (owned : Owned a)
    (entitled : Entitled u op a) (run : exec u op r a = some b) :
    Owned b ∧ ∀ v, v ≠ u → Undisturbed v a b := by
  have same : b.pt = a.pt → b.owner = a.owner → b.live = a.live → b.parked = a.parked →
      Owned b ∧ ∀ v, v ≠ u → Undisturbed v a b := by
    intro pt owner live parked
    refine ⟨owned_same owned pt owner live parked, fun v _ => ⟨fun s theirs => ?_, fun _ x _ _ => ?_⟩⟩
    · unfold Owns
      rw [live]
      exact theirs
    · rw [pt]
  cases op with
  | page op =>
    have aside := page_keeps_iommu run
    exact same aside.pt aside.owner aside.live aside.parked
  | iommu op =>
    cases op
    case iommuDmaAllocIova size =>
      rcases exec_alloc_iova.mp run with ⟨_, rfl⟩ | ⟨_, _, _, nonempty, available, rfl⟩
      · exact same rfl rfl rfl rfl
      · exact ⟨allocate_owned owned available nonempty, fun v _ =>
          ⟨fun s theirs => List.mem_cons_of_mem _ theirs, fun _ _ _ _ => rfl⟩⟩
    case iommuDmaFreeIova iova size gather =>
      obtain ⟨mine, empty⟩ := entitled
      have freed := exec_free_iova.mp run
      split at freed
      · subst freed
        exact ⟨park_owned owned mine empty, fun v other => undisturbed_removed owned other mine rfl rfl⟩
      · subst freed
        exact ⟨release_owned owned mine empty,
          fun v other => undisturbed_removed owned other mine rfl rfl⟩
    case __iommuMap iova paddr size =>
      obtain ⟨whole, mine, within⟩ := entitled
      have written := exec_map.mp run
      split at written
      · subst written
        refine ⟨map_owned owned mine within, fun v other =>
          undisturbed_inside owned other mine rfl fun x outside => ?_⟩
        simp only [World.mapPages]
        exact if_neg fun inside => outside (within x inside)
      · subst written
        exact same rfl rfl rfl rfl
    case iommuUnmapFast iova size gather =>
      obtain ⟨whole, mine, within⟩ := entitled
      obtain ⟨_, rfl⟩ := exec_unmap_fast.mp run
      refine ⟨clear_owned owned _, fun v other =>
        undisturbed_inside owned other mine rfl fun x outside => ?_⟩
      simp only [World.clear, fill]
      exact if_neg fun inside => outside (within x inside)
    case iommuIotlbSync gather =>
      have synced := exec_sync.mp run
      split at synced <;> subst synced <;> exact same rfl rfl rfl rfl
    all_goals
      simp only [exec, execIommu] at run
      grind

theorem complete_owned {w : World} {before after : List (Range × Bool)} {r : Range}
    (owned : Owned w) (waiting : w.parked = before ++ (r, true) :: after) :
    Owned { w with owner := fill w.owner r .free, parked := before ++ after } where
  apart := owned.apart
  nonempty := owned.nonempty
  owner e live x inside := by
    have user := owned.owner e live x inside
    simp only [fill]
    rw [if_neg fun other => ?_]
    · exact user
    · rw [owned.parkedOwner (r, true) (by simp [waiting]) x other] at user
      cases user
  parkedApart := by
    have apart := owned.parkedApart
    rw [waiting] at apart
    exact apart.sublist ((List.Sublist.refl before).append (List.sublist_cons_self _ after))
  parkedOwner e member x inside := by
    have parked := owned.parkedOwner e (by
      rw [waiting]
      rcases List.mem_append.mp member with front | back
      · exact List.mem_append_left _ front
      · exact List.mem_append_right _ (List.mem_cons_of_mem _ back)) x inside
    have apart := owned.parkedApart
    rw [waiting] at apart
    obtain ⟨-, rest, across⟩ := List.pairwise_append.mp apart
    have clear : ¬ r.Has x := by
      intro other
      rcases List.mem_append.mp member with front | back
      · exact across e front (r, true) (List.mem_cons_self ..) x inside other
      · exact (List.pairwise_cons.mp rest).1 e back x other inside
    simp only [fill, if_neg clear]
    exact parked
  mapped := owned.mapped

/- Device accesses and flushes of the flush queue disturb nobody. -/
theorem background_kept (a b : World) (moved : Background a b) (owned : Owned a) :
    Owned b ∧ ∀ u, Undisturbed u a b := by
  cases moved with
  | access access =>
    cases access
    exact ⟨owned_same owned rfl rfl rfl rfl, fun u => ⟨fun _ mine => mine, fun _ _ _ _ => rfl⟩⟩
  | flush flush =>
    cases flush with
    | invalidateAll =>
      refine ⟨⟨owned.apart, owned.nonempty, owned.owner, ?_, ?_, owned.mapped⟩,
        fun u => ⟨fun _ mine => mine, fun _ _ _ _ => rfl⟩⟩
      · exact List.pairwise_map.mpr owned.parkedApart
      · intro e waiting x inside
        obtain ⟨old, parked, rfl⟩ := List.mem_map.mp waiting
        exact owned.parkedOwner old parked x inside
    | complete waiting =>
      exact ⟨complete_owned owned waiting, fun u => ⟨fun _ mine => mine, fun _ _ _ _ => rfl⟩⟩

end IovaOwnership
