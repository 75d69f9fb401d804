import FastSafeIO.StalePages

/- Strict mode in a shared domain. The IOTLB holds what is mapped, and else only pages of a
   user who is in the middle of a job. -/
namespace TlbCoherence
open CallTree KernelCalls DmaLayer IommuWorld IovaOwnership AgentPool LocalViews UserViews StalePages

/- The stale pages of every user. The kernel does not store them. -/
abbrev Stales : Type := Nat → Nat → Prop

def noteStale (u : Nat) (op : KernelOp) (_ : op.Ans) (s : Stales) : Stales :=
  Function.update s u (unsynced op (s u))

structure Coherent (w : World) (s : Stales) : Prop where
  strict : w.fq = false
  entries : ∀ x frame, (x, frame) ∈ w.tlb → w.pt x = some frame ∨ ∃ u, w.owner x = .user u ∧ s u x

section
variable {u : Nat} {a b : World} {h : Holders} {s : Stales}

theorem note_same {op : KernelOp} {r : op.Ans} (same : ∀ s, unsynced op s = s) :
    noteStale u op r s = s := by
  rw [noteStale, same, Function.update_eq_self]

theorem coherent_same {op : KernelOp} {r : op.Ans} (coherent : Coherent a s)
    (same : ∀ s, unsynced op s = s) (fq : b.fq = a.fq) (pt : b.pt = a.pt) (tlb : b.tlb = a.tlb)
    (owner : b.owner = a.owner) : Coherent b (noteStale u op r s) := by
  rw [note_same same]
  refine ⟨fq.trans coherent.strict, fun x frame cached => ?_⟩
  rw [pt, owner]
  exact coherent.entries x frame (tlb ▸ cached)

/- The owner of a range changes, where nobody has a stale page. -/
theorem coherent_filled {r : Range} {next : Owner} (coherent : Coherent a s) (fq : b.fq = a.fq)
    (pt : b.pt = a.pt) (tlb : b.tlb = a.tlb) (owner : b.owner = fill a.owner r next)
    (none : ∀ x v, r.Has x → a.owner x = .user v → ¬ s v x) : Coherent b s := by
  refine ⟨fq.trans coherent.strict, fun x frame cached => ?_⟩
  rw [pt, owner]
  rcases coherent.entries x frame (tlb ▸ cached) with present | ⟨v, mine, stale⟩
  · exact Or.inl present
  · have outside : ¬ r.Has x := fun inside => none x v inside mine stale
    exact Or.inr ⟨v, (fill_out outside).trans mine, stale⟩

theorem coherent_own {x frame : Nat} (coherent : Coherent a s) (mine : a.owner x = .user u)
    (fresh : ¬ s u x) (cached : (x, frame) ∈ a.tlb) : a.pt x = some frame := by
  rcases coherent.entries x frame cached with present | ⟨v, owner, stale⟩
  · exact present
  · cases mine.symm.trans owner
    exact absurd stale fresh

theorem coherent_gone {r : Range} (settled : Settled (a, h)) (coherent : Coherent a s)
    (inside : (seen u (a, h)).Inside r) (empty : ∀ x, r.Has x → (seen u (a, h)).pt x = none)
    (fresh : ∀ x, r.Has x → ¬ s u x) {x : Nat} (member : r.Has x) : Gone x a := by
  obtain ⟨whole, mine, covers⟩ := inside
  have nothing : a.pt x = none := (seen_pt settled mine (covers x member)).symm.trans (empty x member)
  refine ⟨nothing, fun frame cached => ?_⟩
  have owner : a.owner x = .user u := settled.owned.owner _ mine x (covers x member)
  rw [coherent_own coherent owner (fresh x member) cached] at nothing
  cases nothing

theorem alloc_coherent {size : Nat} {r : (IommuOp.iommuDmaAllocIova size).Ans}
    (coherent : Coherent a s) (run : exec u (.iommu (.iommuDmaAllocIova size)) r a = some b) :
    Coherent b (noteStale u (.iommu (.iommuDmaAllocIova size)) r s) := by
  rcases exec_alloc_iova.mp run with ⟨_, rfl⟩ | ⟨_, _, _, _, available, rfl⟩
  · exact coherent_same coherent (fun _ => rfl) rfl rfl rfl rfl
  · rw [note_same fun _ => rfl]
    refine coherent_filled coherent rfl rfl rfl rfl fun x v inside mine => ?_
    rw [available_free available inside] at mine
    cases mine

theorem free_coherent {iova size : Nat} {gather : Option IotlbGather} {r : Unit}
    (coherent : Coherent a s) (mine : ∀ x, (⟨iova, size⟩ : Range).Has x → a.owner x = .user u)
    (synced : ∀ x, (⟨iova, size⟩ : Range).Has x → ¬ s u x)
    (run : exec u (.iommu (.iommuDmaFreeIova iova size gather)) r a = some b) :
    Coherent b (noteStale u (.iommu (.iommuDmaFreeIova iova size gather)) r s) := by
  have freed := exec_free_iova.mp run
  rw [note_same fun _ => rfl]
  have fresh : ∀ x v, (⟨iova, size⟩ : Range).Has x → a.owner x = .user v → ¬ s v x := by
    intro x v inside theirs
    cases theirs.symm.trans (mine x inside)
    exact synced x inside
  split at freed <;> subst freed <;> exact coherent_filled coherent rfl rfl rfl rfl fresh

theorem map_coherent {iova paddr size : Nat} {r : Int} (coherent : Coherent a s)
    (clean : ∀ x, (⟨iova, size⟩ : Range).Has x → Gone x a)
    (run : exec u (.iommu (.__iommuMap iova paddr size)) r a = some b) :
    Coherent b (noteStale u (.iommu (.__iommuMap iova paddr size)) r s) := by
  have written := exec_map.mp run
  rw [note_same fun _ => rfl]
  split at written
  · subst written
    refine ⟨coherent.strict, fun x frame cached => ?_⟩
    have outside : ¬ (⟨iova, size⟩ : Range).Has x := fun inside => (clean x inside).2 frame cached
    simpa only [World.mapPages, if_neg outside] using coherent.entries x frame cached
  · subst written
    exact coherent

/- What is unmapped becomes stale. -/
theorem unmap_coherent {iova size : Nat} {gather : IotlbGather} {r : Nat × IotlbGather}
    (coherent : Coherent a s) (mine : ∀ x, (⟨iova, size⟩ : Range).Has x → a.owner x = .user u) :
    Coherent (a.clear ⟨iova, size⟩)
      (noteStale u (.iommu (.iommuUnmapFast iova size gather)) r s) := by
  refine ⟨coherent.strict, fun x frame cached => ?_⟩
  by_cases inside : (⟨iova, size⟩ : Range).Has x
  · refine Or.inr ⟨u, mine x inside, ?_⟩
    simp [noteStale, unsynced, inside]
  · rcases coherent.entries x frame cached with present | ⟨v, owner, stale⟩
    · exact Or.inl ((fill_out inside).trans present)
    · refine Or.inr ⟨v, owner, ?_⟩
      by_cases same : v = u
      · subst same
        simp [noteStale, unsynced, stale]
      · simpa [noteStale, Function.update_of_ne same] using stale

/- What is invalidated is stale no more. -/
theorem invalidate_coherent {gather : IotlbGather} {iova size : Nat} {r : Unit}
    (coherent : Coherent a s) (range : gather.range = some ⟨iova, size⟩) :
    Coherent (a.invalidate ⟨iova, size⟩) (noteStale u (.iommu (.iommuIotlbSync gather)) r s) := by
  refine ⟨coherent.strict, fun x frame cached => ?_⟩
  simp only [World.invalidate, List.mem_filter, Bool.not_eq_true', decide_eq_false_iff_not] at cached
  rcases coherent.entries x frame cached.1 with present | ⟨v, owner, stale⟩
  · exact Or.inl present
  · refine Or.inr ⟨v, owner, ?_⟩
    by_cases same : v = u
    · subst same
      simp only [noteStale, Function.update_self, unsynced, range, Option.some.injEq]
      refine ⟨stale, ?_⟩
      rintro _ _ ⟨rfl, rfl⟩
      exact cached.2
    · simpa [noteStale, Function.update_of_ne same] using stale

theorem sync_coherent {gather : IotlbGather} {r : Unit} (coherent : Coherent a s)
    (run : exec u (.iommu (.iommuIotlbSync gather)) r a = some b) :
    Coherent b (noteStale u (.iommu (.iommuIotlbSync gather)) r s) := by
  have synced := exec_sync.mp run
  cases range : gather.range with
  | none =>
    simp only [range] at synced
    subst synced
    exact coherent_same coherent (fun _ => by simp [unsynced, range]) rfl rfl rfl rfl
  | some whole =>
    simp only [range] at synced
    subst synced
    exact invalidate_coherent coherent range

end

/-- A call by a user who stays with its own. -/
theorem stale_call_kept {u : Nat} {op : KernelOp} {r : op.Ans} {a b : World} {h : Holders} {s : Stales}
    (settled : Settled (a, h)) (coherent : Coherent a s) (fair : Fair op (seen u (a, h)))
    (ok : StaleOk op (s u)) (run : exec u op r a = some b) :
    strictAnswer op r ∧ Coherent b (noteStale u op r s) := by
  have mine : ∀ {whole}, (seen u (a, h)).range whole → ∀ x, whole.Has x → a.owner x = .user u :=
    fun had x inside => settled.owned.owner _ had x inside
  cases op with
  | page op =>
    have same := page_keeps_iommu run
    exact ⟨trivial, coherent_same coherent (fun _ => rfl) same.fq same.pt same.tlb same.owner⟩
  | iommu op =>
    cases op
    case iommuDmaAllocIova size => exact ⟨trivial, alloc_coherent coherent run⟩
    case iommuDmaFreeIova iova size gather =>
      exact ⟨trivial, free_coherent coherent (mine fair.1) ok run⟩
    case __iommuMap iova paddr size =>
      have clean : ∀ x, (⟨iova, size⟩ : Range).Has x → Gone x a := fun _ inside =>
        coherent_gone settled coherent fair.1 fair.2 ok inside
      exact ⟨trivial, map_coherent coherent clean run⟩
    case iommuUnmapFast iova size gather =>
      obtain ⟨out, rfl⟩ := exec_unmap_fast.mp run
      obtain ⟨whole, had, covers⟩ := fair
      exact ⟨out, unmap_coherent coherent fun x inside => mine had x (covers x inside)⟩
    case iommuIotlbSync gather => exact ⟨trivial, sync_coherent coherent run⟩
    case fqDomain =>
      obtain ⟨queued, rfl⟩ := exec_fq_domain.mp run
      exact ⟨queued.trans coherent.strict, coherent_same coherent (fun _ => rfl) rfl rfl rfl rfl⟩
    case iommuIovaToPhys iova =>
      obtain ⟨_, rfl⟩ := exec_iova_to_phys.mp run
      exact ⟨trivial, coherent_same coherent (fun _ => rfl) rfl rfl rfl rfl⟩
    all_goals
      cases some_state.mp run
      exact ⟨trivial, coherent_same coherent (fun _ => rfl) rfl rfl rfl rfl⟩

theorem background_coherent {a b : World} {h : Holders} {s : Stales} (moved : Background a b)
    (settled : Settled (a, h)) (coherent : Coherent a s) : Coherent b s := by
  cases moved with
  | access access =>
    cases access with
    | cache present =>
      refine ⟨coherent.strict, fun x frame cached => ?_⟩
      rcases List.mem_cons.mp cached with same | old
      · cases same
        exact Or.inl present
      · exact coherent.entries x frame old
  | flush flush =>
    cases flush with
    | invalidateAll => exact ⟨coherent.strict, fun _ _ cached => absurd cached List.not_mem_nil⟩
    | @complete before after r done =>
      refine coherent_filled coherent rfl rfl rfl rfl fun x v inside mine => ?_
      have parked : a.owner x = .parked :=
        settled.owned.parkedOwner (r, true) (by simp [done]) x inside
      rw [parked] at mine
      cases mine

variable {Mem Job : Type} {P : Pool Nat KernelOp KernelOp.Ans World Mem Job}

/-- What a user sees, with its stale pages. -/
def staleViews (calls : P.exec = exec) (drifts : P.drift = Background) :
    Views (noting (noting P noteHolder) noteStale) (UserView × (Nat → Prop)) where
  inv w := Settled w.1 ∧ Coherent w.1.1 w.2
  see u w := (seen u w.1, w.2 u)
  step op r v b := UserStep op r v.1 b.1 ∧ StaleStep op r v.2 b.2
  ok op v := Fair op v.1 ∧ StaleOk op v.2
  drift_kept := by
    rintro ⟨⟨a, h⟩, s⟩ ⟨⟨b, k⟩, t⟩ ⟨moved, same⟩ ⟨settled, coherent⟩
    dsimp only at moved same settled coherent ⊢
    subst same
    obtain ⟨kept, views⟩ := (userViews P calls drifts).drift_kept _ _ moved settled
    have background : Background a b := drifts ▸ moved.1
    exact ⟨⟨kept, background_coherent background settled coherent⟩, fun u => by
      rw [show seen u (b, k) = seen u (a, h) from views u]⟩
  call_kept := by
    rintro u op r ⟨⟨a, h⟩, s⟩ ⟨⟨b, k⟩, t⟩ ⟨settled, coherent⟩ ⟨fair, ok⟩ run
    obtain ⟨middle, noted, same⟩ := Option.map_eq_some_iff.mp run
    cases same
    obtain ⟨last, low, same⟩ := Option.map_eq_some_iff.mp noted
    cases same
    obtain ⟨kept, moved, others⟩ := (userViews P calls drifts).call_kept u op r _ _ settled fair noted
    rw [calls] at low
    obtain ⟨answer, still⟩ := stale_call_kept settled coherent fair ok low
    refine ⟨⟨kept, still⟩, ⟨moved, answer, ?_⟩, fun v other => ?_⟩
    · simp [noteStale]
    · refine Prod.ext (others v other) ?_
      simp [noteStale, Function.update_of_ne other]

end TlbCoherence
