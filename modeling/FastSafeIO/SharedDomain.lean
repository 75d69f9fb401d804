import FastSafeIO.AgentPool
import FastSafeIO.IovaOwnership
import FastSafeIO.RxQueue
import FastSafeIO.SlotFields

/- One domain shared by receive queues and by users of the ordinary DMA calls, all
   running at the same time. -/
namespace SharedDomain
open CallTree KernelCalls DmaLayer RxDriver IommuWorld AgentPool RxQueue IovaOwnership SlotFields
set_option linter.style.nameCheck false

/- A client keeps the addresses and sizes it has mapped. -/
inductive Party where
  | queue (rq : Rq) (mem : RxMem)
  | client (dev : Device) (mapped : Nat → Option (Nat × Nat))

inductive DomainJob where
  | queue (job : RxJob)
  | dmaMapPageAttrs (h : Nat) (page : Page) (offset size : Nat)
  | dmaUnmapPageAttrs (h : Nat)

/- Everything a striding queue does, header pages apart. -/
def poolJobs : RxJob → Prop
  | .buildShampoHdUmr _ _ _ _ | .shampoDeallocHd _ | .freeRxShampoHdEntry _ => False
  | _ => True

def domainReady : DomainJob → Party → Prop
  | .queue job, .queue _ mem => poolJobs job ∧ RxQueue.ready job mem
  | .dmaMapPageAttrs h _ _ _, .client _ mapped => mapped h = none
  | .dmaUnmapPageAttrs _, .client _ _ => True
  | _, _ => False

def domainBody : DomainJob → Party → Kernel Party
  | .queue job, .queue rq mem => do
    let mem ← RxQueue.body rq job mem
    pure (.queue rq mem)
  | .dmaMapPageAttrs h page offset size, .client dev mapped => do
    let addr ← DmaLayer.dmaMapPageAttrs dev page offset size
    if addr = DMA_MAPPING_ERROR then
      pure (.client dev mapped)
    else
      pure (.client dev (Function.update mapped h (some (addr, size))))
  | .dmaUnmapPageAttrs h, .client dev mapped =>
    match mapped h with
    | none => pure (.client dev mapped)
    | some (addr, size) => do
      DmaLayer.dmaUnmapPageAttrs dev addr size
      pure (.client dev (Function.update mapped h none))
  | _, party => pure party

def domainPool : Pool Nat KernelOp KernelOp.Ans World Party DomainJob where
  exec := exec
  drift := Background
  ready _ := domainReady
  body := domainBody

abbrev DomainConfig : Type := Config Nat KernelOp KernelOp.Ans World Party DomainJob

abbrev DomainLimits : Type := Limits Nat KernelOp KernelOp.Ans World Party DomainJob

/- A free call names a range that is live. -/
def NamesLive : KernelOp → World → Prop
  | .iommu (.iommuDmaFreeIova iova size _), w => ∃ v, Owns v ⟨iova, size⟩ w
  | _, _ => True

def owning : Discipline domainPool where
  inv := Owned
  rely := Undisturbed
  ok _ _ _ op w := NamesLive op w
  result _ _ _ _ _ := True
  rely_refl := undisturbed_refl
  rely_trans := undisturbed_trans
  drift_kept := background_kept

/- User u owns every range of the set. -/
def Holds (u : Nat) (S : Range → Prop) (w : World) : Prop := ∀ r, S r → Owns u r w

def with_range (S : Range → Prop) (r : Range) : Range → Prop := fun s => S s ∨ s = r

theorem entitled_names_live {u : Nat} {op : KernelOp} {w : World} (entitled : Entitled u op w) :
    NamesLive op w := by
  cases op with
  | page op => trivial
  | iommu op =>
    cases op
    case iommuDmaFreeIova => exact ⟨u, entitled.1⟩
    all_goals trivial

section
variable {u : Nat} {L : DomainLimits} {job : DomainJob} {mem : Party} {α β : Type}
  {post : α → World → Prop} {S : Range → Prop} {r : Range} {w : World}

theorem holds_later {a b : World} (holds : Holds u S a) (moved : Undisturbed u a b) : Holds u S b :=
  fun s inside => moved.1 s (holds s inside)

theorem holds_live {a b : World} (holds : Holds u S a) (live : b.live = a.live) : Holds u S b :=
  fun s inside => by unfold Owns; rw [live]; exact holds s inside

theorem empty_later {a b : World} (mine : Owns u r a) (empty : Empty r a)
    (moved : Undisturbed u a b) : Empty r b :=
  fun x inside => (moved.2 r x mine inside).trans (empty x inside)

/- An entitled call from an assertion that only speaks of the user's own ranges. -/
theorem owned_call {op : KernelOp} {rest : op.Ans → Kernel α} {A : World → Prop}
    (lasting : ∀ a b, A a → Undisturbed u a b → A b) (now : A w)
    (entitled : ∀ a, A a → Entitled u op a)
    (fire : ∀ a s b, Owned a → Owned b → A a → L.call u job mem op s a →
      exec u op s a = some b → Safe owning L u job mem post (rest s) b) :
    Safe owning L u job mem post (.call op rest) w := by
  refine safe_call A now (fun a b holds _ moved => lasting a b holds moved) ?_
  intro a owned holds
  refine ⟨entitled_names_live (entitled a holds), fun s b allowed run => ?_⟩
  obtain ⟨kept, others⟩ := entitled_call owned (entitled a holds) run
  exact ⟨kept, others, fire a s b owned kept holds allowed run⟩

theorem owned_done {a : α} (lasting : ∀ b c, post a b → Undisturbed u b c → post a c)
    (now : post a w) : Safe owning L u job mem post (.done a) w :=
  fun b _ moved => lasting w b now moved

theorem plain_call {op : KernelOp} {rest : op.Ans → Kernel α} (now : Holds u S w)
    (entitled : ∀ a, Entitled u op a)
    (same : ∀ s a b, exec u op s a = some b → b.live = a.live)
    (fire : ∀ a s b, Owned b → Holds u S b → L.call u job mem op s a → exec u op s a = some b →
      Safe owning L u job mem post (rest s) b) :
    Safe owning L u job mem post (.call op rest) w :=
  owned_call (fun _ _ holds moved => holds_later holds moved) now (fun a _ => entitled a)
    fun a s b _ kept holds allowed run => fire a s b kept (holds_live holds (same s a b run)) allowed run

theorem clear_empty (w : World) (r : Range) : Empty r (w.clear r) := by
  intro x inside
  simp only [World.clear, fill]
  exact if_pos inside

theorem holds_removed {a b : World} (holds : Holds u S a) (out : ¬ S r)
    (live : b.live = a.live.filter fun e => e.2 ≠ r) : Holds u S b := by
  intro s inside
  simp only [Owns, live, List.mem_filter, decide_eq_true_eq]
  exact ⟨holds s inside, fun same => out (same ▸ inside)⟩

theorem unmap_iova_owned {dmaAddr size : Nat} (out : ¬ S (unmapRange dmaAddr size))
    (now : Holds u S w) (mine : Owns u (unmapRange dmaAddr size) w) :
    Safe owning L u job mem (fun _ => Holds u S)
      (__iommuDmaUnmapIova dmaAddr size (unmapRange dmaAddr size).size true) w := by
  have lasting : ∀ a b, Holds u S a ∧ Owns u (unmapRange dmaAddr size) a → Undisturbed u a b →
      Holds u S b ∧ Owns u (unmapRange dmaAddr size) b :=
    fun a b both moved => ⟨holds_later both.1 moved, moved.1 _ both.2⟩
  have lastingEmpty : ∀ a b, (Holds u S a ∧ Owns u (unmapRange dmaAddr size) a) ∧
      Empty (unmapRange dmaAddr size) a → Undisturbed u a b →
      (Holds u S b ∧ Owns u (unmapRange dmaAddr size) b) ∧ Empty (unmapRange dmaAddr size) b :=
    fun a b both moved => ⟨lasting a b both.1 moved, empty_later both.1.2 both.2 moved⟩
  have free : ∀ gather w, (Holds u S w ∧ Owns u (unmapRange dmaAddr size) w) ∧
      Empty (unmapRange dmaAddr size) w →
      Safe owning L u job mem (fun _ => Holds u S)
        (.call (.iommu (.iommuDmaFreeIova (unmapRange dmaAddr size).base
          (unmapRange dmaAddr size).size gather)) .done) w := by
    intro gather w now
    refine owned_call lastingEmpty now (fun a now => ⟨now.1.2, now.2⟩) ?_
    intro a _ b _ _ now _ run
    have freed := exec_free_iova.mp run
    refine owned_done (fun b c holds moved => holds_later holds moved) ?_
    split at freed
    · subst freed
      exact holds_removed now.1.1 out rfl
    · subst freed
      exact holds_removed now.1.1 out rfl
  simp only [__iommuDmaUnmapIova, iommuCall, Tree.bind_eq, Tree.ask_bind, ↓reduceIte]
  refine owned_call lasting ⟨now, mine⟩ (fun _ _ => trivial) ?_
  intro a queued b _ _ both _ run
  obtain ⟨rfl, rfl⟩ := exec_fq_domain.mp run
  refine owned_call lasting both (fun a both => ⟨_, both.2, fun _ inside => inside⟩) ?_
  intro a unmapped b _ _ both _ run
  obtain ⟨rfl, rfl⟩ := exec_unmap_fast.mp run
  have empty := clear_empty a (unmapRange dmaAddr size)
  dsimp only
  split
  · refine owned_call lastingEmpty ⟨⟨holds_live both.1 rfl, both.2⟩, empty⟩ (fun _ _ => trivial) ?_
    intro a _ b _ _ now _ run
    have synced := exec_sync.mp run
    refine free _ b ?_
    split at synced
    · subst synced
      exact now
    · subst synced
      exact ⟨⟨holds_live now.1.1 rfl, now.1.2⟩, now.2⟩
  · exact free _ _ ⟨⟨holds_live both.1 rfl, both.2⟩, empty⟩

theorem swiotlb_unmap_owned {phys size : Nat} {t : Kernel α} (now : Holds u S w)
    (last : ∀ w, Holds u S w → Safe owning L u job mem post t w) :
    Safe owning L u job mem post (.call (.iommu (.isSwiotlbBuffer phys)) fun bounced =>
      if bounced = true then .call (.iommu (.swiotlbTblUnmapSingle phys size)) fun _ => t
      else t) w := by
  refine plain_call now (fun _ => trivial) (fun _ a b run => by rw [exec_swiotlb_buffer.mp run]) ?_
  intro a bounced b _ holds _ _
  split
  · refine plain_call holds (fun _ => trivial) (fun _ a b run => by rw [exec_swiotlb_unmap.mp run]) ?_
    exact fun a _ b _ holds _ _ => last b holds
  · exact last b holds

/- Unmapping a range of one's own gives it back; it may also be found unmapped. -/
theorem unmap_page_owned {dmaAddr size iovaSize : Nat} (now : Holds u S w)
    (mine : ∀ phys a, phys ≠ 0 → L.call u job mem (.iommu (.iommuIovaToPhys dmaAddr)) phys a →
      iovaSize = (unmapRange dmaAddr size).size ∧
        ¬ S (unmapRange dmaAddr size) ∧ Owns u (unmapRange dmaAddr size) w) :
    Safe owning L u job mem (fun _ => Holds u S)
      (iommuDmaUnmapPageIova dmaAddr size iovaSize true) w := by
  have lasting : ∀ a b, Holds u S a ∧ (Owns u (unmapRange dmaAddr size) w →
      Owns u (unmapRange dmaAddr size) a) → Undisturbed u a b →
      Holds u S b ∧ (Owns u (unmapRange dmaAddr size) w → Owns u (unmapRange dmaAddr size) b) :=
    fun a b both moved => ⟨holds_later both.1 moved, fun had => moved.1 _ (both.2 had)⟩
  simp only [iommuDmaUnmapPageIova, iommuCall, Tree.bind_eq, Tree.ask_bind, Tree.pure_eq]
  refine owned_call lasting ⟨now, id⟩ (fun _ _ => trivial) ?_
  intro a phys b _ kept both allowed run
  obtain ⟨_, rfl⟩ := exec_iova_to_phys.mp run
  split
  · exact owned_done (fun b c holds moved => holds_later holds moved) both.1
  · rename_i found
    obtain ⟨rfl, out, had⟩ := mine phys b found allowed
    refine Safe.bind kept (unmap_iova_owned out both.1 (both.2 had)) ?_
    intro _ w _ holds
    exact swiotlb_unmap_owned holds fun w holds =>
      owned_done (fun b c holds moved => holds_later holds moved) holds

/- Mapping a fresh range of one's own. -/
def Fresh (u : Nat) (S : Range → Prop) (r : Range) (w : World) : Prop :=
  Holds u S w ∧ Owns u r w ∧ Empty r w

theorem fresh_later {a b : World} (fresh : Fresh u S r a) (moved : Undisturbed u a b) :
    Fresh u S r b :=
  ⟨holds_later fresh.1 moved, moved.1 r fresh.2.1, empty_later fresh.2.1 fresh.2.2 moved⟩

theorem map_atomic_owned {dev : Device} {iova paddr size : Nat} {firstIova : Bool}
    (now : Fresh u S ⟨iova, size⟩ w) :
    Safe owning L u job mem
      (fun ret w => Holds u S w ∧ Owns u ⟨iova, size⟩ w ∧ (ret ≠ 0 → Empty ⟨iova, size⟩ w))
      (iommuMapAtomic dev iova firstIova paddr size) w := by
  have lasting : ∀ (ret : Int) a b,
      Holds u S a ∧ Owns u ⟨iova, size⟩ a ∧ (ret ≠ 0 → Empty ⟨iova, size⟩ a) → Undisturbed u a b →
      Holds u S b ∧ Owns u ⟨iova, size⟩ b ∧ (ret ≠ 0 → Empty ⟨iova, size⟩ b) :=
    fun ret a b now moved => ⟨holds_later now.1 moved, moved.1 _ now.2.1,
      fun bad => empty_later now.2.1 (now.2.2 bad) moved⟩
  simp only [iommuMapAtomic, _iommuMap, iommuCall, Tree.bind_eq, Tree.ask_bind]
  refine owned_call (fun a b fresh moved => fresh_later fresh moved) now
    (fun a fresh => ⟨_, fresh.2.1, fun _ inside => inside⟩) ?_
  intro a ret b _ _ fresh _ run
  have after : Holds u S b ∧ Owns u ⟨iova, size⟩ b ∧ (ret ≠ 0 → Empty ⟨iova, size⟩ b) := by
    have written := exec_map.mp run
    split at written
    · rename_i good
      subst written
      exact ⟨holds_live fresh.1 rfl, fresh.2.1, fun bad => absurd good bad⟩
    · subst written
      exact ⟨fresh.1, fresh.2.1, fun _ => fresh.2.2⟩
  split
  · refine owned_call (lasting ret) after (fun _ _ => trivial) ?_
    intro a _ b _ _ still _ run
    rw [exec_sync_map.mp run]
    exact owned_done (lasting ret) still
  · exact owned_done (lasting ret) after

/- The result of a map that allocates: an error, or an address whose unmap covers a
   range that is new to the user. -/
def Mapped (u : Nat) (S : Range → Prop) (size ret : Nat) (w : World) : Prop :=
  Holds u S w ∧ (ret ≠ DMA_MAPPING_ERROR →
    Owns u (unmapRange ret size) w ∧ ¬ S (unmapRange ret size))

theorem mapped_later {size ret : Nat} {a b : World} (mapped : Mapped u S size ret a)
    (moved : Undisturbed u a b) : Mapped u S size ret b :=
  ⟨holds_later mapped.1 moved, fun good => ⟨moved.1 _ (mapped.2 good).1, (mapped.2 good).2⟩⟩

theorem map_failed {size : Nat} (now : Holds u S w) : Mapped u S size DMA_MAPPING_ERROR w :=
  ⟨now, fun good => absurd rfl good⟩

theorem place_owned {dev : Device} {phys iovaOff size whole iova : Nat} {firstIova : Bool}
    (range : unmapRange (iova + iovaOff) size = ⟨iova, whole⟩) (kept : Owned w)
    (out : ¬ S ⟨iova, whole⟩) (now : Fresh u S ⟨iova, whole⟩ w) :
    Safe owning L u job mem (Mapped u S size) (placeAt dev phys iovaOff whole iova firstIova) w := by
  unfold placeAt
  split
  · exact owned_done (fun _ _ => mapped_later) (map_failed now.1)
  · refine Safe.bind kept (map_atomic_owned now) ?_
    intro ret w kept kept
    obtain ⟨holds, mine, empty⟩ := kept
    split
    · rename_i bad
      refine owned_call (fun a b fresh moved => fresh_later fresh moved) ⟨holds, mine, empty bad⟩
        (fun a fresh => fresh.2) ?_
      intro a _ b _ _ fresh _ run
      refine owned_done (fun _ _ => mapped_later) (map_failed ?_)
      have freed := exec_free_iova.mp run
      split at freed
      · subst freed
        exact holds_removed fresh.1 out rfl
      · subst freed
        exact holds_removed fresh.1 out rfl
    · exact owned_done (fun _ _ => mapped_later) ⟨holds, fun _ => by rw [range]; exact ⟨mine, out⟩⟩

/- A range that was just allocated was not in the set before. -/
theorem allocated_fresh {a : World} {r : Range} (owned : Owned a) (holds : Holds u S a)
    (available : a.Available r) (nonempty : 0 < r.size / PAGE_SIZE) :
    Fresh u S r (a.allocate u r) ∧ ¬ S r := by
  refine ⟨⟨fun s inside => List.mem_cons_of_mem _ (holds s inside), List.mem_cons_self ..,
    available_empty owned available⟩, fun inside => ?_⟩
  exact available_disjoint owned available (holds r inside) _ (range_inhabited nonempty)
    (range_inhabited nonempty)

theorem dma_map_owned {dev : Device} {phys size : Nat} {firstIova : Bool} (now : Holds u S w) :
    Safe owning L u job mem (Mapped u S size) (__iommuDmaMap dev phys 0 firstIova size) w := by
  rw [dma_map_eq]
  refine plain_call now (fun _ => trivial) (fun _ a b run => by rw [exec_deferred_attach.mp run]) ?_
  intro a attach b kept holds _ _
  split
  · exact owned_done (fun _ _ => mapped_later) (map_failed holds)
  · simp only [ne_eq, not_true_eq_false, ↓reduceIte]
    refine owned_call (fun a b holds moved => holds_later holds moved) holds (fun _ _ => trivial) ?_
    intro a iova b owned kept holds _ run
    rcases exec_alloc_iova.mp run with ⟨rfl, rfl⟩ | ⟨_, aligned, _, nonempty, available, rfl⟩
    · exact owned_done (fun _ _ => mapped_later) (map_failed holds)
    · obtain ⟨fresh, out⟩ := allocated_fresh owned holds available nonempty
      refine place_owned ?_ kept out fresh
      have offset : iovaOffset (iova + iovaOffset phys) = iovaOffset phys := by
        simp only [iovaOffset, PAGE_SIZE] at aligned ⊢
        omega
      simp only [unmapRange, offset, Nat.add_sub_cancel]

theorem map_tail_owned {dev : Device} {phys size : Nat} {firstIova : Bool} (kept : Owned w)
    (now : Holds u S w) :
    Safe owning L u job mem (Mapped u S size) (mapPageTail dev phys 0 firstIova size) w := by
  simp only [mapPageTail, iommuCall, Tree.bind_eq, Tree.ask_bind, Tree.pure_eq]
  refine Safe.bind kept (dma_map_owned now) ?_
  intro ret w kept mapped
  split
  · rename_i error
    refine swiotlb_unmap_owned mapped.1 fun w holds => owned_done (fun _ _ => mapped_later) ?_
    rw [error]
    exact map_failed holds
  · exact owned_done (fun _ _ => mapped_later) mapped

theorem map_page_owned {dev : Device} {page : Page} {offset size : Nat} {firstIova : Bool}
    (kept : Owned w) (now : Holds u S w) :
    Safe owning L u job mem (Mapped u S size)
      (iommuDmaMapPageIova dev page 0 firstIova offset size) w := by
  simp only [iommuDmaMapPageIova, iommuCall, Tree.bind_eq, Tree.ask_bind, Tree.pure_eq]
  split
  · refine plain_call now (fun _ => trivial) (fun _ a b run => by rw [exec_swiotlb_active.mp run]) ?_
    intro a active b kept holds _ _
    split
    · refine plain_call holds (fun _ => trivial) (fun _ a b run => by rw [exec_swiotlb_map.mp run]) ?_
      intro a phys b kept holds _ _
      split
      · exact owned_done (fun _ _ => mapped_later) (map_failed holds)
      · exact map_tail_owned kept holds
    · exact owned_done (fun _ _ => mapped_later) (map_failed holds)
  · exact map_tail_owned kept now

/- Mapping one page inside a range of the set; a run of whole batches never sees the
   mapping of a batch page fail. -/
theorem batch_map_owned {dev : Device} {page : Page} {iova : Nat} {firstIova : Bool} (kept : Owned w)
    (now : Holds u S w) (some_iova : iova ≠ 0) (member : S r)
    (within : ∀ x, (⟨iova, PAGE_SIZE⟩ : Range).Has x → r.Has x)
    (succeeds : ∀ paddr size ret a, L.call u job mem (.iommu (.__iommuMap iova paddr size)) ret a →
      ret = (0 : Int)) :
    Safe owning L u job mem (fun _ => Holds u S)
      (iommuDmaMapPageIova dev page iova firstIova 0 PAGE_SIZE) w := by
  have lasting : ∀ a b, Holds u S a → Undisturbed u a b → Holds u S b :=
    fun _ _ holds moved => holds_later holds moved
  have placed : ∀ w, Owned w → Holds u S w → Safe owning L u job mem (fun _ => Holds u S)
      (placePage dev page iova firstIova) w := by
    intro w _ holds
    simp only [placeAt, some_iova, ↓reduceIte, iommuMapAtomic, _iommuMap, iommuCall, Tree.bind_eq,
      Tree.ask_bind, Tree.call_bind]
    refine owned_call lasting holds (fun a holds => ⟨r, holds r member, within⟩) ?_
    intro a ret b _ _ holds allowed run
    obtain rfl := succeeds _ _ _ _ allowed
    have written := exec_map.mp run
    simp only [↓reduceIte] at written
    subst written
    split
    · refine plain_call (holds_live holds rfl) (fun _ => trivial)
        (fun _ a b run => by rw [exec_sync_map.mp run]) ?_
      exact fun _ _ _ _ holds _ _ => owned_done (fun _ _ => holds_later) holds
    · exact owned_done (fun _ _ => holds_later) (holds_live holds rfl)
  rw [map_page_iova_eq]
  simp only [mapPageTail, iommuCall, Tree.bind_eq, Tree.ask_bind, Tree.pure_eq]
  have mapped : Safe owning L u job mem (fun _ => Holds u S)
      (__iommuDmaMap dev (pageToPhys page) iova firstIova PAGE_SIZE) w := by
    rw [dma_map_page_eq]
    refine plain_call now (fun _ => trivial) (fun _ a b run => by rw [exec_deferred_attach.mp run]) ?_
    intro a attach b kept holds _ _
    split
    · exact owned_done (fun _ _ => holds_later) holds
    · exact placed b kept holds
  refine Safe.bind kept mapped ?_
  intro ret w _ holds
  split
  · exact swiotlb_unmap_owned holds fun w holds => owned_done (fun _ _ => holds_later) holds
  · exact owned_done (fun _ _ => holds_later) holds

/- Driver programs that keep the ranges of S. -/
def Keeps (u : Nat) (L : DomainLimits) (job : DomainJob) (mem : Party) (rq : Rq)
    (S : Range → Prop) (t : Rx α) (w : World) : Prop :=
  Safe owning L u job mem (fun _ => Holds u S) (onDevice rq.dev t) w

variable {rq : Rq} (api : DmaApi rq.dev)

theorem keeps_done {a : α} (now : Holds u S w) : Keeps u L job mem rq S (.done a) w :=
  owned_done (fun _ _ => holds_later) now

theorem keeps_bind {t : Rx α} {next : α → Rx β} {last : β → World → Prop} (kept : Owned w)
    (first : Keeps u L job mem rq S t w)
    (rest : ∀ a w, Owned w → Holds u S w → Safe owning L u job mem last (onDevice rq.dev (next a)) w) :
    Safe owning L u job mem last (onDevice rq.dev (t.bind next)) w := by
  simp only [onDevice, Tree.interp_bind]
  exact Safe.bind kept first rest

theorem keeps_page_call {op : PageOp} {rest : op.Ans → Rx α} (now : Holds u S w)
    (fire : ∀ r w, Owned w → Holds u S w → Safe owning L u job mem post (onDevice rq.dev (rest r)) w) :
    Safe owning L u job mem post (onDevice rq.dev ((pageCall op).bind rest)) w :=
  plain_call now (fun _ => trivial) (fun _ _ _ run => (page_keeps_iommu run).live)
    fun _ r b kept holds _ _ => fire r b kept holds

/- Slots below the last leave the unmapping to it. -/
theorem skipped_unmap_keeps {page : Page} {iovaSize : Nat} (some_size : iovaSize ≠ 0)
    (now : Holds u S w) :
    Keeps u L job mem rq S (mlx5ePageDmaUnmap page iovaSize false) w := by
  simp only [mlx5ePageDmaUnmap, ne_eq, some_size, not_false_eq_true, Bool.false_eq_true, ↓reduceIte,
    Tree.bind_eq]
  exact keeps_page_call now fun _ w _ holds => keeps_page_call holds fun _ w _ holds => keeps_done holds

include api

theorem single_unmap_keeps {page : Page} {freeIova : Bool} (now : Holds u S w)
    (gone : ∀ iova phys a, L.call u job mem (.iommu (.iommuIovaToPhys iova)) phys a →
      phys = (0 : Nat)) :
    Keeps u L job mem rq S (mlx5ePageDmaUnmap page 0 freeIova) w := by
  simp only [mlx5ePageDmaUnmap, ne_eq, not_true_eq_false, ↓reduceIte, Tree.bind_eq]
  refine keeps_page_call now fun addr w kept holds => ?_
  refine keeps_bind kept ?_ fun _ w _ holds => keeps_page_call holds fun _ w _ holds => keeps_done holds
  simp only [Keeps, onDevice, dmaCall, Tree.ask, Tree.interp_call, Tree.interp_done, dmaImpl,
    unmap_route api, Tree.bind_done]
  exact unmap_page_owned holds fun phys a found allowed => absurd (gone _ phys a allowed) found

omit api in
theorem release_dynamic_keeps {page : Page} {recycle freeIova : Bool} {iovaSize : Nat}
    {T : Range → Prop} (now : Holds u S w) (smaller : ∀ r, T r → S r)
    (unmapped : ∀ w, Owned w → Holds u S w →
      Keeps u L job mem rq T (mlx5ePageDmaUnmap page iovaSize freeIova) w) (kept : Owned w) :
    Keeps u L job mem rq T (mlx5ePageReleaseDynamic page recycle iovaSize freeIova) w := by
  cases recycle with
  | false =>
    simp only [mlx5ePageReleaseDynamic, Bool.false_eq_true, ↓reduceIte, Tree.bind_eq]
    refine keeps_bind kept (unmapped w kept now) fun _ w _ holds => ?_
    exact keeps_page_call holds fun _ w _ holds => keeps_page_call holds fun _ w _ holds => keeps_done holds
  | true =>
    simp only [mlx5ePageReleaseDynamic, ↓reduceIte, Tree.bind_eq]
    refine keeps_page_call now fun accepted w kept holds => ?_
    split
    · exact keeps_done fun r inside => holds r (smaller r inside)
    · refine keeps_bind kept (unmapped w kept holds) fun _ w _ holds => ?_
      exact keeps_page_call holds fun _ w _ holds => keeps_done holds

omit api in
theorem release_keeps {di : DmaInfo} {recycle : Bool} {T : Range → Prop} (now : Holds u S w)
    (smaller : ∀ r, T r → S r)
    (unmapped : ∀ page w, Owned w → Holds u S w →
      Keeps u L job mem rq T (mlx5ePageDmaUnmap page di.iovaSize di.freeIova) w) (kept : Owned w) :
    Keeps u L job mem rq T (mlx5ePageRelease rq di recycle) w := by
  have less : ∀ w, Holds u S w → Holds u T w := fun w holds r inside => holds r (smaller r inside)
  unfold mlx5ePageRelease
  split
  · split
    · exact keeps_page_call (less w now) fun _ w _ holds => keeps_done holds
    · exact keeps_done (less w now)
  · split
    · exact release_dynamic_keeps now smaller (unmapped _) kept
    · exact keeps_done (less w now)

end

theorem queue_job_reaches {L : DomainLimits} {run : (op : KernelOp) → op.Ans → World → Option World}
    {u : Nat} {job : RxJob} {rq : Rq} {mem out : RxMem} {f : Nat → Phase KernelOp KernelOp.Ans Party DomainJob}
    {w last : World} {trace : List KernelEvent} (idle : f u = .idle (.queue rq mem))
    (can : poolJobs job ∧ RxQueue.ready job mem) (allowed : L.start u (.queue job) (.queue rq mem) w)
    (sound : ∀ op r a b, run op r a = some b →
      L.call u (.queue job) (.queue rq mem) op r a ∧ exec u op r a = some b)
    (ran : Exec run (RxQueue.body rq job mem) w trace out last) :
    Reaches domainPool L ⟨f, w⟩ ⟨Function.update f u (.idle (.queue rq out)), last⟩ := by
  have whole : Exec run (domainBody (.queue job) (.queue rq mem)) w (trace ++ []) (.queue rq out) last :=
    exec_bind_iff.mpr ⟨_, _, _, _, ran, .done _ _, rfl⟩
  have ready : domainPool.ready u (.queue job) (.queue rq mem) := can
  exact job_exec_ends idle ready allowed sound whole

end SharedDomain
