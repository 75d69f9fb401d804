import FastSafeIO.IovaReuse

/- Any number of users map batches of 64 pages and give them back in one go, the way the
   receive driver does, while others allocate IOVAs. -/
namespace BatchReuse
open CallTree KernelCalls DmaLayer IommuWorld AgentPool IovaReuse
set_option linter.style.nameCheck false

/- A user keeps the bases of the batches it has mapped. -/
structure BatchUser where
  dev : Device
  base : Nat → Option Nat

/- A slot without a page was filled from the cache and maps nothing. -/
inductive BatchJob where
  | mapBatch (h : Nat) (pages : Nat → Option Page)
  | unmapBatch (h : Nat) (checked : Bool)
  | allocIova (size : Nat)

def mapPages (dev : Device) (base : Nat) (pages : Nat → Option Page) : Nat → Nat → Kernel Bool
  | 0, _ => pure true
  | left + 1, i =>
    match pages i with
    | none => mapPages dev base pages left (i + 1)
    | some page => do
      let addr ← iommuDmaMapPageIova dev page (base + i * 4096) (i == 0) 0 PAGE_SIZE
      if addr = DMA_MAPPING_ERROR then
        pure false
      else
        mapPages dev base pages left (i + 1)

/- The unmap comes with or without the test of the first translation. -/
def batchBody : BatchJob → BatchUser → Kernel BatchUser
  | .mapBatch h pages, mem => do
    let base ← iommuCall (.iommuDmaAllocIova (4096 * 64))
    if base = 0 then
      pure mem
    else
      let mapped ← mapPages mem.dev base pages 64 0
      pure (if mapped then { mem with base := Function.update mem.base h (some base) } else mem)
  | .unmapBatch h checked, mem =>
    match mem.base h with
    | none => pure mem
    | some base => do
      let dmaAddr := sub64 (base + 63 * 4096) (63 * 4096)
      if checked then
        iommuDmaUnmapPageIova dmaAddr (PAGE_SIZE * 64) (4096 * 64) true
      else
        __iommuDmaUnmapIova dmaAddr (PAGE_SIZE * 64) (4096 * 64) true
      pure { mem with base := Function.update mem.base h none }
  | .allocIova size, mem => do
    let _ ← iommuCall (.iommuDmaAllocIova size)
    pure mem

def batchReady : BatchJob → BatchUser → Prop
  | .mapBatch h _, mem => mem.base h = none
  | _, _ => True

def batchPool : Pool Nat KernelOp KernelOp.Ans World BatchUser BatchJob where
  exec := exec
  drift := Background
  ready _ := batchReady
  body := batchBody

abbrev BatchConfig : Type := Config Nat KernelOp KernelOp.Ans World BatchUser BatchJob

abbrev BatchLimits : Type := Limits Nat KernelOp KernelOp.Ans World BatchUser BatchJob

def reusing : Discipline batchPool where
  inv := Clean
  rely := Kept
  ok _ _ _ _ _ := True
  result _ _ _ _ _ := True
  rely_refl := kept_refl
  rely_trans := kept_trans
  drift_kept := background_kept

def InBatch (base x : Nat) : Prop := (⟨base, PAGE_SIZE * 64⟩ : Range).Has x

/- The pages of slots i and up. -/
def FromSlot (base i x : Nat) : Prop := base / PAGE_SIZE + i ≤ x ∧ x < base / PAGE_SIZE + 64

section
variable {u : Nat} {job : BatchJob} {mem : BatchUser} {α : Type} {post : α → World → Prop}
  {P Q : Nat → Prop} {w : World}

theorem clean_call {op : KernelOp} {rest : op.Ans → Kernel α} {A : World → Prop}
    (lasting : ∀ a b, A a → Kept u a b → A b) (now : A w) (entitled : ∀ a, A a → Entitled u op a)
    (fire : ∀ a s b, Clean a → Clean b → A a → exec u op s a = some b →
      Safe reusing .unlimited u job mem post (rest s) b) :
    Safe reusing .unlimited u job mem post (.call op rest) w := by
  refine safe_call A now (fun a b holds _ moved => lasting a b holds moved) ?_
  intro a clean holds
  refine ⟨trivial, fun s b _ run => ?_⟩
  obtain ⟨kept, others⟩ := entitled_call clean (entitled a holds) run
  exact ⟨kept, others, fire a s b clean kept holds run⟩

theorem clean_done {a : α} (lasting : ∀ b c, post a b → Kept u b c → post a c) (now : post a w) :
    Safe reusing .unlimited u job mem post (.done a) w :=
  fun b _ moved => lasting w b now moved

/- Pages kept mapped or not (P), and pages known to be unmapped (Q). -/
def Hold (u : Nat) (P Q : Nat → Prop) (w : World) : Prop := Mine u P w ∧ Mine u Q w ∧ Bare Q w

theorem hold_later {a b : World} (hold : Hold u P Q a) (moved : Kept u a b) : Hold u P Q b :=
  ⟨mine_later hold.1 moved, mine_later hold.2.1 moved, bare_later hold.2.1 hold.2.2 moved⟩

theorem mine_outside {a b : World} {r : Range} (mine : Mine u P a) (apart : ∀ x, P x → ¬ r.Has x)
    {o : Owner} (owner : b.owner = fill a.owner r o) : Mine u P b := fun x inside => by
  rw [owner, fill_out (apart x inside)]
  exact mine x inside

/- Giving pages outside P back. -/
theorem free_keeps {iova size : Nat} {gather : Option IotlbGather} {a b : World} {s : Unit}
    (run : exec u (.iommu (.iommuDmaFreeIova iova size gather)) s a = some b) (mine : Mine u P a)
    (apart : ∀ x, P x → ¬ (⟨iova, size⟩ : Range).Has x) : Mine u P b := by
  have freed := exec_free_iova.mp run
  split at freed
  · subst freed
    exact mine_outside mine apart rfl
  · subst freed
    exact mine_outside mine apart rfl

/- Afterwards the pages of the range belong to the allocator, or wait for a flush. -/
theorem unmap_iova_keeps {base : Nat} (aligned : base % PAGE_SIZE = 0)
    (apart : ∀ x, P x → ¬ InBatch base x) (now : Mine u P w ∧ Mine u (InBatch base) w) :
    Safe reusing .unlimited u job mem (fun _ => Mine u P)
      (__iommuDmaUnmapIova base (PAGE_SIZE * 64) (4096 * 64) true) w := by
  have whole : iovaAlign (PAGE_SIZE * 64) = PAGE_SIZE * 64 := by decide
  have lasting : ∀ a b, Mine u P a ∧ Mine u (InBatch base) a → Kept u a b →
      Mine u P b ∧ Mine u (InBatch base) b :=
    fun a b both moved => ⟨mine_later both.1 moved, mine_later both.2 moved⟩
  have lastingAbsent : ∀ a b, (Mine u P a ∧ Mine u (InBatch base) a) ∧
      (∀ x, InBatch base x → a.pt x = none) → Kept u a b →
      (Mine u P b ∧ Mine u (InBatch base) b) ∧ ∀ x, InBatch base x → b.pt x = none :=
    fun a b both moved => ⟨lasting a b both.1 moved, fun x inside =>
      (moved x (both.1.2 x inside)).2.1.trans (both.2 x inside)⟩
  rw [unmap_aligned_eq _ _ aligned whole]
  simp only [giveBack, ↓reduceIte]
  refine clean_call lasting now (fun _ _ => trivial) ?_
  intro a queued b _ _ both run
  obtain ⟨rfl, rfl⟩ := exec_fq_domain.mp run
  refine clean_call lasting both (fun a both => both.2) ?_
  intro a out c _ _ both run
  obtain ⟨rfl, rfl⟩ := exec_unmap_fast.mp run
  have absent : ∀ x, InBatch base x → (a.clear ⟨base, PAGE_SIZE * 64⟩).pt x = none :=
    fun x inside => fill_in inside
  split
  · rename_i waits
    refine clean_call lastingAbsent ⟨both, absent⟩
      (fun a now => ⟨now.1.2, now.2, Or.inl (by simpa using waits)⟩) ?_
    intro a _ d _ _ now run
    exact clean_done (fun _ _ => mine_later) (free_keeps run now.1.1 apart)
  · refine clean_call lastingAbsent ⟨both, absent⟩ (fun _ _ => trivial) ?_
    intro a _ d _ _ now run
    have synced := exec_sync.mp run
    simp only at synced
    subst synced
    -- nothing is mapped, so the IOTLB cannot learn these pages again
    have hold : Hold u P (InBatch base) (a.invalidate ⟨base, PAGE_SIZE * 64⟩) := by
      refine ⟨now.1.1, now.1.2, fun x inside => ⟨now.2 x inside, fun f member => ?_⟩⟩
      have outside := (List.mem_filter.mp member).2
      simp only [Bool.not_eq_eq_eq_not, Bool.not_true, decide_eq_false_iff_not] at outside
      exact absurd inside outside
    refine clean_call (fun _ _ => hold_later) hold
      (fun a hold => ⟨hold.2.1, fun x inside => (hold.2.2 x inside).1, Or.inr hold.2.2⟩) ?_
    intro a _ d _ _ hold run
    exact clean_done (fun _ _ => mine_later) (free_keeps run hold.1 apart)

theorem unmap_page_keeps {base : Nat} (aligned : base % PAGE_SIZE = 0)
    (apart : ∀ x, P x → ¬ InBatch base x) (now : Mine u P w ∧ Mine u (InBatch base) w) :
    Safe reusing .unlimited u job mem (fun _ => Mine u P)
      (iommuDmaUnmapPageIova base (PAGE_SIZE * 64) (4096 * 64) true) w := by
  have lasting : ∀ a b, Mine u P a ∧ Mine u (InBatch base) a → Kept u a b →
      Mine u P b ∧ Mine u (InBatch base) b :=
    fun a b both moved => ⟨mine_later both.1 moved, mine_later both.2 moved⟩
  simp only [iommuDmaUnmapPageIova, iommuCall, Tree.bind_eq, Tree.ask_bind, Tree.pure_eq]
  refine clean_call lasting now (fun _ _ => trivial) ?_
  intro a phys b _ clean both run
  obtain ⟨_, rfl⟩ := exec_iova_to_phys.mp run
  split
  · exact clean_done (fun _ _ => mine_later) both.1
  · refine Safe.bind clean (unmap_iova_keeps aligned apart both) ?_
    intro _ w _ mine
    refine clean_call (fun _ _ => mine_later) mine (fun _ _ => trivial) ?_
    intro a bounced b _ _ mine run
    rw [exec_swiotlb_buffer.mp run]
    split
    · refine clean_call (fun _ _ => mine_later) mine (fun _ _ => trivial) ?_
      intro a _ b _ _ mine run
      rw [exec_swiotlb_unmap.mp run]
      exact clean_done (fun _ _ => mine_later) mine
    · exact clean_done (fun _ _ => mine_later) mine

/- The pages of the other batches and of this one. -/
def With (P : Nat → Prop) (base x : Nat) : Prop := P x ∨ InBatch base x

/- In the middle of mapping a batch: slots below i are done with. -/
abbrev Mapping (u : Nat) (P : Nat → Prop) (base i : Nat) : World → Prop :=
  Hold u (With P base) (FromSlot base i)

theorem slot_page {base i x : Nat} (aligned : base % PAGE_SIZE = 0)
    (inside : (⟨base + i * 4096, PAGE_SIZE⟩ : Range).Has x) : x = base / PAGE_SIZE + i := by
  simp only [Range.Has, PAGE_SIZE] at aligned inside ⊢
  omega

theorem from_slot_in_batch {base i x : Nat} (inside : FromSlot base i x) : InBatch base x := by
  simp only [FromSlot, InBatch, Range.Has, PAGE_SIZE] at inside ⊢
  omega

theorem mapping_next {base i : Nat} (hold : Mapping u P base i w) : Mapping u P base (i + 1) w := by
  have earlier : ∀ x, FromSlot base (i + 1) x → FromSlot base i x := by
    intro x inside
    simp only [FromSlot] at inside ⊢
    omega
  exact ⟨hold.1, fun x inside => hold.2.1 x (earlier x inside),
    fun x inside => hold.2.2 x (earlier x inside)⟩

theorem mapping_others {base i : Nat} (hold : Mapping u P base i w) : Mine u P w :=
  fun x inside => hold.1 x (Or.inl inside)

/- After an error the batch is given up; otherwise the next slot follows. -/
def MapOutcome (u : Nat) (P : Nat → Prop) (base i : Nat) (failed : Prop) (w : World) : Prop :=
  Mine u P w ∧ (¬ failed → Mapping u P base (i + 1) w)

theorem map_outcome_later {base i : Nat} {failed : Prop} {a b : World}
    (result : MapOutcome u P base i failed a) (moved : Kept u a b) :
    MapOutcome u P base i failed b :=
  ⟨mine_later result.1 moved, fun good => hold_later (result.2 good) moved⟩

theorem slot_mine {base i : Nat} (aligned : base % PAGE_SIZE = 0) (below : i < 64)
    (now : Mapping u P base i w) : Mine u (⟨base + i * 4096, PAGE_SIZE⟩ : Range).Has w := by
  intro x inside
  rw [slot_page aligned inside]
  exact now.2.1 _ ⟨Nat.le_refl _, by omega⟩

/- A map call takes the batch one page further, or fails and leaves it where it was. -/
theorem map_atomic_keeps {dev : Device} {base i phys : Nat} {firstIova : Bool}
    (aligned : base % PAGE_SIZE = 0) (below : i < 64) (now : Mapping u P base i w) :
    Safe reusing .unlimited u job mem
      (fun ret w => if ret = 0 then Mapping u P base (i + 1) w else Mapping u P base i w)
      (iommuMapAtomic dev (base + i * 4096) firstIova phys PAGE_SIZE) w := by
  have later : ∀ ret : Int, ∀ a b, (if ret = 0 then Mapping u P base (i + 1) a else Mapping u P base i a) →
      Kept u a b → if ret = 0 then Mapping u P base (i + 1) b else Mapping u P base i b := by
    intro ret a b now moved
    split at now
    · rename_i good
      rw [if_pos good]
      exact hold_later now moved
    · rename_i bad
      rw [if_neg bad]
      exact hold_later now moved
  simp only [iommuMapAtomic, _iommuMap, iommuCall, Tree.bind_eq, Tree.ask_bind]
  refine clean_call (fun _ _ => hold_later) now (fun a hold => slot_mine aligned below hold) ?_
  intro a ret b _ _ hold run
  have written := exec_map.mp run
  have after : if ret = 0 then Mapping u P base (i + 1) b else Mapping u P base i b := by
    split at written
    · rename_i good
      subst written
      rw [if_pos good]
      refine ⟨hold.1, (mapping_next hold).2.1, fun x inside => ?_⟩
      have outside : ¬ (⟨base + i * 4096, PAGE_SIZE⟩ : Range).Has x := by
        intro here
        have := slot_page aligned here
        simp only [FromSlot] at inside
        omega
      exact ⟨(if_neg outside).trans ((mapping_next hold).2.2 x inside).1,
        ((mapping_next hold).2.2 x inside).2⟩
    · rename_i bad
      subst written
      rw [if_neg bad]
      exact hold
  split
  · refine clean_call (later ret) after (fun _ _ => trivial) ?_
    intro a _ b _ _ still run
    rw [exec_sync_map.mp run]
    exact clean_done (later ret) still
  · exact clean_done (later ret) after

theorem place_keeps {dev : Device} {page : Page} {base i : Nat} {firstIova : Bool}
    (aligned : base % PAGE_SIZE = 0) (below : i < 64) (apart : ∀ x, P x → ¬ InBatch base x)
    (clean : Clean w) (now : Mapping u P base i w) :
    Safe reusing .unlimited u job mem (fun ret => MapOutcome u P base i (ret = DMA_MAPPING_ERROR))
      (placePage dev page (base + i * 4096) firstIova) w := by
  have slot : FromSlot base i (base / PAGE_SIZE + i) := ⟨Nat.le_refl _, by omega⟩
  unfold placePage placeAt
  split
  · exact clean_done (fun _ _ => map_outcome_later) ⟨mapping_others now, fun good => absurd rfl good⟩
  · refine Safe.bind clean (map_atomic_keeps aligned below now) ?_
    intro ret w _ after
    split
    · rename_i bad
      rw [if_neg bad] at after
      refine clean_call (fun _ _ => hold_later) after
        (fun a hold => ⟨slot_mine aligned below hold, ?_, Or.inr ?_⟩) ?_
      · intro x inside
        rw [slot_page aligned inside]
        exact (hold.2.2 _ slot).1
      · intro x inside
        rw [slot_page aligned inside]
        exact hold.2.2 _ slot
      · intro a _ b _ _ hold run
        refine clean_done (fun _ _ => map_outcome_later)
          ⟨free_keeps run (mapping_others hold) fun x other inside => ?_, fun good => absurd rfl good⟩
        rw [slot_page aligned inside] at other
        exact apart _ other (from_slot_in_batch slot)
    · rename_i good
      rw [if_pos (not_not.mp good)] at after
      exact clean_done (fun _ _ => map_outcome_later) ⟨mapping_others after, fun _ => after⟩

theorem map_page_keeps {dev : Device} {page : Page} {base i : Nat} {firstIova : Bool}
    (aligned : base % PAGE_SIZE = 0) (some_base : base ≠ 0) (below : i < 64)
    (apart : ∀ x, P x → ¬ InBatch base x) (clean : Clean w) (now : Mapping u P base i w) :
    Safe reusing .unlimited u job mem (fun ret => MapOutcome u P base i (ret = DMA_MAPPING_ERROR))
      (iommuDmaMapPageIova dev page (base + i * 4096) firstIova 0 PAGE_SIZE) w := by
  have mapped : Safe reusing .unlimited u job mem
      (fun ret => MapOutcome u P base i (ret = DMA_MAPPING_ERROR))
      (__iommuDmaMap dev (pageToPhys page) (base + i * 4096) firstIova PAGE_SIZE) w := by
    rw [dma_map_page_eq]
    refine clean_call (fun _ _ => hold_later) now (fun _ _ => trivial) ?_
    intro a attach b clean _ hold run
    rw [exec_deferred_attach.mp run]
    split
    · exact clean_done (fun _ _ => map_outcome_later) ⟨mapping_others hold, fun good => absurd rfl good⟩
    · rw [if_pos (by omega)]
      exact place_keeps aligned below apart clean hold
  rw [map_page_iova_eq]
  simp only [mapPageTail, iommuCall, Tree.bind_eq, Tree.ask_bind, Tree.pure_eq]
  refine Safe.bind clean mapped ?_
  intro ret w _ result
  split
  · refine clean_call (fun _ _ => map_outcome_later) result (fun _ _ => trivial) ?_
    intro a bounced b _ _ still run
    rw [exec_swiotlb_buffer.mp run]
    split
    · refine clean_call (fun _ _ => map_outcome_later) still (fun _ _ => trivial) ?_
      intro a _ b _ _ still run
      rw [exec_swiotlb_unmap.mp run]
      exact clean_done (fun _ _ => map_outcome_later) still
    · exact clean_done (fun _ _ => map_outcome_later) still
  · exact clean_done (fun _ _ => map_outcome_later) result

theorem map_pages_keep {dev : Device} {base : Nat} {pages : Nat → Option Page} {left i : Nat}
    (aligned : base % PAGE_SIZE = 0) (some_base : base ≠ 0) (fits : i + left = 64)
    (apart : ∀ x, P x → ¬ InBatch base x) (clean : Clean w) (now : Mapping u P base i w) :
    Safe reusing .unlimited u job mem
      (fun mapped w => Mine u P w ∧ (mapped = true → Mine u (InBatch base) w))
      (mapPages dev base pages left i) w := by
  have lasting : ∀ mapped : Bool, ∀ a b, Mine u P a ∧ (mapped = true → Mine u (InBatch base) a) →
      Kept u a b → Mine u P b ∧ (mapped = true → Mine u (InBatch base) b) :=
    fun _ a b both moved => ⟨mine_later both.1 moved, fun good => mine_later (both.2 good) moved⟩
  induction left generalizing i w with
  | zero => exact clean_done (lasting _) ⟨mapping_others now, fun _ x inside => now.1 x (Or.inr inside)⟩
  | succ left ih =>
    unfold mapPages
    split
    · exact ih (by omega) clean (mapping_next now)
    · simp only [Tree.bind_eq, Tree.pure_eq]
      refine Safe.bind clean (map_page_keeps aligned some_base (by omega) apart clean now) ?_
      intro ret w clean result
      split
      · exact clean_done (lasting _) ⟨result.1, fun impossible => by cases impossible⟩
      · rename_i good
        exact ih (by omega) clean (result.2 good)

end

/- The pages of all batches of a user. -/
def Batched (mem : BatchUser) (x : Nat) : Prop := ∃ h base, mem.base h = some base ∧ InBatch base x

structure BatchesKept (u : Nat) (mem : BatchUser) (w : World) : Prop where
  place : ∀ h base, mem.base h = some base → base % PAGE_SIZE = 0 ∧ base + PAGE_SIZE * 64 ≤ 2 ^ 64
  apart : ∀ h k b c, mem.base h = some b → mem.base k = some c → h ≠ k →
    ∀ x, InBatch b x → ¬ InBatch c x
  mine : Mine u (Batched mem) w

section
variable {u : Nat} {mem : BatchUser} {w : World}

theorem batches_later {a b : World} (kept : BatchesKept u mem a) (moved : Kept u a b) :
    BatchesKept u mem b := { kept with mine := mine_later kept.mine moved }

theorem batches_done {job : BatchJob} {start : BatchUser} (now : BatchesKept u mem w) :
    Safe reusing .unlimited u job start (BatchesKept u) (.done mem) w :=
  clean_done (fun _ _ => batches_later) now

/- A new range has nothing to do with what was owned before, and nobody translates it. -/
theorem allocated_mapping {P : Nat → Prop} {base : Nat} (clean : Clean w) (mine : Mine u P w)
    (available : w.Available ⟨base, PAGE_SIZE * 64⟩) :
    Mapping u P base 0 (w.allocate u ⟨base, PAGE_SIZE * 64⟩) ∧ ∀ x, P x → ¬ InBatch base x := by
  have apart : ∀ x, P x → ¬ InBatch base x := by
    intro x inside new
    have free := available_free available new
    rw [mine x inside] at free
    cases free
  have batch : Mine u (InBatch base) (w.allocate u ⟨base, PAGE_SIZE * 64⟩) :=
    fun x inside => fill_in inside
  refine ⟨⟨?_, fun x inside => batch x (from_slot_in_batch inside), fun x inside => ?_⟩, apart⟩
  · rintro x (other | inside)
    · exact (fill_out (apart x other)).trans (mine x other)
    · exact batch x inside
  · exact free_page_gone clean (available_free available (from_slot_in_batch inside))

theorem batches_with {h base : Nat} (kept : BatchesKept u mem w) (new : mem.base h = none)
    (aligned : base % PAGE_SIZE = 0) (bound : base + PAGE_SIZE * 64 ≤ 2 ^ 64)
    (apart : ∀ x, Batched mem x → ¬ InBatch base x) {now : World} (mine : Mine u (Batched mem) now)
    (batch : Mine u (InBatch base) now) :
    BatchesKept u { mem with base := Function.update mem.base h (some base) } now := by
  have cases : ∀ {k b}, Function.update mem.base h (some base) k = some b →
      (k = h ∧ b = base) ∨ (k ≠ h ∧ mem.base k = some b) := by
    intro k b entry
    by_cases same : k = h
    · subst same
      rw [Function.update_self] at entry
      exact Or.inl ⟨rfl, (Option.some.inj entry).symm⟩
    · rw [Function.update_of_ne same] at entry
      exact Or.inr ⟨same, entry⟩
  refine ⟨fun k b entry => ?_, fun j k b c first second distinct x inside other => ?_, ?_⟩
  · rcases cases entry with ⟨_, rfl⟩ | ⟨_, old⟩
    · exact ⟨aligned, bound⟩
    · exact kept.place k b old
  · rcases cases first with ⟨rfl, rfl⟩ | ⟨_, old⟩
    · rcases cases second with ⟨rfl, rfl⟩ | ⟨_, old'⟩
      · exact distinct rfl
      · exact apart x ⟨k, c, old', other⟩ inside
    · rcases cases second with ⟨rfl, rfl⟩ | ⟨_, old'⟩
      · exact apart x ⟨j, b, old, inside⟩ other
      · exact kept.apart j k b c old old' distinct x inside other
  · rintro x ⟨k, b, entry, inside⟩
    rcases cases entry with ⟨_, rfl⟩ | ⟨_, old⟩
    · exact batch x inside
    · exact mine x ⟨k, b, old, inside⟩

theorem batch_job_is_safe {job : BatchJob} (clean : Clean w) (kept : BatchesKept u mem w)
    (can : batchReady job mem) :
    Safe reusing .unlimited u job mem (BatchesKept u) (batchBody job mem) w := by
  cases job with
  | mapBatch h pages =>
    simp only [batchBody, iommuCall, Tree.bind_eq, Tree.ask_bind, Tree.pure_eq]
    refine clean_call (fun _ _ => batches_later) kept (fun _ _ => trivial) ?_
    intro a base b clean cleanAfter kept run
    split
    · rename_i none
      rcases exec_alloc_iova.mp run with ⟨_, rfl⟩ | ⟨some_base, _⟩
      · exact batches_done kept
      · exact absurd none some_base
    · rename_i some_base
      rcases exec_alloc_iova.mp run with ⟨none, _⟩ | ⟨_, aligned, bound, _, available, rfl⟩
      · exact absurd none some_base
      · obtain ⟨mapping, apart⟩ := allocated_mapping clean kept.mine available
        refine Safe.bind cleanAfter
          (map_pages_keep aligned some_base rfl apart cleanAfter mapping) ?_
        rintro mapped w _ ⟨mine, batch⟩
        refine batches_done ?_
        split
        · rename_i all
          exact batches_with kept can aligned bound apart mine (batch all)
        · exact { kept with mine := mine }
  | unmapBatch h checked =>
    simp only [batchBody]
    split
    · exact batches_done kept
    · rename_i base entry
      obtain ⟨aligned, bound⟩ := kept.place h base entry
      have start : sub64 (base + 63 * 4096) (63 * 4096) = base := by
        apply sub64_back
        unfold PAGE_SIZE at bound
        omega
      have old : ∀ {k b}, Function.update mem.base h none k = some b → k ≠ h ∧ mem.base k = some b := by
        intro k b present
        have distinct : k ≠ h := by
          rintro rfl
          simp at present
        exact ⟨distinct, by rwa [Function.update_of_ne distinct] at present⟩
      have rest : ∀ x, Batched { mem with base := Function.update mem.base h none } x → Batched mem x := by
        rintro x ⟨k, b, present, inside⟩
        exact ⟨k, b, (old present).2, inside⟩
      have apart : ∀ x, Batched { mem with base := Function.update mem.base h none } x →
          ¬ InBatch base x := by
        rintro x ⟨k, b, present, inside⟩
        exact kept.apart k h b base (old present).2 entry (old present).1 x inside
      have last : ∀ w, Mine u (Batched { mem with base := Function.update mem.base h none }) w →
          BatchesKept u { mem with base := Function.update mem.base h none } w := fun w mine =>
        ⟨fun k b present => kept.place k b (old present).2,
          fun j k b c first second => kept.apart j k b c (old first).2 (old second).2, mine⟩
      have now : Mine u (Batched { mem with base := Function.update mem.base h none }) w ∧
          Mine u (InBatch base) w :=
        ⟨fun x inside => kept.mine x (rest x inside), fun x inside => kept.mine x ⟨h, base, entry, inside⟩⟩
      simp only [start, Tree.bind_eq, Tree.pure_eq]
      split
      · refine Safe.bind clean (unmap_page_keeps aligned apart now) ?_
        exact fun _ w _ mine => batches_done (last w mine)
      · refine Safe.bind clean (unmap_iova_keeps aligned apart now) ?_
        exact fun _ w _ mine => batches_done (last w mine)
  | allocIova size =>
    simp only [batchBody, iommuCall, Tree.bind_eq, Tree.ask_bind, Tree.pure_eq]
    refine clean_call (fun _ _ => batches_later) kept (fun _ _ => trivial) ?_
    intro a base b _ _ kept run
    refine batches_done ?_
    rcases exec_alloc_iova.mp run with ⟨_, rfl⟩ | ⟨_, _, _, _, available, rfl⟩
    · exact kept
    · refine { kept with mine := fun x inside => (fill_out fun new => ?_).trans (kept.mine x inside) }
      have free := available_free available new
      rw [kept.mine x inside] at free
      cases free

end

def startBatches (w : World) (user : Nat → BatchUser) : BatchConfig := ⟨fun u => .idle (user u), w⟩

/- Whatever the allocator hands out is not translated by anything. -/
def CleanReuse (d : BatchConfig) : Prop :=
  ∀ u job mem size base (rest : Nat → Kernel BatchUser) after,
    d.phase u = .busy job mem (.call (.iommu (.iommuDmaAllocIova size)) rest) →
    exec u (.iommu (.iommuDmaAllocIova size)) base d.world = some after → base ≠ 0 →
    ∀ x, (⟨base, size⟩ : Range).Has x → Gone x d.world

theorem start_world_clean (fq : Bool) : Clean (startWorld fq) where
  pte x f present := by simp [startWorld] at present
  tlb x f member := by simp [startWorld] at member
  flushed r waiting := by simp [startWorld] at waiting
  parked e waiting := by simp [startWorld] at waiting
  apart := List.Pairwise.nil

theorem reused_iova_is_clean (fq : Bool) (user : Nat → BatchUser)
    (new : ∀ u h, (user u).base h = none) (d : BatchConfig)
    (run : Reaches batchPool .unlimited (startBatches (startWorld fq) user) d) : CleanReuse d := by
  have start : ConfigOk reusing .unlimited BatchesKept (startBatches (startWorld fq) user) := by
    refine ⟨start_world_clean fq, fun u => ⟨fun h base entry => ?_, fun h _ b _ entry => ?_, ?_⟩⟩
    · simp [new] at entry
    · simp [new] at entry
    · rintro x ⟨h, base, entry, _⟩
      simp [new] at entry
  have last := run_keeps_config_ok BatchesKept
    (fun _ _ _ _ kept _ moved => batches_later kept moved)
    (fun _ _ _ _ clean kept can _ => Safe.mono (batch_job_is_safe clean kept can)
      fun _ _ _ kept => ⟨kept, trivial⟩) start run
  intro u job mem size base rest after _ handed some_base x inside
  rcases exec_alloc_iova.mp handed with ⟨none, _⟩ | ⟨_, _, _, _, available, _⟩
  · exact absurd none some_base
  · exact free_page_gone last.1 (available_free available inside)

def sparsePages (i : Nat) : Option Page := if i = 0 then some samplePage else none

def sameBase : Choices where
  cacheGet _ := none
  cacheTakes := true
  freshPage _ := none
  iovaBase _ := 0x100000
  attachFails _ := false
  mapFails _ := false

def noBatch : BatchUser := ⟨translated, fun _ => none⟩

def oneBatch : BatchUser := ⟨translated, Function.update (fun _ => none) 0 (some 0x100000)⟩

def batchRange : Range := ⟨0x100000, 0x40000⟩

/- In d the range of a batch is about to be handed out again: after first, where it was mapped
   and in the IOTLB, it was given back. -/
structure HandedAgain (fq : Bool) (d : BatchConfig) (rest : Nat → Kernel BatchUser) (after : World) :
    Prop where
  used : ∃ first, Reaches batchPool .unlimited (startBatches (startWorld fq) fun _ => noBatch) first ∧
    (0, batchRange) ∈ first.world.live ∧ first.world.pt 0x100 = some 7 ∧ (0x100, 7) ∈ first.world.tlb ∧
    Reaches batchPool .unlimited first d
  back : d.world.live = []
  asked : ∃ mem, d.phase 0 = .busy (.allocIova 0x40000) mem (.call (.iommu (.iommuDmaAllocIova 0x40000)) rest)
  handed : exec 0 (.iommu (.iommuDmaAllocIova 0x40000)) (0x100000 : Nat) d.world = some after

theorem drift_reaches {phase : Nat → Phase KernelOp KernelOp.Ans BatchUser BatchJob} {a b : World}
    (drift : Relation.ReflTransGen Background a b) :
    Reaches batchPool .unlimited ⟨phase, a⟩ ⟨phase, b⟩ := by
  induction drift with
  | refl => exact .refl
  | tail _ moved ih => exact ih.tail (.drift moved)

/- A user maps a batch, the device uses its first page, and the user gives the batch back. What
   the kernel does then by itself makes the range free. -/
theorem handed_again {fq : Bool} {n : Nat} {second : BatchUser} {mapped back free after : World}
    (maps : advance (exec 0) sameBase.answer 3 (batchBody (.mapBatch 0 sparsePages) noBatch) (startWorld fq) =
      some (.done oneBatch, mapped))
    (first : mapped.pt 0x100 = some 7) (live : (0, batchRange) ∈ mapped.live)
    (unmaps : advance (exec 0) sameBase.answer n (batchBody (.unmapBatch 0 true) oneBatch)
      { mapped with tlb := (0x100, 7) :: mapped.tlb } = some (.done second, back))
    (drains : Relation.ReflTransGen Background back free) (none : free.live = [])
    (handed : exec 0 (.iommu (.iommuDmaAllocIova 0x40000)) (0x100000 : Nat) free = some after) :
    ∃ d rest, HandedAgain fq d rest after := by
  have sound : ∀ (job : BatchJob) (mem : BatchUser) (op : KernelOp) (r : op.Ans) (a b : World),
      exec 0 op r a = some b →
        (.unlimited : BatchLimits).call 0 job mem op r a ∧ batchPool.exec 0 op r a = some b :=
    fun _ _ _ _ _ _ same => ⟨trivial, same⟩
  have run := job_run_reaches (P := batchPool) (L := .unlimited) (u := 0)
    (c := startBatches (startWorld fq) fun _ => noBatch) (.mapBatch 0 sparsePages) noBatch rfl rfl trivial
    (sound _ _) maps
  have used := run.trans (drift_reaches (.single (.access (.cache first))))
  have gives := job_run_reaches (P := batchPool) (L := .unlimited) (u := 0)
    (c := ⟨Function.update (fun _ => .idle noBatch) 0 (.idle oneBatch),
      { mapped with tlb := (0x100, 7) :: mapped.tlb }⟩) (.unmapBatch 0 true) oneBatch rfl trivial trivial
    (sound _ _) unmaps
  have freed := gives.trans (drift_reaches drains)
  have asks : Reaches batchPool .unlimited _ ⟨_, free⟩ :=
    freed.tail (Step.start (P := batchPool) (u := 0) (show _ = Phase.idle second from rfl)
      (show batchPool.ready 0 (.allocIova 0x40000) second from trivial) trivial)
  exact ⟨_, _, ⟨_, used, live, first, List.mem_cons_self, asks⟩, none, ⟨_, rfl⟩, handed⟩

theorem strict_range_again : ∃ d rest after, HandedAgain false d rest after := by
  have out : ∃ mapped back second after, advance (exec 0) sameBase.answer 3
      (batchBody (.mapBatch 0 sparsePages) noBatch) (startWorld false) = some (.done oneBatch, mapped) ∧
      mapped.pt 0x100 = some 7 ∧ mapped.live = [(0, batchRange)] ∧
      advance (exec 0) sameBase.answer 6 (batchBody (.unmapBatch 0 true) oneBatch)
        { mapped with tlb := (0x100, 7) :: mapped.tlb } = some (.done second, back) ∧ back.live = [] ∧
      exec 0 (.iommu (.iommuDmaAllocIova 0x40000)) (0x100000 : Nat) back = some after :=
    ⟨_, _, _, _, rfl, rfl, rfl, rfl, rfl, rfl⟩
  obtain ⟨mapped, back, second, after, maps, first, live, unmaps, none, handed⟩ := out
  obtain ⟨d, rest, again⟩ := handed_again maps first (by simp [live]) unmaps .refl none handed
  exact ⟨d, rest, after, again⟩

/- In lazy mode the range is free after a flush. -/
theorem lazy_range_again : ∃ d rest after, HandedAgain true d rest after := by
  have out : ∃ mapped back second free after, advance (exec 0) sameBase.answer 3
      (batchBody (.mapBatch 0 sparsePages) noBatch) (startWorld true) = some (.done oneBatch, mapped) ∧
      mapped.pt 0x100 = some 7 ∧ mapped.live = [(0, batchRange)] ∧
      advance (exec 0) sameBase.answer 5 (batchBody (.unmapBatch 0 true) oneBatch)
        { mapped with tlb := (0x100, 7) :: mapped.tlb } = some (.done second, back) ∧
      back.parked = [(batchRange, false)] ∧
      free = { back with tlb := [], parked := [], owner := fill back.owner batchRange .free } ∧
      free.live = [] ∧ exec 0 (.iommu (.iommuDmaAllocIova 0x40000)) (0x100000 : Nat) free = some after :=
    ⟨_, _, _, _, _, rfl, rfl, rfl, rfl, rfl, rfl, rfl, rfl⟩
  obtain ⟨mapped, back, second, free, after, maps, first, live, unmaps, parked, rfl, none, handed⟩ := out
  have all : Background back _ := .flush .invalidateAll
  have drains : Relation.ReflTransGen Background back
      { back with tlb := [], parked := [], owner := fill back.owner batchRange .free } := by
    refine Relation.ReflTransGen.tail (.single all) (.flush (@Flush.complete _ [] [] batchRange ?_))
    rw [parked]
    rfl
  obtain ⟨d, rest, again⟩ := handed_again maps first (by simp [live]) unmaps drains none handed
  exact ⟨d, rest, after, again⟩

/- In both modes the range of a batch comes out clean the second time. -/
theorem second_batch_is_clean :
    (∃ d rest after, HandedAgain false d rest after ∧ ∀ x, batchRange.Has x → Gone x d.world) ∧
    ∃ d rest after, HandedAgain true d rest after ∧ ∀ x, batchRange.Has x → Gone x d.world := by
  have clean : ∀ {fq d rest after}, HandedAgain fq d rest after → ∀ x, batchRange.Has x → Gone x d.world := by
    intro fq d rest after again
    obtain ⟨_, run, _, _, _, more⟩ := again.used
    obtain ⟨mem, asked⟩ := again.asked
    exact reused_iova_is_clean fq _ (fun _ _ => rfl) d (run.trans more) 0 _ mem 0x40000 0x100000 rest after
      asked again.handed (by decide)
  obtain ⟨d, rest, after, strict⟩ := strict_range_again
  obtain ⟨e, rest', after', lazily⟩ := lazy_range_again
  exact ⟨⟨d, rest, after, strict, clean strict⟩, e, rest', after', lazily, clean lazily⟩

end BatchReuse
