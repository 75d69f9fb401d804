import FastSafeIO.RxQueue

/- Protection before release: when the driver gives a page up, the device can no
   longer reach it. Every page is mapped at the address stored in it and nowhere else,
   so the address decides what an unmap has to cover. -/
namespace ReleaseProtection
open CallTree KernelCalls DmaLayer RxDriver IommuWorld AgentPool RxQueue

/- No present PTE maps the page and no IOTLB entry translates to it. -/
def Protected (page : Page) (w : World) : Prop :=
  (∀ x, w.pt x ≠ some page.pfn) ∧ ∀ x, (x, page.pfn) ∉ w.tlb

def givenUp : KernelOp → Option Page
  | .page (.pagePoolRecycleDirect page) => some page
  | .page (.pagePoolReleasePage page) => some page
  | .page (.putPage page) => some page
  | _ => none

/- A page handed to XDP leaves the queue as well. -/
def leaving : KernelOp → Option Page
  | .page (.xdpHandOver page) => some page
  | op => givenUp op

theorem leaving_of_given_up {op : KernelOp} {page : Page} (gives : givenUp op = some page) :
    leaving op = some page := by
  unfold leaving
  split
  · cases gives
  · exact gives

def MappedAt (addr : Page → Nat) (held : Page → Bool) (x frame : Nat) : Prop :=
  ∃ page : Page, page.pfn = frame ∧ held page = true ∧ addr page = x * PAGE_SIZE

/- addr is where each page is mapped; between an unmap and its sync the pages of the
   unmapped range are open: only the IOTLB may still know them. -/
structure Tracked (addr : Page → Nat) (held : Page → Bool) (opened : Nat → Prop) (w : World) :
    Prop where
  pte : ∀ x f, w.pt x = some f → MappedAt addr held x f
  tlb : ∀ x f, (x, f) ∈ w.tlb → MappedAt addr held x f ∧ (w.pt x ≠ none ∨ opened x)

/- An assertion that device accesses do not disturb. -/
def Steady (A : World → Prop) : Prop := ∀ a b, A a → DeviceAccess a b → A b

theorem steady_and {A B : World → Prop} (first : Steady A) (second : Steady B) :
    Steady fun w => A w ∧ B w :=
  fun a b both access => ⟨first a b both.1 access, second a b both.2 access⟩

theorem steady_tables {A : World → Prop} (only : ∀ w tlb, A w → A { w with tlb := tlb }) :
    Steady A := by
  intro a b holds access
  cases access
  exact only a _ holds

theorem steady_tracked (addr : Page → Nat) (held : Page → Bool) (opened : Nat → Prop) :
    Steady (Tracked addr held opened) := by
  intro a b tracked access
  cases access with
  | @cache x frame present =>
    refine ⟨tracked.pte, fun y f member => ?_⟩
    rcases List.mem_cons.mp member with same | old
    · cases same
      exact ⟨tracked.pte x frame present, Or.inl (by simp [present])⟩
    · exact tracked.tlb y f old

theorem steady_protected (page : Page) : Steady (Protected page) := by
  intro a b safe access
  cases access with
  | @cache x frame present =>
    refine ⟨safe.1, fun y member => ?_⟩
    rcases List.mem_cons.mp member with same | old
    · cases same
      exact safe.1 _ present
    · exact safe.2 y old

theorem steady_gone (x : Nat) : Steady (Gone x) := by
  intro a b gone access
  cases access with
  | @cache y frame present =>
    refine ⟨gone.1, fun f member => ?_⟩
    rcases List.mem_cons.mp member with same | old
    · cases same
      simp [gone.1] at present
    · exact gone.2 f old

theorem gone_page_protected {addr : Page → Nat} {held : Page → Bool} {w : World} {page : Page}
    (tracked : Tracked addr held (fun _ => False) w) (gone : Gone (addr page / PAGE_SIZE) w) :
    Protected page w := by
  have here : ∀ x, MappedAt addr held x page.pfn → addr page / PAGE_SIZE = x := by
    rintro x ⟨q, frame, _, place⟩
    rw [← pfn_injective frame, place, PAGE_SIZE]
    omega
  constructor
  · intro x present
    have at_x := here x (tracked.pte x _ present)
    subst at_x
    simp [gone.1] at present
  · intro x member
    have at_x := here x (tracked.tlb x _ member).1
    subst at_x
    exact gone.2 _ member

/- An unmapped page may be put at any address, and given back, without a trace. -/
theorem tracked_of_protected {addr : Page → Nat} {held : Page → Bool} {opened : Nat → Prop}
    {w : World} {page : Page} (tracked : Tracked addr held opened w) (safe : Protected page w)
    (addr' : Page → Nat) (held' : Page → Bool)
    (sameAddr : ∀ q, q ≠ page → addr' q = addr q) (sameHeld : ∀ q, q ≠ page → held' q = held q) :
    Tracked addr' held' opened w := by
  have move : ∀ x f, f ≠ page.pfn → MappedAt addr held x f → MappedAt addr' held' x f := by
    rintro x f other ⟨q, frame, out, place⟩
    have distinct : q ≠ page := fun same => other (by rw [← frame, same])
    exact ⟨q, frame, by rw [sameHeld q distinct, out], by rw [sameAddr q distinct, place]⟩
  constructor
  · intro x f present
    exact move x f (fun same => safe.1 x (same ▸ present)) (tracked.pte x f present)
  · intro x f member
    obtain ⟨mapped, seen⟩ := tracked.tlb x f member
    exact ⟨move x f (fun same => safe.2 x (same ▸ member)) mapped, seen⟩

theorem tracked_clear {addr : Page → Nat} {held : Page → Bool} {w : World}
    (tracked : Tracked addr held (fun _ => False) w) (r : Range) :
    Tracked addr held r.Has (w.clear r) := by
  constructor
  · intro x f present
    simp only [World.clear, fill] at present
    split at present
    · simp at present
    · exact tracked.pte x f present
  · intro x f member
    obtain ⟨mapped, seen⟩ := tracked.tlb x f member
    refine ⟨mapped, ?_⟩
    by_cases inside : r.Has x
    · exact Or.inr inside
    · have present : w.pt x ≠ none := seen.resolve_right id
      exact Or.inl (by simpa [World.clear, fill, inside] using present)

theorem tracked_invalidate {addr : Page → Nat} {held : Page → Bool} {w : World} {r : Range}
    (tracked : Tracked addr held r.Has w) :
    Tracked addr held (fun _ => False) (w.invalidate r) := by
  refine ⟨tracked.pte, fun x f member => ?_⟩
  simp only [World.invalidate, List.mem_filter] at member
  obtain ⟨mapped, seen⟩ := tracked.tlb x f member.1
  have outside : ¬ r.Has x := by simpa using member.2
  exact ⟨mapped, Or.inl (seen.resolve_right outside)⟩

theorem invalidate_gone {w : World} {r : Range} {x : Nat} (inside : r.Has x)
    (absent : w.pt x = none) : Gone x (w.invalidate r) := by
  refine ⟨absent, fun f member => ?_⟩
  simp [World.invalidate, inside] at member

theorem tracked_map {addr : Page → Nat} {held : Page → Bool} {w : World} {page : Page}
    {iova : Nat} (tracked : Tracked addr held (fun _ => False) w) (safe : Protected page w)
    (out : held page = true) (aligned : iova % PAGE_SIZE = 0) :
    Tracked (Function.update addr page iova) held (fun _ => False)
      (w.mapPages ⟨iova, PAGE_SIZE⟩ (pageToPhys page)) := by
  have moved := tracked_of_protected tracked safe
    (Function.update addr page iova) held
    (fun q other => Function.update_of_ne other _ _) (fun _ _ => rfl)
  have alone : ∀ x, (⟨iova, PAGE_SIZE⟩ : Range).Has x → x = iova / PAGE_SIZE := by
    intro x inside
    simp only [Range.Has, PAGE_SIZE] at inside ⊢
    omega
  have fresh : MappedAt (Function.update addr page iova) held (iova / PAGE_SIZE) page.pfn := by
    refine ⟨page, rfl, out, ?_⟩
    simp only [Function.update_self, PAGE_SIZE] at aligned ⊢
    omega
  constructor
  · intro x f present
    simp only [World.mapPages] at present
    split at present
    · rename_i inside
      have place := alone x inside
      subst place
      have frame : page.pfn = f := by
        simpa [pageToPhys, PAGE_SIZE] using present
      exact frame ▸ fresh
    · exact moved.pte x f present
  · intro x f member
    obtain ⟨mapped, seen⟩ := moved.tlb x f member
    refine ⟨mapped, Or.inl ?_⟩
    have present : w.pt x ≠ none := seen.resolve_right id
    simp only [World.mapPages]
    split
    · simp
    · exact present

def protecting (rq : Rq) (kinds : RxJob → Prop) : Discipline (rxPool rq kinds) where
  inv w := w.fq = false
  rely _ := Relation.ReflTransGen DeviceAccess
  ok _ _ _ op w := ∀ page, leaving op = some page → Protected page w
  result _ _ _ _ _ := True
  rely_refl _ _ := .refl
  rely_trans _ _ _ _ := .trans
  drift_kept _ _ access strict := ⟨by cases access; exact strict, fun _ => .single access⟩

theorem steady_star {A : World → Prop} (steady : Steady A) {a b : World} (holds : A a)
    (run : Relation.ReflTransGen DeviceAccess a b) : A b := by
  induction run with
  | refl => exact holds
  | tail _ access ih => exact steady _ _ ih access

section
variable {rq : Rq} {kinds : RxJob → Prop} {L : RxLimits} {job : RxJob} {mem : RxMem}
  {α : Type} {post : α → World → Prop}

theorem fine_call {op : KernelOp} {rest : op.Ans → Kernel α} {w : World} {A : World → Prop}
    (steady : Steady A) (now : A w)
    (release : ∀ a page, A a → leaving op = some page → Protected page a)
    (fire : ∀ a r b, A a → a.fq = false → L.call () job mem op r a → exec 0 op r a = some b →
      Safe (protecting rq kinds) L () job mem post (rest r) b) :
    Safe (protecting rq kinds) L () job mem post (.call op rest) w := by
  refine safe_call A now (fun a b holds _ run => steady_star steady holds run) ?_
  intro a strict holds
  refine ⟨fun page gives => release a page holds gives, fun r b allowed run => ?_⟩
  refine ⟨?_, fun v other => absurd rfl other, fire a r b holds strict allowed run⟩
  exact (exec_keeps_fq run).trans strict

theorem fine_done {a : α} {w : World} (steady : Steady (post a)) (now : post a w) :
    Safe (protecting rq kinds) L () job mem post (.done a) w :=
  fun _ _ run => steady_star steady now run

/- Every page is tracked at its own address. -/
def Calm (addr : Page → Nat) (held : Page → Bool) (w : World) : Prop :=
  w.dmaAddr = addr ∧ w.held = held ∧ Tracked addr held (fun _ => False) w

theorem steady_calm (addr : Page → Nat) (held : Page → Bool) : Steady (Calm addr held) :=
  steady_and (steady_tables fun _ _ same => same)
    (steady_and (steady_tables fun _ _ same => same) (steady_tracked _ _ _))

theorem steady_all_gone (P : Nat → Prop) : Steady fun w => ∀ x, P x → Gone x w :=
  fun a b gone access x inside => steady_gone x a b (gone x inside) access

theorem calm_release {addr : Page → Nat} {held : Page → Bool} {w : World} (calm : Calm addr held w)
    (r : Range) : Calm addr held (w.release r) :=
  ⟨calm.1, calm.2.1, calm.2.2.pte, calm.2.2.tlb⟩

theorem unmap_iova_fine {addr : Page → Nat} {held : Page → Bool} {dmaAddr size iovaSize : Nat}
    {freeIova : Bool} {w : World} (now : Calm addr held w) :
    Safe (protecting rq kinds) L () job mem
      (fun _ w => Calm addr held w ∧ ∀ x, (unmapRange dmaAddr size).Has x → Gone x w)
      (__iommuDmaUnmapIova dmaAddr size iovaSize freeIova) w := by
  simp only [__iommuDmaUnmapIova, iommuCall, Tree.bind_eq, Tree.ask_bind]
  refine fine_call (steady_calm addr held) now (by simp [leaving, givenUp]) ?_
  intro a queued b calm strict _ run
  obtain ⟨rfl, rfl⟩ := exec_fq_domain.mp run
  refine fine_call (steady_calm addr held) calm (by simp [leaving, givenUp]) ?_
  intro a out b calm _ _ run
  obtain ⟨rfl, rfl⟩ := exec_unmap_fast.mp run
  simp only [strict, IotlbGather.init, Bool.not_false, ↓reduceIte]
  -- between the unmap and the sync the device can only use what the IOTLB kept
  have opened : Steady fun w => w.dmaAddr = addr ∧ w.held = held ∧
      Tracked addr held (unmapRange dmaAddr size).Has w ∧
      ∀ x, (unmapRange dmaAddr size).Has x → w.pt x = none :=
    steady_and (steady_tables fun _ _ same => same) (steady_and (steady_tables fun _ _ same => same)
      (steady_and (steady_tracked _ _ _) (steady_tables fun _ _ same => same)))
  refine fine_call opened ⟨calm.1, calm.2.1, tracked_clear calm.2.2 _, ?_⟩ (by simp [leaving, givenUp]) ?_
  · intro x inside
    simp only [World.clear, fill]
    exact if_pos inside
  intro a _ b kept _ _ run
  obtain ⟨sameAddr, sameHeld, tracked, absent⟩ := kept
  have synced : b = a.invalidate (unmapRange dmaAddr size) := exec_sync.mp run
  subst synced
  have calm : Calm addr held (a.invalidate (unmapRange dmaAddr size)) :=
    ⟨sameAddr, sameHeld, tracked_invalidate tracked⟩
  have gone : ∀ x, (unmapRange dmaAddr size).Has x →
      Gone x (a.invalidate (unmapRange dmaAddr size)) :=
    fun x inside => invalidate_gone inside (absent x inside)
  have steady := steady_and (steady_calm addr held) (steady_all_gone (unmapRange dmaAddr size).Has)
  split
  · refine fine_call steady ⟨calm, gone⟩ (by simp [leaving, givenUp]) ?_
    intro a _ b kept _ _ run
    obtain ⟨calm, gone⟩ := kept
    have freed : b = a.release ⟨dmaAddr - iovaOffset dmaAddr, iovaSize⟩ := by
      simpa [strict] using exec_free_iova.mp run
    subst freed
    exact fine_done steady ⟨calm_release calm _, gone⟩
  · exact fine_done steady ⟨calm, gone⟩

/- Frame 0 is never mapped, so a zero answer means that there is no PTE. -/
theorem iova_to_phys_zero {addr : Page → Nat} {held : Page → Bool} {w : World} {iova : Nat}
    (calm : Calm addr held w) : w.iovaToPhys iova = 0 ↔ w.pt (iova / PAGE_SIZE) = none := by
  simp only [World.iovaToPhys]
  cases entry : w.pt (iova / PAGE_SIZE) with
  | none => simp
  | some frame =>
    obtain ⟨page, rfl, _⟩ := calm.2.2.pte _ frame entry
    have := page.pos
    simp [PAGE_SIZE]
    omega

theorem unmapped_gone {addr : Page → Nat} {held : Page → Bool} {w : World} {x : Nat}
    (calm : Calm addr held w) (absent : w.pt x = none) : Gone x w :=
  ⟨absent, fun f member => (calm.2.2.tlb x f member).2.elim (· absent) id⟩

theorem range_has_address {dmaAddr size : Nat} (positive : 0 < size) :
    (unmapRange dmaAddr size).Has (dmaAddr / PAGE_SIZE) := by
  simp only [unmapRange, Range.Has, iovaOffset, iovaAlign, PAGE_SIZE]
  omega

/- Afterwards nothing translates the address, whether it was mapped before or not;
   the whole range is gone when the first page was still mapped. -/
theorem unmap_page_fine (full : Prop) {addr : Page → Nat} {held : Page → Bool}
    {dmaAddr size iovaSize : Nat} {freeIova : Bool} {w : World} (positive : 0 < size) (now : Calm addr held w)
    (first : full → w.pt (dmaAddr / PAGE_SIZE) ≠ none) :
    Safe (protecting rq kinds) L () job mem
      (fun _ w => Calm addr held w ∧ Gone (dmaAddr / PAGE_SIZE) w ∧
        (full → ∀ x, (unmapRange dmaAddr size).Has x → Gone x w))
      (iommuDmaUnmapPageIova dmaAddr size iovaSize freeIova) w := by
  simp only [iommuDmaUnmapPageIova, iommuCall, Tree.bind_eq, Tree.ask_bind]
  have steady := steady_and (steady_calm addr held)
    (steady_tables (A := fun w => full → w.pt (dmaAddr / PAGE_SIZE) ≠ none) fun _ _ same => same)
  refine fine_call steady ⟨now, first⟩ (by simp [leaving, givenUp]) ?_
  intro a phys b kept _ _ run
  obtain ⟨calm, first⟩ := kept
  obtain ⟨rfl, rfl⟩ := exec_iova_to_phys.mp run
  have after : Steady fun w => Calm addr held w ∧ Gone (dmaAddr / PAGE_SIZE) w ∧
      (full → ∀ x, (unmapRange dmaAddr size).Has x → Gone x w) :=
    steady_and (steady_calm addr held) (steady_and (steady_gone _)
      fun a b gone access isFull => steady_all_gone _ a b (gone isFull) access)
  split
  · rename_i zero
    have absent := (iova_to_phys_zero calm).mp zero
    exact fine_done after ⟨calm, unmapped_gone calm absent, fun isFull => absurd absent (first isFull)⟩
  · refine Safe.bind (by assumption) (unmap_iova_fine calm) ?_
    rintro - w strict ⟨calm, gone⟩
    refine fine_call after ⟨calm, gone _ (range_has_address positive), fun _ => gone⟩
      (by simp [leaving, givenUp]) ?_
    intro a bounced b still _ _ run
    rw [exec_swiotlb_buffer.mp run]
    split
    · refine fine_call after still (by simp [leaving, givenUp]) ?_
      intro a _ b still _ _ run
      rw [exec_swiotlb_unmap.mp run]
      exact fine_done after still
    · exact fine_done after still

/- The page is at that address now, although the address is not yet stored in it. -/
def Placed (page : Page) (iova : Nat) (addr : Page → Nat) (held : Page → Bool) (w : World) :
    Prop :=
  w.dmaAddr = addr ∧ w.held = held ∧
    Tracked (Function.update addr page iova) held (fun _ => False) w

def Unplaced (page : Page) (addr : Page → Nat) (held : Page → Bool) (w : World) : Prop :=
  Calm addr held w ∧ Protected page w

def MapResult (page : Page) (failed : Prop) (iova : Nat) (addr : Page → Nat) (held : Page → Bool)
    (w : World) : Prop :=
  (failed → Unplaced page addr held w) ∧ (¬ failed → Placed page iova addr held w)

theorem steady_unplaced (page : Page) (addr : Page → Nat) (held : Page → Bool) :
    Steady (Unplaced page addr held) :=
  steady_and (steady_calm addr held) (steady_protected page)

theorem steady_map_result (page : Page) (failed : Prop) (iova : Nat) (addr : Page → Nat)
    (held : Page → Bool) : Steady (MapResult page failed iova addr held) := by
  intro a b result access
  have placed : Steady (Placed page iova addr held) :=
    steady_and (steady_tables fun _ _ same => same)
      (steady_and (steady_tables fun _ _ same => same) (steady_tracked _ _ _))
  exact ⟨fun bad => steady_unplaced page addr held a b (result.1 bad) access,
    fun good => placed a b (result.2 good) access⟩

theorem aligned_not_error {iova : Nat} (aligned : iova % PAGE_SIZE = 0) :
    iova ≠ DMA_MAPPING_ERROR := by
  rintro rfl
  simp [DMA_MAPPING_ERROR, PAGE_SIZE] at aligned

theorem map_atomic_fine {dev : Device} {page : Page} {addr : Page → Nat} {held : Page → Bool}
    {iova : Nat} {firstIova : Bool} {w : World} (aligned : iova % PAGE_SIZE = 0)
    (out : held page = true) (now : Unplaced page addr held w) :
    Safe (protecting rq kinds) L () job mem
      (fun ret => MapResult page (ret ≠ 0) iova addr held)
      (iommuMapAtomic dev iova firstIova (pageToPhys page) PAGE_SIZE) w := by
  simp only [iommuMapAtomic, _iommuMap, iommuCall, Tree.bind_eq, Tree.ask_bind]
  refine fine_call (steady_unplaced page addr held) now (by simp [leaving, givenUp]) ?_
  intro a ret b kept _ _ run
  obtain ⟨⟨sameAddr, sameHeld, tracked⟩, safe⟩ := kept
  have result : MapResult page (ret ≠ 0) iova addr held b := by
    have written := exec_map.mp run
    constructor
    · intro bad
      rw [if_neg bad] at written
      exact written ▸ ⟨⟨sameAddr, sameHeld, tracked⟩, safe⟩
    · intro good
      rw [if_pos (not_not.mp good)] at written
      exact written ▸ ⟨sameAddr, sameHeld, tracked_map tracked safe out aligned⟩
  split
  · refine fine_call (steady_map_result _ _ _ _ _) result (by simp [leaving, givenUp]) ?_
    intro a _ b still _ _ run
    rw [exec_sync_map.mp run]
    exact fine_done (steady_map_result _ _ _ _ _) still
  · exact fine_done (steady_map_result _ _ _ _ _) result

theorem place_fine {dev : Device} {page : Page} {addr : Page → Nat} {held : Page → Bool}
    {iova : Nat} {firstIova : Bool} {w : World} (aligned : iova % PAGE_SIZE = 0)
    (out : held page = true) (strict : w.fq = false) (now : Unplaced page addr held w) :
    Safe (protecting rq kinds) L () job mem
      (fun ret => MapResult page (ret = DMA_MAPPING_ERROR) ret addr held)
      (placePage dev page iova firstIova) w := by
  unfold placePage placeAt
  split
  · exact fine_done (steady_map_result _ _ _ _ _) ⟨fun _ => now, fun other => absurd rfl other⟩
  · refine Safe.bind strict (map_atomic_fine aligned out now) ?_
    intro ret w _ result
    split
    · rename_i bad
      refine fine_call (steady_unplaced page addr held) (result.1 bad) (by simp [leaving, givenUp]) ?_
      intro a _ b kept _ _ run
      obtain ⟨calm, safe⟩ := kept
      have freed : b = a.release ⟨iova, PAGE_SIZE⟩ := by simpa using exec_free_iova.mp run
      subst freed
      exact fine_done (steady_map_result _ _ _ _ _)
        ⟨fun _ => ⟨calm_release calm _, safe⟩, fun other => absurd rfl other⟩
    · rename_i good
      exact fine_done (steady_map_result _ _ _ _ _)
        ⟨fun error => absurd error (aligned_not_error aligned), fun _ => result.2 good⟩

theorem dma_map_fine {dev : Device} {page : Page} {addr : Page → Nat} {held : Page → Bool}
    {iova : Nat} {firstIova : Bool} {w : World} (aligned : iova % PAGE_SIZE = 0)
    (out : held page = true) (now : Unplaced page addr held w) :
    Safe (protecting rq kinds) L () job mem
      (fun ret => MapResult page (ret = DMA_MAPPING_ERROR) ret addr held)
      (__iommuDmaMap dev (pageToPhys page) iova firstIova PAGE_SIZE) w := by
  rw [dma_map_page_eq]
  refine fine_call (steady_unplaced page addr held) now (by simp [leaving, givenUp]) ?_
  intro a attach b now strict _ run
  rw [exec_deferred_attach.mp run]
  split
  · exact fine_done (steady_map_result _ _ _ _ _) ⟨fun _ => now, fun other => absurd rfl other⟩
  · split
    · exact place_fine aligned out strict now
    · refine fine_call (steady_unplaced page addr held) now (by simp [leaving, givenUp]) ?_
      intro a iova b kept strict _ run
      obtain ⟨calm, safe⟩ := kept
      rcases exec_alloc_iova.mp run with ⟨rfl, rfl⟩ | ⟨_, aligned, _, _, _, rfl⟩
      · exact place_fine (Nat.zero_mod _) out strict ⟨calm, safe⟩
      · exact place_fine aligned out strict
          ⟨⟨calm.1, calm.2.1, calm.2.2.pte, calm.2.2.tlb⟩, safe⟩

theorem map_page_fine {dev : Device} {page : Page} {addr : Page → Nat} {held : Page → Bool}
    {iova : Nat} {firstIova : Bool} {w : World} (aligned : iova % PAGE_SIZE = 0)
    (out : held page = true) (strict : w.fq = false) (now : Unplaced page addr held w) :
    Safe (protecting rq kinds) L () job mem
      (fun ret => MapResult page (ret = DMA_MAPPING_ERROR) ret addr held)
      (iommuDmaMapPageIova dev page iova firstIova 0 PAGE_SIZE) w := by
  rw [map_page_iova_eq]
  simp only [mapPageTail, iommuCall, Tree.bind_eq, Tree.ask_bind, Tree.pure_eq]
  refine Safe.bind strict (dma_map_fine aligned out now) ?_
  intro ret w _ result
  have steady := steady_map_result page (ret = DMA_MAPPING_ERROR) ret addr held
  split
  · refine fine_call steady result (by simp [leaving, givenUp]) ?_
    intro a bounced b still _ _ run
    rw [exec_swiotlb_buffer.mp run]
    split
    · refine fine_call steady still (by simp [leaving, givenUp]) ?_
      intro a _ b still _ _ run
      rw [exec_swiotlb_unmap.mp run]
      exact fine_done steady still
    · exact fine_done steady still
  · exact fine_done steady result

end

end ReleaseProtection
