import FastSafeIO.Tiling
import FastSafeIO.UnmapTrace

/- A WQE from its allocation to mlx5e_free_rx_mpwqe, on every kind of device: by which
   route its pages are mapped, by which they are unmapped, and for which addresses. -/
namespace RouteAgreement
open CallTree KernelCalls DmaLayer DmaCalls RxDriver IommuWorld SlotFields BatchMapping BatchRelease
  HeldPages Tiling UnmapTrace

/-- The range holds the byte at x. -/
def Spans (r : Range) (x : Nat) : Prop := r.base ≤ x ∧ x < r.base + r.size

instance (r : Range) (x : Nat) : Decidable (Spans r x) := inferInstanceAs (Decidable (_ ∧ _))

/-- How many unmap calls are for the address. -/
def undoings (addr : Nat) (trace : List KernelEvent) : Nat :=
  (unmaps trace).countP fun r => decide (Spans r addr)

/-- One WQE: allocated, and freed later with nothing in its bitmap. In between anything may
    happen as long as its pages keep their stored addresses. Pages that are mapped at the
    same time do not overlap. -/
structure Lifetime (rq : Rq) where
  old : MpwInfo
  wi : MpwInfo
  after : MpwInfo
  mtts : Nat → Nat
  recycle : Bool
  start : World
  mid : World
  later : World
  last : World
  mapped : List KernelEvent
  released : List KernelEvent
  sound : CacheSound start
  allocated : Exec (exec 0) (onDevice rq.dev (mlx5eAllocRxMpwqe rq old)) start mapped (0, wi, mtts) mid
  stored : ∀ i < 64, ∀ page, (wi.dmaInfo i).buffer = .page page → later.dmaAddr page = mid.dmaAddr page
  apart : ∀ i < 64, ∀ j < 64, i ≠ j →
    (wi.dmaInfo i).addr + PAGE_SIZE ≤ (wi.dmaInfo j).addr ∨
      (wi.dmaInfo j).addr + PAGE_SIZE ≤ (wi.dmaInfo i).addr
  freed : Exec (exec 0) (onDevice rq.dev (mlx5eFreeRxMpwqe rq wi recycle)) later released after last

variable {rq : Rq}

def Lifetime.addr (life : Lifetime rq) (i : Nat) : Nat := (life.wi.dmaInfo i).addr

/-- Where the batch must begin for the address of slot 63 to be its end. -/
def Lifetime.begin (life : Lifetime rq) : Nat := sub64 (life.addr 63) (63 * 4096)

/-- Mapping and unmapping agree with each other and with the domain. A page that the rx
    page cache takes back stays mapped, and a table without unmap_page undoes nothing. -/
structure RoutesAgree (life : Lifetime rq) : Prop where
  cookie : ∀ size base, ⟨.iommu (.iommuDmaAllocIova size), base⟩ ∈ life.mapped →
    rq.dev.iovaCookie = true
  matching : ∀ e ∈ life.mapped, ∀ f ∈ life.released, ∀ r ∈ opRoute e.1, ∀ s ∈ opRoute f.1, r = s
  once : ∀ i < 64, ∀ page, (life.wi.dmaInfo i).buffer = .page page →
    undoings (life.addr i) life.released =
      if page ∈ taken life.released ∨ canUnmap rq.dev = false then 0 else 1
  inside : ∀ r ∈ unmaps life.released, ∀ x, Spans r x → Covered 64 PAGE_SIZE life.addr x

/-- When they do: a batch needs a cookie, and 64 addresses in a row that end at slot 63. -/
structure AgreeWhen (life : Lifetime rq) : Prop where
  cookie : rq.dev.iommuMapped = true → rq.dev.iovaCookie = true
  batch : rq.xskPool = false → rq.dev.iommuMapped = true → canUnmap rq.dev = true →
    OnPlaces 64 PAGE_SIZE life.begin life.addr
  found : rq.xskPool = false → rq.dev.iommuMapped = true → deviceRoute rq.dev = .dmaIommu →
    iovaOffset life.begin = 0 ∧ life.later.iovaToPhys life.begin ≠ 0

theorem undoings_append (addr : Nat) (a b : List KernelEvent) :
    undoings addr (a ++ b) = undoings addr a + undoings addr b := by
  unfold undoings
  rw [unmaps_append, List.countP_append]

theorem undoings_of {addr : Nat} {trace : List KernelEvent} {ranges : List Range}
    (made : unmaps trace = ranges) : undoings addr trace = ranges.countP fun r => decide (Spans r addr) := by
  rw [undoings, made]

theorem none_spans {addr : Nat} {trace : List KernelEvent} (none : ∀ r ∈ unmaps trace, ¬ Spans r addr) :
    undoings addr trace = 0 := by
  apply List.countP_eq_zero.mpr
  intro r member spans
  exact none r member (of_decide_eq_true spans)

/- Without an IOMMU every page is released alone. -/

/-- What the releases of slots i to i + left - 1 come to, one by one. -/
structure ReleasedAlone (a : Nat → Nat) (info : Nat → DmaInfo) (can : Bool) (i left : Nat)
    (trace : List KernelEvent) : Prop where
  ranges : ∀ r ∈ unmaps trace, ∃ j, i ≤ j ∧ j < i + left ∧ r = ⟨a j, PAGE_SIZE⟩
  pages : ∀ p ∈ taken trace, ∃ j, i ≤ j ∧ j < i + left ∧ (info j).buffer = .page p
  once : ∀ j, i ≤ j → j < i + left → ∀ page, (info j).buffer = .page page →
    undoings (a j) trace = if page ∈ taken trace ∨ can = false then 0 else 1

def AddrsApart (a : Nat → Nat) : Prop :=
  ∀ i < 64, ∀ j < 64, i ≠ j → a i + PAGE_SIZE ≤ a j ∨ a j + PAGE_SIZE ≤ a i

def PagesDistinct (info : Nat → DmaInfo) : Prop :=
  ∀ i < 64, ∀ j < 64, (info i).buffer = (info j).buffer → i = j

theorem other_span {a : Nat → Nat} (apart : AddrsApart a) {i j : Nat} (first : i < 64) (second : j < 64)
    (other : i ≠ j) : ¬ Spans ⟨a i, PAGE_SIZE⟩ (a j) := by
  rintro ⟨low, high⟩
  have room := apart i first j second other
  dsimp only at low high
  unfold PAGE_SIZE at *
  omega

theorem own_span (x : Nat) : Spans ⟨x, PAGE_SIZE⟩ x :=
  ⟨Nat.le_refl x, Nat.lt_add_of_pos_right (show 0 < PAGE_SIZE by decide)⟩

theorem released_alone_cons {a : Nat → Nat} {info : Nat → DmaInfo} {can : Bool} {i left : Nat}
    {head rest : List KernelEvent} {page : Page} (apart : AddrsApart a) (distinct : PagesDistinct info)
    (bound : i + (left + 1) ≤ 64) (here : (info i).buffer = .page page)
    (first : (unmaps head = [] ∧ taken head = [page]) ∨
      (unmaps head = (if can then [⟨a i, PAGE_SIZE⟩] else []) ∧ taken head = []))
    (later : ReleasedAlone a info can (i + 1) left rest) :
    ReleasedAlone a info can i (left + 1) (head ++ rest) := by
  have rest_away : undoings (a i) rest = 0 := by
    apply none_spans
    intro r member
    obtain ⟨j, low, high, rfl⟩ := later.ranges r member
    exact other_span apart (by omega) (by omega) (by omega)
  have not_later : page ∉ taken rest := by
    intro member
    obtain ⟨j, low, high, there⟩ := later.pages page member
    have same := distinct i (by omega) j (by omega) (here.trans there.symm)
    omega
  have head_ranges : ∀ r ∈ unmaps head, r = ⟨a i, PAGE_SIZE⟩ := by
    intro r member
    rcases first with ⟨none, _⟩ | ⟨one, _⟩
    · rw [none] at member
      cases member
    · rw [one] at member
      split at member
      · exact List.mem_singleton.mp member
      · cases member
  have head_pages : ∀ p ∈ taken head, p = page := by
    intro p member
    rcases first with ⟨_, one⟩ | ⟨_, none⟩
    · rw [one] at member
      exact List.mem_singleton.mp member
    · rw [none] at member
      cases member
  constructor
  · intro r member
    rw [unmaps_append] at member
    rcases List.mem_append.mp member with member | member
    · exact ⟨i, Nat.le_refl i, by omega, head_ranges r member⟩
    · obtain ⟨j, low, high, same⟩ := later.ranges r member
      exact ⟨j, by omega, by omega, same⟩
  · intro p member
    rw [taken_append] at member
    rcases List.mem_append.mp member with member | member
    · rw [head_pages p member]
      exact ⟨i, Nat.le_refl i, by omega, here⟩
    · obtain ⟨j, low, high, there⟩ := later.pages p member
      exact ⟨j, by omega, by omega, there⟩
  · intro j low high p there
    rw [undoings_append, taken_append]
    by_cases same : j = i
    · subst same
      obtain rfl : page = p := by
        rw [here] at there
        cases there
        rfl
      rw [rest_away]
      rcases first with ⟨none, one⟩ | ⟨one, none⟩
      · simp [undoings_of none, one]
      · cases can
        · simp [undoings_of one]
        · simp [undoings_of one, none, not_later, own_span]
    · have after := later.once j (by omega) (by omega) p there
      have other : p ≠ page := by
        rintro rfl
        exact same (distinct j (by omega) i (by omega) (there.trans here.symm))
      have head_away : undoings (a j) head = 0 := by
        apply none_spans
        intro r member
        rw [head_ranges r member]
        exact other_span apart (by omega) (by omega) (by omega)
      have not_head : p ∉ taken head := fun member => other (head_pages p member)
      simp only [head_away, Nat.zero_add, after, List.mem_append, not_head, false_or]

section
variable (regular : rq.xskPool = false)
include regular

theorem alone_free_loop (unmapped : rq.dev.iommuMapped = false)
    (bypass : deviceRoute rq.dev ≠ .dmaIommu) {a : Nat → Nat} (apart : AddrsApart a)
    {bitmap : Nat → Bool} (recycle : Bool) {left i : Nat} (bound : i + left ≤ 64)
    {info : Nat → DmaInfo} (distinct : PagesDistinct info) {w : World}
    (stored : ∀ j, i ≤ j → j < i + left → ∃ page, (info j).buffer = .page page ∧ w.dmaAddr page = a j) :
    Ensures (exec 0) (onDevice rq.dev (freeLoop rq true bitmap recycle left i info)) w
      fun trace _ _ => ReleasedAlone a info (canUnmap rq.dev) i left trace := by
  induction left generalizing i info w with
  | zero =>
    apply device_done
    refine ⟨fun r member => ?_, fun p member => ?_, fun j low high => ?_⟩
    · exact absurd member List.not_mem_nil
    · exact absurd member List.not_mem_nil
    · omega
  | succ left ih =>
    obtain ⟨page, here, addr⟩ := stored i (Nat.le_refl i) (by omega)
    simp only [freeLoop, Bool.true_or, ↓reduceIte, unmapped, Bool.false_eq_true, Tree.bind_eq]
    rw [page_release_eq regular (D := { info i with iovaSize := 0 }) here]
    apply device_bind (release_undoes (lone_release_undoes bypass _))
    intro head _ mid first
    rw [addr] at first
    have same := buffer_update info i { info i with iovaSize := 0 } rfl
    have known : ∀ p ≠ page, mid.dmaAddr p = w.dmaAddr p := by
      intro p other
      rcases first with ⟨_, _, _, kept⟩ | ⟨_, _, kept⟩
      · rw [kept]
      · rw [kept, Function.update_of_ne other]
    apply (ih (by omega) (fun j low k high equal => distinct j low k high (by rwa [same, same] at equal))
      ?_).mono
    · intro rest _ _ later
      apply released_alone_cons apart distinct bound here
      · rcases first with ⟨_, none, one, _⟩ | ⟨one, none, _⟩
        · exact Or.inl ⟨none, one⟩
        · exact Or.inr ⟨one, none⟩
      · exact ⟨later.ranges, fun p member => by simpa only [same] using later.pages p member,
          fun j low high p there => later.once j low high p (by rwa [same])⟩
    · intro j low high
      obtain ⟨p, there, place⟩ := stored j (by omega) (by omega)
      have other : p ≠ page := by
        rintro rfl
        have equal := distinct j (by omega) i (by omega) (there.trans here.symm)
        omega
      exact ⟨p, by rw [same, there], (known p other).trans place⟩

/- Behind an IOMMU only slot 63 unmaps anything. -/

omit regular in
theorem batch_unmaps_same {dev : Device} {addr : Nat} {a b : World} (tables : b.pt = a.pt) :
    batchUnmaps dev addr b = batchUnmaps dev addr a := by
  unfold batchUnmaps World.iovaToPhys
  rw [tables]

theorem batch_free_loop (mapped : rq.dev.iommuMapped = true) {bitmap : Nat → Bool} (recycle : Bool)
    {m i : Nat} (all : i + m = 63) {addr : Nat} {info : Nat → DmaInfo} (distinct : PagesDistinct info)
    {w : World} (pages : ∀ j, i ≤ j → j < 64 → ∃ page, (info j).buffer = .page page)
    (last : ∀ page, (info 63).buffer = .page page → w.dmaAddr page = addr) :
    Ensures (exec 0) (onDevice rq.dev (freeLoop rq true bitmap recycle (m + 1) i info)) w
      fun trace _ _ => unmaps trace = batchUnmaps rq.dev (sub64 addr (63 * 4096)) w ∧
        taken trace = [] := by
  induction m generalizing i info w with
  | zero =>
    obtain rfl : i = 63 := by omega
    obtain ⟨page, here⟩ := pages 63 (by omega) (by omega)
    simp only [freeLoop, Bool.true_or, ↓reduceIte, mapped, Tree.bind_eq]
    rw [page_release_eq regular (D := { info 63 with
      iovaSize := 4096 * 64, batchIova := true, freeIova := 63 == MLX5_MPWRQ_PAGES_PER_WQE - 1 }) here]
    have size : 4096 * 64 ≠ 0 := by decide
    apply device_bind (release_undoes (last_release_undoes size))
    intro trace _ mid after
    rw [last page here] at after
    apply device_done
    rw [List.append_nil]
    rcases after with ⟨impossible, _⟩ | ⟨made, none, _⟩
    · cases impossible
    · exact ⟨made, none⟩
  | succ m ih =>
    obtain ⟨page, here⟩ := pages i (by omega) (by omega)
    have inner := inner_slot (i := i) (by omega)
    unfold freeLoop
    simp only [Bool.true_or, ↓reduceIte, mapped, Tree.bind_eq, inner]
    rw [page_release_eq regular (D := { info i with
      iovaSize := 4096 * 64, batchIova := true, freeIova := false }) here]
    have size : 4096 * 64 ≠ 0 := by decide
    have calls : (mlx5ePageReleaseDynamic page false (4096 * 64) false).Calls
        fun op => ∃ low, op = RxOp.page low :=
      ⟨⟨_, rfl⟩, fun _ => ⟨⟨_, rfl⟩, fun _ => ⟨⟨_, rfl⟩, fun _ => ⟨⟨_, rfl⟩, fun _ => trivial⟩⟩⟩⟩
    have table : Ensures (exec 0)
        (onDevice rq.dev (mlx5ePageReleaseDynamic page false (4096 * 64) false)) w
        fun _ _ last => last.pt = w.pt := by
      exact ⟨page_run_keeps_table calls⟩
    apply device_bind ((release_undoes (inner_release_undoes size)).and table)
    rintro head _ mid ⟨first, tables⟩
    obtain ⟨made, none, known⟩ : Undoes [] [] (Function.update w.dmaAddr page 0) head () mid := by
      rcases first with ⟨impossible, _⟩ | first
      · cases impossible
      · exact first
    have same := buffer_update info i
      { info i with iovaSize := 4096 * 64, batchIova := true, freeIova := false } rfl
    apply (ih (by omega) (fun j low k high equal => distinct j low k high (by rwa [same, same] at equal))
      (fun j low high => by rw [same]; exact pages j (by omega) high) ?_).mono
    · intro rest _ _ later
      rw [unmaps_append, taken_append, made, none, later.1, later.2, batch_unmaps_same tables]
      exact ⟨rfl, rfl⟩
    · intro p there
      rw [same] at there
      have other : p ≠ page := by
        rintro rfl
        have equal := distinct 63 (by omega) i (by omega) (there.trans here.symm)
        omega
      rw [known, Function.update_of_ne other]
      exact last p there

end

/- The facts about one WQE's life that both directions use. -/

theorem alloc_clears_bitmap (rq : Rq) (wi : MpwInfo) : (mlx5eAllocRxMpwqe rq wi).Returns fun out =>
    out.1 = 0 → out.2.1.xdpXmitBitmap = fun _ => false := by
  apply alloc_wqe_returns rq fun good => absurd good (by simp [ENOMEM])
  intro base
  apply alloc_batch_returns
  exact (Tree.returns_anything _).mono fun _ _ _ => rfl

/-- An XSK queue has no page of the pool in a slot it filled. -/
theorem xsk_loop_slots (xsk : rq.xskPool = true) (base left i : Nat) {dmaInfo : Nat → DmaInfo}
    {mtts : Nat → Nat} (before : ∀ j < i, ∀ page, (dmaInfo j).buffer ≠ .page page) :
    (allocLoop rq base left i dmaInfo mtts).Returns fun run =>
      run.err = 0 → ∀ j < i + left, ∀ page, (run.dmaInfo j).buffer ≠ .page page := by
  induction left generalizing i dmaInfo mtts with
  | zero => exact fun _ => before
  | succ left ih =>
    have slot : ∀ di, (mlx5ePageAlloc rq di).Returns fun out =>
        out.1 = 0 → ∀ page, out.2.buffer ≠ .page page := by
      intro di
      unfold mlx5ePageAlloc
      rw [if_pos xsk]
      intro got
      cases got with
      | none => exact fun good => absurd good (by simp [ENOMEM])
      | some got => exact fun _ page => by simp
    unfold allocLoop
    apply (slot _).bind
    rintro ⟨err, di⟩ filled
    dsimp only at filled ⊢
    split
    · rename_i failed
      exact fun good => absurd good failed
    · rename_i fine
      apply (ih (i + 1) ?_).mono
      · intro run slots good j below
        exact slots good j (by omega)
      · intro j below page
        by_cases same : j = i
        · subst same
          rw [Function.update_self]
          exact filled (not_not.mp fine) page
        · rw [Function.update_of_ne same]
          exact before j (by omega) page

theorem xsk_alloc_slots (xsk : rq.xskPool = true) (wi : MpwInfo) : (mlx5eAllocRxMpwqe rq wi).Returns
    fun out => out.1 = 0 → ∀ i < 64, ∀ page, (out.2.1.dmaInfo i).buffer ≠ .page page := by
  apply alloc_wqe_returns rq fun good => absurd good (by simp [ENOMEM])
  intro base
  apply alloc_batch_returns
  apply (xsk_loop_slots xsk base 64 0 fun j below => absurd below j.not_lt_zero).mono
  intro run slots good i below
  exact slots good i (by omega)

theorem xsk_free_pages (xsk : rq.xskPool = true) (noXdpXmit : Bool) (bitmap : Nat → Bool)
    (recycle : Bool) (left i : Nat) (dmaInfo : Nat → DmaInfo) :
    (freeLoop rq noXdpXmit bitmap recycle left i dmaInfo).Calls fun op => ∃ low, op = .page low := by
  have slot : ∀ di recycle, (mlx5ePageRelease rq di recycle).Calls fun op => ∃ low, op = .page low := by
    intro di recycle
    unfold mlx5ePageRelease
    rw [if_pos xsk]
    split
    · exact ⟨⟨_, rfl⟩, fun _ => trivial⟩
    · trivial
  induction left generalizing i dmaInfo with
  | zero => trivial
  | succ left ih =>
    unfold freeLoop
    split
    · split
      · exact (slot _ _).bind fun _ => ih _ _
      · exact (slot _ _).bind fun _ => ih _ _
    · exact ih _ _

section
variable (life : Lifetime rq)

theorem lifetime_free_loop : ∃ info, Exec (exec 0)
    (onDevice rq.dev (freeLoop rq true life.wi.xdpXmitBitmap life.recycle 64 0 life.wi.dmaInfo))
    life.later life.released info life.last := by
  have clear := exec_returns life.allocated (alloc_clears_bitmap rq life.old).interp rfl
  have empty : bitmapEmpty life.wi.xdpXmitBitmap = true := by
    rw [clear]
    decide
  have freed := life.freed
  unfold mlx5eFreeRxMpwqe at freed
  rw [empty] at freed
  unfold onDevice at freed
  rw [Tree.bind_eq, Tree.interp_bind] at freed
  obtain ⟨trace, info, mid, none, ran, ended, same⟩ := exec_bind_iff.mp freed
  obtain ⟨rfl, _, rfl⟩ := exec_done_iff.mp ended
  rw [same, List.append_nil]
  exact ⟨info, ran⟩

theorem lifetime_slots (regular : rq.xskPool = false) : ∀ i < 64, ∃ page,
    (life.wi.dmaInfo i).buffer = .page page ∧ life.later.dmaAddr page = life.addr i := by
  have slots := (alloc_wqe_holds regular life.old life.sound).holds life.allocated rfl
  intro i below
  obtain ⟨page, here, addr, _⟩ := slots.slot i below
  exact ⟨page, here, (life.stored i below page here).trans addr⟩

theorem lifetime_distinct (regular : rq.xskPool = false) : PagesDistinct life.wi.dmaInfo :=
  ((alloc_wqe_holds regular life.old life.sound).holds life.allocated rfl).distinct

theorem lifetime_matching : ∀ e ∈ life.mapped, ∀ f ∈ life.released, ∀ r ∈ opRoute e.1,
    ∀ s ∈ opRoute f.1, r = s := by
  intro e first f second r here s there
  have mapped := exec_calls life.allocated (device_calls_route rq.dev _) e first r here
  have freed := exec_calls life.freed (device_calls_route rq.dev _) f second s there
  exact mapped.trans freed.symm

/-- The allocator is asked for a batch whenever the device is behind an IOMMU. -/
theorem lifetime_asks (mapped : rq.dev.iommuMapped = true) :
    ∃ size base, ⟨.iommu (.iommuDmaAllocIova size), base⟩ ∈ life.mapped := by
  have batch : ∀ (w : World) trace out last, Exec (exec 0)
      (onDevice rq.dev ((batchBase rq).bind (allocBatch rq life.old))) w trace out last →
      ∃ size base, ⟨.iommu (.iommuDmaAllocIova size), base⟩ ∈ trace := by
    intro w trace out last ran
    simp only [batchBase, mapped, ↓reduceIte] at ran
    obtain ⟨base, mid, tail, _, _, rfl⟩ := exec_call_iff.mp ran
    exact ⟨_, base, List.mem_cons_self⟩
  have ran := life.allocated
  simp only [mlx5eAllocRxMpwqe, Tree.bind_eq] at ran
  split at ran
  · obtain ⟨enough, mid, tail, _, later, same⟩ := exec_call_iff.mp ran
    rw [same]
    cases enough
    · obtain ⟨_, impossible, _⟩ := exec_done_iff.mp later
      cases impossible
    · obtain ⟨size, base, member⟩ := batch _ _ _ _ later
      exact ⟨size, base, List.mem_cons_of_mem _ member⟩
  · exact batch _ _ _ _ ran

theorem lifetime_cookie (fine : rq.dev.Wf) :
    (∀ size base, ⟨.iommu (.iommuDmaAllocIova size), base⟩ ∈ life.mapped → rq.dev.iovaCookie = true) ↔
      (rq.dev.iommuMapped = true → rq.dev.iovaCookie = true) := by
  constructor
  · intro cookie mapped
    obtain ⟨size, base, member⟩ := lifetime_asks life mapped
    exact cookie size base member
  · intro cookie size base member
    have calls : (mlx5eAllocRxMpwqe rq life.old).Calls fun op =>
        ImplCall rq.dev op (.iommu (.iommuDmaAllocIova size)) → rq.dev.iovaCookie = true := by
      have viaMap : ∀ firstIova length, (deviceRoute rq.dev = .dmaIommu ∧
          MapCall firstIova length (.iommu (.iommuDmaAllocIova size))) ∨
          Bypass rq.dev (.iommu (.iommuDmaAllocIova size)) → rq.dev.iovaCookie = true := by
        rintro firstIova length (⟨route, _⟩ | bypass)
        · obtain ⟨direct, ops⟩ := of_iommu_route route
          exact (fine.cookie direct ops).2
        · cases bypass
      apply alloc_wqe_calls
      · intro op made
        cases made
      · exact batch_base_calls rq fun _ mapped _ => cookie mapped
      · intro dmaInfo page
        unfold mapSlotPage
        split
        · exact ⟨viaMap _ _, fun _ => trivial⟩
        · exact ⟨viaMap _ _, fun _ => trivial⟩
      · intro op release made
        unfold ReleaseCall at release
        split at release
        · cases made
        · rcases made with ⟨_, made⟩ | made <;> cases made
        · rcases made with ⟨_, made⟩ | made <;> cases made
        · exact absurd release id
    have lower : (onDevice rq.dev (mlx5eAllocRxMpwqe rq life.old)).Calls fun low =>
        low = .iommu (.iommuDmaAllocIova size) → rq.dev.iovaCookie = true := by
      apply calls.interp
      intro op here
      apply (dma_impl_calls rq.dev op).mono
      rintro low made rfl
      exact here made
    exact exec_calls life.allocated lower _ member rfl

theorem lifetime_apart : AddrsApart life.addr := life.apart

/-- Away from an IOMMU each page is undone by its own call. -/
theorem lifetime_alone (regular : rq.xskPool = false) (unmapped : rq.dev.iommuMapped = false)
    (bypass : deviceRoute rq.dev ≠ .dmaIommu) :
    ReleasedAlone life.addr life.wi.dmaInfo (canUnmap rq.dev) 0 64 life.released := by
  obtain ⟨info, ran⟩ := lifetime_free_loop life
  exact (alone_free_loop regular unmapped bypass (lifetime_apart life) life.recycle (by omega)
    (lifetime_distinct life regular)
    fun j _ below => lifetime_slots life regular j (by omega)).holds ran

theorem lifetime_batch (regular : rq.xskPool = false) (mapped : rq.dev.iommuMapped = true) :
    unmaps life.released = batchUnmaps rq.dev life.begin life.later ∧ taken life.released = [] := by
  obtain ⟨info, ran⟩ := lifetime_free_loop life
  have slots := lifetime_slots life regular
  refine (batch_free_loop (m := 63) regular mapped life.recycle rfl (lifetime_distinct life regular)
    (fun j _ below => ?_) fun page here => ?_).holds ran
  · obtain ⟨page, here, _⟩ := slots j below
    exact ⟨page, here⟩
  · obtain ⟨p, there, addr⟩ := slots 63 (by omega)
    rw [here] at there
    cases there
    exact addr

/-- One unmap of 64 pages is right exactly when the pages fill them. -/
theorem one_range_agrees {a : Nat → Nat} {start : Nat} {trace : List KernelEvent}
    (one : unmaps trace = [⟨start, PAGE_SIZE * 64⟩]) :
    ((∀ r ∈ unmaps trace, ∀ x, Spans r x → Covered 64 PAGE_SIZE a x) ↔ OnPlaces 64 PAGE_SIZE start a) ∧
      (OnPlaces 64 PAGE_SIZE start a → ∀ i < 64, undoings (a i) trace = 1) := by
  have length : PAGE_SIZE * 64 = 64 * PAGE_SIZE := Nat.mul_comm _ _
  refine ⟨⟨fun inside => ?_, fun places r member x spans => ?_⟩, fun places i below => ?_⟩
  · apply covering_on_places (by decide)
    intro x low high
    apply inside _ (one ▸ List.mem_cons_self) x
    exact ⟨low, by dsimp only; omega⟩
  · rw [one] at member
    cases List.mem_singleton.mp member
    apply on_places_covering places spans.1
    have high := spans.2
    dsimp only at high
    omega
  · obtain ⟨j, bound, place⟩ := tile_on_place (by decide) places i below
    have spans : Spans ⟨start, PAGE_SIZE * 64⟩ (a i) := by
      unfold Spans PAGE_SIZE at *
      dsimp only
      omega
    rw [undoings_of one, List.countP_cons_of_pos (by simpa using spans), List.countP_nil]

/-- An unmap that does not begin at a page boundary reaches over 65 pages. -/
theorem ragged_range_fails {a : Nat → Nat} {start : Nat} (ragged : iovaOffset start ≠ 0) :
    ¬ ∀ x, Spans (unmapRange start (PAGE_SIZE * 64)) x → Covered 64 PAGE_SIZE a x := by
  intro inside
  have covered : ∀ j < 65, Covered 64 PAGE_SIZE a (start - iovaOffset start + j * PAGE_SIZE) := by
    intro j below
    apply inside
    unfold Spans unmapRange iovaAlign iovaOffset PAGE_SIZE at *
    dsimp only
    omega
  exact absurd (no_more_places covered) (by omega)

theorem aligned_batch_range {start : Nat} (aligned : iovaOffset start = 0) :
    unmapRange start (PAGE_SIZE * 64) = ⟨start, PAGE_SIZE * 64⟩ := by
  unfold unmapRange
  rw [aligned]
  rfl

theorem iommu_can_unmap {dev : Device} (route : deviceRoute dev = .dmaIommu) : canUnmap dev = true := by
  simp [canUnmap, (of_iommu_route route).2]

/-- The batch part of the agreement, with what slot 63 unmaps given. -/
theorem batch_agrees_iff (regular : rq.xskPool = false) (mapped : rq.dev.iommuMapped = true) :
    ((∀ i < 64, ∀ page, (life.wi.dmaInfo i).buffer = .page page → undoings (life.addr i) life.released =
        if page ∈ taken life.released ∨ canUnmap rq.dev = false then 0 else 1) ∧
      ∀ r ∈ unmaps life.released, ∀ x, Spans r x → Covered 64 PAGE_SIZE life.addr x) ↔
    (canUnmap rq.dev = true → OnPlaces 64 PAGE_SIZE life.begin life.addr) ∧
      (deviceRoute rq.dev = .dmaIommu →
        iovaOffset life.begin = 0 ∧ life.later.iovaToPhys life.begin ≠ 0) := by
  obtain ⟨made, none⟩ := lifetime_batch life regular mapped
  have fits : unmaps life.released = [⟨life.begin, PAGE_SIZE * 64⟩] → canUnmap rq.dev = true →
      (((∀ i < 64, ∀ page, (life.wi.dmaInfo i).buffer = .page page →
        undoings (life.addr i) life.released =
          if page ∈ taken life.released ∨ canUnmap rq.dev = false then 0 else 1) ∧
        ∀ r ∈ unmaps life.released, ∀ x, Spans r x → Covered 64 PAGE_SIZE life.addr x) ↔
      OnPlaces 64 PAGE_SIZE life.begin life.addr) := by
    intro one can
    obtain ⟨filled, once⟩ := one_range_agrees (a := life.addr) one
    constructor
    · exact fun both => filled.mp both.2
    · intro places
      refine ⟨fun i below page _ => ?_, filled.mpr places⟩
      simp [once places i below, none, can]
  by_cases route : deviceRoute rq.dev = .dmaIommu
  · have can := iommu_can_unmap route
    simp only [batchUnmaps, route, ↓reduceIte] at made
    by_cases lost : life.later.iovaToPhys life.begin = 0
    · rw [if_pos lost] at made
      constructor
      · rintro ⟨once, _⟩
        obtain ⟨page, here, _⟩ := lifetime_slots life regular 0 (by omega)
        have zero := once 0 (by omega) page here
        simp [undoings_of made, none, can] at zero
      · exact fun both => absurd lost (both.2 route).2
    · rw [if_neg lost] at made
      by_cases aligned : iovaOffset life.begin = 0
      · rw [aligned_batch_range aligned] at made
        rw [fits made can]
        exact ⟨fun places => ⟨fun _ => places, fun _ => ⟨aligned, lost⟩⟩, fun both => both.1 can⟩
      · constructor
        · exact fun both => absurd (both.2 _ (made ▸ List.mem_cons_self)) (ragged_range_fails aligned)
        · exact fun both => absurd (both.2 route).1 aligned
  · simp only [batchUnmaps, route, ↓reduceIte] at made
    by_cases can : canUnmap rq.dev = true
    · simp only [can, ↓reduceIte] at made
      rw [fits made can]
      exact ⟨fun places => ⟨fun _ => places, fun there => absurd there route⟩, fun both => both.1 can⟩
    · simp only [can, Bool.false_eq_true, ↓reduceIte] at made
      constructor
      · exact fun _ => ⟨fun impossible => absurd impossible can, fun there => absurd there route⟩
      · intro _
        refine ⟨fun i below page _ => ?_, fun r member => ?_⟩
        · simp [undoings_of made, can]
        · rw [made] at member
          cases member

theorem xsk_agrees (xsk : rq.xskPool = true) :
    (∀ i < 64, ∀ page, (life.wi.dmaInfo i).buffer = .page page → undoings (life.addr i) life.released =
        if page ∈ taken life.released ∨ canUnmap rq.dev = false then 0 else 1) ∧
      ∀ r ∈ unmaps life.released, ∀ x, Spans r x → Covered 64 PAGE_SIZE life.addr x := by
  have slots := exec_returns life.allocated (xsk_alloc_slots xsk life.old).interp rfl
  obtain ⟨info, ran⟩ := lifetime_free_loop life
  have pages : (onDevice rq.dev (freeLoop rq true life.wi.xdpXmitBitmap life.recycle 64 0
      life.wi.dmaInfo)).Calls fun low => ∃ op, low = .page op := by
    apply (xsk_free_pages xsk _ _ _ _ _ _).interp
    rintro _ ⟨low, rfl⟩
    exact ⟨⟨low, rfl⟩, fun _ => trivial⟩
  refine ⟨fun i below page here => absurd here (slots i below page), fun r member => ?_⟩
  obtain ⟨⟨op, ans⟩, here, made⟩ := List.mem_filterMap.mp member
  obtain ⟨low, rfl⟩ := exec_calls ran pages _ here
  cases made

/-- Mapping and unmapping agree with the mode test of the driver exactly when a batch is
    made for a domain with a cookie and its pages lie in a row up to the last one. -/
theorem routes_agree_iff (fine : rq.dev.Wf) : RoutesAgree life ↔ AgreeWhen life := by
  have cookie := lifetime_cookie life fine
  have matching := lifetime_matching life
  by_cases xsk : rq.xskPool = true
  · obtain ⟨once, inside⟩ := xsk_agrees life xsk
    have not_regular : rq.xskPool = false → False := fun regular => by
      rw [xsk] at regular
      cases regular
    constructor
    · exact fun agree => ⟨cookie.mp agree.cookie, fun regular => (not_regular regular).elim,
        fun regular => (not_regular regular).elim⟩
    · exact fun good => ⟨cookie.mpr good.cookie, matching, once, inside⟩
  · have regular := eq_false_of_ne_true xsk
    by_cases mapped : rq.dev.iommuMapped = true
    · have batch := batch_agrees_iff life regular mapped
      constructor
      · intro agree
        obtain ⟨places, found⟩ := batch.mp ⟨agree.once, agree.inside⟩
        exact ⟨cookie.mp agree.cookie, fun _ _ => places, fun _ _ => found⟩
      · intro good
        obtain ⟨once, inside⟩ := batch.mpr ⟨good.batch regular mapped, good.found regular mapped⟩
        exact ⟨cookie.mpr good.cookie, matching, once, inside⟩
    · have bypass : deviceRoute rq.dev ≠ .dmaIommu := by
        intro route
        obtain ⟨direct, ops⟩ := of_iommu_route route
        exact mapped (fine.cookie direct ops).1
      have alone := lifetime_alone life regular (eq_false_of_ne_true mapped) bypass
      constructor
      · exact fun agree => ⟨cookie.mp agree.cookie, fun _ there => absurd there mapped,
          fun _ there => absurd there mapped⟩
      · intro good
        refine ⟨cookie.mpr good.cookie, matching, fun i below page here => ?_, fun r member x spans => ?_⟩
        · exact alone.once i (Nat.zero_le i) (by omega) page here
        · obtain ⟨j, _, bound, rfl⟩ := alone.ranges r member
          exact ⟨j, by omega, spans.1, spans.2⟩

end

/- Concrete lives: allocated and freed at once, from a start without cached pages. -/

def lifeFacts (rq : Rq) (answer : (op : KernelOp) → World → op.Ans) (base : Nat) :
    Option (Int × List Nat × Nat) :=
  (runBy (exec 0) answer (onDevice rq.dev (mlx5eAllocRxMpwqe rq ⟨fun _ => .zeroed, fun _ => false⟩))
    (startWorld false)).bind fun out =>
      (runBy (exec 0) answer (onDevice rq.dev (mlx5eFreeRxMpwqe rq out.2.1.2.1 false)) out.2.2).map
        fun _ => (out.2.1.1, (List.range 64).map fun i => (out.2.1.2.1.dmaInfo i).addr,
          out.2.2.iovaToPhys base)

theorem life_of_facts {answer : (op : KernelOp) → World → op.Ans} {base phys : Nat}
    (facts : lifeFacts rq answer base = some (0, (List.range 64).map fun i => base + i * 4096, phys)) :
    ∃ life : Lifetime rq, (∀ i < 64, life.addr i = base + i * 4096) ∧
      life.later.iovaToPhys base = phys := by
  obtain ⟨⟨mapped, ⟨err, wi, mtts⟩, mid⟩, first, rest⟩ := Option.bind_eq_some_iff.mp facts
  obtain ⟨⟨released, after, last⟩, second, same⟩ := Option.map_eq_some_iff.mp rest
  obtain ⟨rfl, addrs, found⟩ : err = 0 ∧ ((List.range 64).map fun i => (wi.dmaInfo i).addr) =
      ((List.range 64).map fun i => base + i * 4096) ∧ mid.iovaToPhys base = phys := by
    simpa only [Prod.mk.injEq] using same
  have addr : ∀ i < 64, (wi.dmaInfo i).addr = base + i * 4096 := fun i below =>
    List.map_inj_left.mp addrs i (List.mem_range.mpr below)
  have empty : CacheSound (startWorld false) :=
    ⟨List.nodup_nil, fun page member => absurd member List.not_mem_nil⟩
  refine ⟨⟨_, wi, after, mtts, false, _, mid, mid, last, mapped, released, empty, runBy_exec first,
    fun _ _ _ _ => rfl, fun i low j high other => ?_, runBy_exec second⟩, addr, found⟩
  rw [addr i low, addr j high]
  unfold PAGE_SIZE
  omega

/-- A batch of fresh pages behind a translating IOMMU. -/
theorem fresh_batch_agrees : ∃ life : Lifetime regularRq,
    (∀ i < 64, life.addr i = 0x100000 + i * 4096) ∧ RoutesAgree life := by
  have facts : lifeFacts regularRq plentiful.answer 0x100000 =
      some (0, (List.range 64).map fun i => 0x100000 + i * 4096, 4096) := by decide +kernel
  obtain ⟨life, addr, found⟩ := life_of_facts facts
  have start : life.begin = 0x100000 := by
    unfold Lifetime.begin
    rw [addr 63 (by omega)]
    decide
  refine ⟨life, addr, (routes_agree_iff life ⟨fun _ _ => ⟨rfl, rfl⟩, rfl⟩).mpr ⟨fun _ => rfl,
    fun _ _ _ j below => ⟨j, below, ?_⟩, fun _ _ _ => ?_⟩⟩
  · rw [start, addr j below]
    rfl
  · rw [start, found]
    decide

/- An IOMMU group with an identity domain, where a page's address is its own. -/
def identityRq : Rq := ⟨⟨true, false, true, .iommuDma, true, false, false⟩, false, true⟩

def identityAnswer : (op : KernelOp) → World → op.Ans
  | .iommu (.dmaDirectMapPage phys _), _ => phys
  | op, w => plentiful.answer op w

/-- There the batch is asked of a domain that has no cookie. -/
theorem identity_domain_asked : ¬ ∀ (rq : Rq) (life : Lifetime rq), rq.dev.Wf → RoutesAgree life := by
  intro always
  have facts : lifeFacts identityRq identityAnswer 4096 =
      some (0, (List.range 64).map fun i => 4096 + i * 4096, 0) := by decide +kernel
  obtain ⟨life, _⟩ := life_of_facts facts
  have agree := always identityRq life ⟨fun direct => (by cases direct), rfl⟩
  obtain ⟨size, base, asked⟩ := lifetime_asks life rfl
  have cookie := agree.cookie size base asked
  cases cookie

end RouteAgreement
