import FastSafeIO.BatchRelease

/- How the pages of a successfully allocated WQE come back, in any order of
   mlx5e_free_rx_mpwqe and the XDP releases, and what that does to the batch range. -/
namespace BatchReturn
open CallTree KernelCalls DmaLayer RxDriver IommuWorld SingleCalls BatchMapping BatchRelease

/-- accepted is the answer of the rx page cache when the completion recycles. -/
inductive Release where
  | freeWqe (recycle : Bool)
  | redirect (i : Nat)
  | complete (i : Nat) (recycle accepted : Bool)
  deriving DecidableEq, Repr

def Release.isFree : Release → Bool
  | .freeWqe _ => true
  | _ => false

def Release.page : Release → Option Nat
  | .freeWqe _ => none
  | .redirect i => some i
  | .complete i _ _ => some i

def onPage (wi : MpwInfo) (i : Nat) (act : Page → Rx Unit) : Rx Unit :=
  match (wi.dmaInfo i).buffer with
  | .page page => act page
  | _ => pure ()

def Release.body (rq : Rq) (wi : MpwInfo) : Release → Rx Unit
  | .freeWqe recycle => do
    let _ ← mlx5eFreeRxMpwqe rq wi recycle
    pure ()
  | .redirect i => onPage wi i (mlx5eXdpHandle rq)
  | .complete i recycle _ => onPage wi i fun page => mlx5eFreeXdpsqDesc page recycle

def Release.answers : Release → (op : KernelOp) → op.Ans → Bool
  | .complete _ _ accepted, .page (.rxCachePut _), taken => taken == accepted
  | _, _, _ => true

inductive Released (rq : Rq) (wi : MpwInfo) :
    List Release → World → List KernelEvent → World → Prop where
  | done {w : World} : Released rq wi [] w [] w
  | next {e : Release} {order : List Release} {w mid last : World} {here later : List KernelEvent}
      (first : Exec (limited e.answers (exec 0)) (onDevice rq.dev (e.body rq wi)) w here () mid)
      (rest : Released rq wi order mid later last) :
      Released rq wi (e :: order) w (here ++ later) last

/-- The WQE is freed once and each page marked in the bitmap is released once. -/
structure Complete (bitmap : Nat → Bool) (order : List Release) : Prop where
  once : order.countP Release.isFree = 1
  pages : ∀ i, (order.filterMap Release.page).count i = if i < 64 ∧ bitmap i = true then 1 else 0

structure GivenBack (base : Nat) (trace : List KernelEvent) (last : World) : Prop where
  unmapped : ∀ i < 64, last.pt (base / PAGE_SIZE + i) = none
  once : freed trace = [⟨base, batchSize⟩]

/-- Nothing but completions whose page the rx cache takes before the WQE is freed. -/
def keptUntilFree : List Release → Bool
  | .freeWqe _ :: _ => true
  | .complete _ true true :: rest => keptUntilFree rest
  | _ => false

section
variable {rq : Rq} (api : DmaApi rq.dev) {page : Page} {w : World}
include api

omit api in
theorem on_page_eq {wi : MpwInfo} {i : Nat} (here : (wi.dmaInfo i).buffer = .page page)
    (act : Page → Rx Unit) : onPage wi i act = act page := by
  unfold onPage
  rw [here]

omit api in
theorem kept_body_leaves {wi : MpwInfo} {i : Nat} (here : (wi.dmaInfo i).buffer = .page page) :
    Ensures (limited (Release.complete i true true).answers (exec 0))
      (onDevice rq.dev ((Release.complete i true true).body rq wi)) w (Leaves [] w.pt w.dmaAddr) := by
  simp only [Release.body, on_page_eq here]
  exact kept_release_leaves rfl

omit api in
/-- Every other XDP release unmaps its page alone. -/
theorem xdp_body_leaves (regular : rq.xskPool = false) {wi : MpwInfo} {e : Release} {i : Nat}
    (about : e.page = some i) (here : (wi.dmaInfo i).buffer = .page page)
    (notKept : e ≠ .complete i true true) {ranges : List Range} {pt : Nat → Option Nat}
    {addrs : Page → Nat}
    (unmap : Ensures (exec 0) (onDevice rq.dev (mlx5ePageDmaUnmap page 0 true)) w
      (Leaves ranges pt addrs)) :
    Ensures (limited e.answers (exec 0)) (onDevice rq.dev (e.body rq wi)) w
      (Leaves ranges pt addrs) := by
  cases e with
  | freeWqe recycle => cases about
  | redirect j =>
    cases about
    simp only [Release.body, on_page_eq here]
    simp only [mlx5eXdpHandle, regular, Bool.not_false, ↓reduceIte, Tree.bind_eq]
    apply leaves_bind unmap.limited
    intro mid
    exact quiet_last_call (.xdpHandOver page) (by simp)
  | complete j recycle accepted =>
    cases about
    simp only [Release.body, on_page_eq here]
    refine release_leaves (fun recycled => ?_) unmap
    cases accepted with
    | false => rfl
    | true => exact absurd (by rw [recycled]) notKept

/-- Once the batch is unmapped, the remaining XDP releases find nothing to unmap. -/
theorem rest_is_quiet (regular : rq.xskPool = false) {wi : MpwInfo} {base : Nat}
    {order : List Release} {last : World} {trace : List KernelEvent}
    (released : Released rq wi order w trace last) (noFree : order.countP Release.isFree = 0)
    (distinct : (order.filterMap Release.page).Nodup)
    (gone : ∀ i ∈ order.filterMap Release.page, ∃ page, (wi.dmaInfo i).buffer = .page page ∧
      w.dmaAddr page = base + i * 4096 ∧ w.pt ((base + i * 4096) / PAGE_SIZE) = none) :
    freed trace = [] ∧ last.pt = w.pt := by
  induction released with
  | done => exact ⟨rfl, rfl⟩
  | @next e order w mid last here later first rest ih =>
    cases about : e.page with
    | none =>
      cases e with
      | freeWqe recycle => simp [Release.isFree] at noFree
      | redirect i => cases about
      | complete i recycle accepted => cases about
    | some i =>
      rw [List.filterMap_cons_some about] at distinct gone
      obtain ⟨fresh, distinct⟩ := List.nodup_cons.mp distinct
      obtain ⟨page, buffer, addr, absent⟩ := gone i (List.mem_cons_self ..)
      -- whatever this release is, no other page loses its address
      have step : freed here = [] ∧ mid.pt = w.pt ∧
          ∀ other ≠ page, mid.dmaAddr other = w.dmaAddr other := by
        by_cases kept : e = .complete i true true
        · subst kept
          obtain ⟨gave, tables, known⟩ := (kept_body_leaves buffer).holds first
          exact ⟨gave, tables, fun other _ => by rw [known]⟩
        · obtain ⟨gave, tables, known⟩ := (xdp_body_leaves regular about buffer kept
            (gone_unmap_leaves api (addr ▸ absent))).holds first
          exact ⟨gave, tables, fun other apart => by rw [known, Function.update_of_ne apart]⟩
      obtain ⟨gave, tables, known⟩ := step
      have remaining := ih (by
        have := List.countP_cons (p := Release.isFree) (a := e) (l := order)
        omega) distinct (by
        intro j member
        obtain ⟨p, there, place, empty⟩ := gone j (List.mem_cons_of_mem i member)
        have other : p ≠ page := by
          rintro rfl
          have : i = j := by omega
          exact fresh (this ▸ member)
        exact ⟨p, there, (known p other).trans place, tables ▸ empty⟩)
      rw [freed_append, gave, remaining.1]
      exact ⟨rfl, remaining.2.trans tables⟩

theorem free_body_leaves {allowed : (op : KernelOp) → op.Ans → Bool} (regular : rq.xskPool = false)
    {wi : MpwInfo} {base : Nat} (aligned : base % PAGE_SIZE = 0) (bound : base + batchSize ≤ 2 ^ 64)
    (lastClear : wi.xdpXmitBitmap 63 = false) (recycle : Bool)
    (standing : ∀ i < 64, ∃ page, (wi.dmaInfo i).buffer = .page page ∧ Stands base i page w) :
    Ensures (limited allowed (exec 0)) (onDevice rq.dev ((Release.freeWqe recycle).body rq wi)) w
      fun trace _ last => freed trace = [⟨base, batchSize⟩] ∧
        last.pt = fill w.pt ⟨base, batchSize⟩ none ∧
        ∀ i < 64, wi.xdpXmitBitmap i = true → ∀ page, Stands base i page w →
          last.dmaAddr page = base + i * 4096 := by
  obtain ⟨first, _, stands⟩ := standing 0 (by omega)
  simp only [Release.body, mlx5eFreeRxMpwqe, Tree.bind_eq, Tree.bind_assoc]
  apply device_bind (free_loop_leaves (m := 63) api regular aligned bound first.pos recycle lastClear
    (by omega) (fun j _ below => by
      obtain ⟨page, buffer, stands⟩ := standing j below
      exact ⟨page, buffer, stands.addr⟩) stands.pte)
  intro trace _ mid after
  apply device_done
  rw [List.append_nil]
  refine ⟨after.1, after.2.1, fun i below marked page stands => ?_⟩
  rw [after.2.2 page, stands.addr]
  intro j low high free same
  rw [stands.addr] at same
  obtain rfl : i = j := by omega
  have busy : bitmapEmpty wi.xdpXmitBitmap = false := by
    unfold bitmapEmpty
    rw [List.all_eq_false]
    exact ⟨i, List.mem_range.mpr below, by simp [marked]⟩
  rw [busy, marked] at free
  cases free

/-- The WQE is freed while all of it is mapped, and what is left changes nothing. -/
theorem free_first_gives_back (regular : rq.xskPool = false) {wi : MpwInfo} {base : Nat}
    (aligned : base % PAGE_SIZE = 0) (bound : base + batchSize ≤ 2 ^ 64)
    (lastClear : wi.xdpXmitBitmap 63 = false) {recycle : Bool} {order : List Release} {mid last : World}
    {here later : List KernelEvent}
    (first : Exec (limited (Release.freeWqe recycle).answers (exec 0))
      (onDevice rq.dev ((Release.freeWqe recycle).body rq wi)) w here () mid)
    (rest : Released rq wi order mid later last) (noFree : order.countP Release.isFree = 0)
    (distinct : (order.filterMap Release.page).Nodup)
    (marked : ∀ i ∈ order.filterMap Release.page, i < 64 ∧ wi.xdpXmitBitmap i = true)
    (standing : ∀ i < 64, ∃ page, (wi.dmaInfo i).buffer = .page page ∧ Stands base i page w) :
    GivenBack base (here ++ later) last := by
  obtain ⟨gave, tables, known⟩ :=
    (free_body_leaves api regular aligned bound lastClear recycle standing).holds first
  have unmapped : ∀ i < 64, mid.pt (base / PAGE_SIZE + i) = none := by
    intro i below
    rw [tables]
    apply fill_in
    unfold Range.Has batchSize MLX5_MPWRQ_PAGES_PER_WQE PAGE_SIZE
    dsimp only
    omega
  have gone : ∀ i ∈ order.filterMap Release.page, ∃ page, (wi.dmaInfo i).buffer = .page page ∧
      mid.dmaAddr page = base + i * 4096 ∧ mid.pt ((base + i * 4096) / PAGE_SIZE) = none := by
    intro i member
    obtain ⟨below, bit⟩ := marked i member
    obtain ⟨page, buffer, stands⟩ := standing i below
    refine ⟨page, buffer, known i below bit page stands, ?_⟩
    have place : (base + i * 4096) / PAGE_SIZE = base / PAGE_SIZE + i := by
      unfold PAGE_SIZE
      omega
    rw [place]
    exact unmapped i below
  have quiet := rest_is_quiet api regular rest noFree distinct gone
  refine ⟨fun i below => ?_, ?_⟩
  · rw [quiet.2]
    exact unmapped i below
  · rw [freed_append, gave, quiet.1]
    rfl

theorem released_iff (regular : rq.xskPool = false) {wi : MpwInfo} {base : Nat}
    (aligned : base % PAGE_SIZE = 0) (bound : base + batchSize ≤ 2 ^ 64)
    (lastClear : wi.xdpXmitBitmap 63 = false) {order : List Release} {last : World}
    {trace : List KernelEvent} (released : Released rq wi order w trace last)
    (once : order.countP Release.isFree = 1) (distinct : (order.filterMap Release.page).Nodup)
    (marked : ∀ i ∈ order.filterMap Release.page, i < 64 ∧ wi.xdpXmitBitmap i = true)
    (standing : ∀ i < 64, ∃ page, (wi.dmaInfo i).buffer = .page page ∧ Stands base i page w) :
    GivenBack base trace last ↔ keptUntilFree order = true := by
  induction released with
  | done => cases once
  | @next e order w mid last here later first rest ih =>
    have tail := List.countP_cons (p := Release.isFree) (a := e) (l := order)
    cases about : e.page with
    | none =>
      cases e with
      | redirect i => cases about
      | complete i recycle accepted => cases about
      | freeWqe recycle =>
        rw [List.filterMap_cons_none about] at distinct marked
        have noFree : order.countP Release.isFree = 0 := by
          rw [once] at tail
          simp only [Release.isFree, ↓reduceIte] at tail
          omega
        exact ⟨fun _ => rfl, fun _ => free_first_gives_back api regular aligned bound lastClear first rest
          noFree distinct marked standing⟩
    | some i =>
      rw [List.filterMap_cons_some about] at distinct marked
      obtain ⟨fresh, distinct⟩ := List.nodup_cons.mp distinct
      obtain ⟨below, _⟩ := marked i (List.mem_cons_self ..)
      obtain ⟨page, buffer, stands⟩ := standing i below
      have notFree : e.isFree = false := by cases e <;> first | rfl | cases about
      by_cases kept : e = .complete i true true
      · subst kept
        obtain ⟨gave, tables, known⟩ := (kept_body_leaves buffer).holds first
        have more := ih (by rw [once] at tail; simp only [notFree] at tail; simpa using tail.symm)
          distinct (fun j member => marked j (List.mem_cons_of_mem i member)) (by
          intro j below
          obtain ⟨p, there, stands⟩ := standing j below
          exact ⟨p, there, by rw [known, stands.addr], by rw [tables, stands.pte]⟩)
        have same : freed (here ++ later) = freed later := by rw [freed_append, gave, List.nil_append]
        constructor
        · intro back
          exact more.mp ⟨back.unmapped, same ▸ back.once⟩
        · intro fine
          have back := more.mpr fine
          exact ⟨back.unmapped, same ▸ back.once⟩
      · -- its own place was given back, so the batch is not all that was
        obtain ⟨gave, _⟩ := (xdp_body_leaves regular about buffer kept
          (single_unmap_leaves api aligned stands)).holds first
        constructor
        · intro back
          have single := back.once
          rw [freed_append, gave] at single
          have size := congrArg Range.size (List.cons.inj single).1
          exact absurd size (show PAGE_SIZE ≠ batchSize by decide)
        · intro fine
          cases e with
          | freeWqe recycle => cases about
          | redirect j => cases fine
          | complete j recycle accepted =>
            cases about
            cases recycle <;> cases accepted <;> first | cases fine | exact absurd rfl kept

end

theorem xsk_release_single {rq : Rq} (xsk : rq.xskPool = true) (dmaInfo : DmaInfo) (recycle : Bool) :
    (mlx5ePageRelease rq dmaInfo recycle).Calls Single := by
  unfold mlx5ePageRelease
  rw [if_pos xsk]
  split
  · exact ⟨trivial, fun _ => trivial⟩
  · trivial

/-- Nothing asks for the whole batch when slot 63 is skipped or holds no page. -/
theorem free_loop_single {rq : Rq} {noXdp : Bool} {bitmap : Nat → Bool} (recycle : Bool)
    (never : rq.xskPool = true ∨ (noXdp || !bitmap 63) = false) {left i : Nat}
    (dmaInfo : Nat → DmaInfo) : (freeLoop rq noXdp bitmap recycle left i dmaInfo).Calls Single := by
  induction left generalizing i dmaInfo with
  | zero => trivial
  | succ left ih =>
    unfold freeLoop
    split
    · rename_i released
      split
      · apply Tree.Calls.bind
        · rcases never with xsk | skipped
          · exact xsk_release_single xsk _ false
          · apply release_single
            intro _
            by_cases last : i = 63
            · subst last
              rw [skipped] at released
              cases released
            · simpa [MLX5_MPWRQ_PAGES_PER_WQE] using last
        · exact fun _ => ih _
      · exact (release_single rq recycle fun impossible => absurd rfl impossible).bind fun _ => ih _
    · exact ih dmaInfo

theorem body_single {rq : Rq} {wi : MpwInfo} (never : rq.xskPool = true ∨ wi.xdpXmitBitmap 63 = true)
    (e : Release) : (e.body rq wi).Calls Single := by
  have zero : (0 : Nat) ≠ 0 → true = false := fun impossible => absurd rfl impossible
  cases e with
  | freeWqe recycle =>
    apply Tree.Calls.bind
    · apply Tree.Calls.bind
      · apply free_loop_single
        apply never.imp_right
        intro marked
        have busy : bitmapEmpty wi.xdpXmitBitmap = false := by
          unfold bitmapEmpty
          rw [List.all_eq_false]
          exact ⟨63, List.mem_range.mpr (by decide), by simp [marked]⟩
        rw [busy, marked]
        rfl
      · exact fun _ => trivial
    · exact fun _ => trivial
  | redirect i =>
    simp only [Release.body, onPage]
    split
    · rename_i page _
      simp only [mlx5eXdpHandle, Tree.bind_eq]
      split
      · exact (dma_unmap_single page zero).bind fun _ => ⟨trivial, fun _ => trivial⟩
      · exact ⟨trivial, fun _ => trivial⟩
    · trivial
  | complete i recycle accepted =>
    simp only [Release.body, onPage]
    split
    · exact release_dynamic_single _ recycle zero
    · trivial

theorem released_single {rq : Rq} {wi : MpwInfo}
    (never : rq.xskPool = true ∨ wi.xdpXmitBitmap 63 = true) {order : List Release}
    {w last : World} {trace : List KernelEvent} (released : Released rq wi order w trace last) :
    ∀ r ∈ freed trace, r.size ≠ batchSize := by
  induction released with
  | done => exact fun r member => absurd member List.not_mem_nil
  | next first _ ih =>
    intro r member
    rw [freed_append] at member
    rcases List.mem_append.mp member with here | later
    · exact single_freed (body_single never _) first r here
    · exact ih r later

/-- The whole batch comes back exactly when the queue is a regular one, page 63 is not
    with XDP, and every page that XDP releases earlier stays mapped in the rx cache. -/
theorem batch_given_back_iff {rq : Rq} (api : DmaApi rq.dev) {wi posted : MpwInfo} {w mid last : World}
    {allocTrace trace : List KernelEvent} {mtts : Nat → Nat} {base : Nat} {bitmap : Nat → Bool}
    {order : List Release}
    (alloc : Exec (limited cacheEmpty (exec 0)) (onDevice rq.dev (mlx5eAllocRxMpwqe rq wi)) w
      allocTrace (0, posted, mtts) mid)
    (handed : batchOf allocTrace = some base) (based : base ≠ 0) (complete : Complete bitmap order)
    (released : Released rq { posted with xdpXmitBitmap := bitmap } order mid trace last) :
    GivenBack base trace last ↔
      rq.xskPool = false ∧ bitmap 63 = false ∧ keptUntilFree order = true := by
  by_cases never : rq.xskPool = true ∨ bitmap 63 = true
  · have single := released_single never released
    constructor
    · intro back
      rw [back.once] at single
      exact absurd rfl (single _ List.mem_cons_self)
    · rintro ⟨regular, clear, _⟩
      rcases never with xsk | marked
      · rw [regular] at xsk
        cases xsk
      · rw [clear] at marked
        cases marked
  · obtain ⟨regular, clear⟩ := not_or.mp never
    rw [Bool.not_eq_true] at regular clear
    obtain ⟨_, first, posted⟩ := (alloc_wqe_posts api regular wi w).holds alloc
    cases handed.symm.trans first
    obtain ⟨aligned, bound, posts⟩ := (posted rfl).2 based
    have distinct : (order.filterMap Release.page).Nodup := by
      rw [List.nodup_iff_count]
      intro i
      rw [complete.pages i]
      split <;> omega
    have marked : ∀ i ∈ order.filterMap Release.page, i < 64 ∧ bitmap i = true := by
      intro i member
      have some_count := List.count_pos_iff.mpr member
      rw [complete.pages i] at some_count
      by_contra other
      rw [if_neg other] at some_count
      omega
    rw [released_iff api regular aligned bound clear released complete.once distinct marked (by
      intro i below
      obtain ⟨page, slot⟩ := posts i below
      exact ⟨page, slot.buffer, slot.stands⟩)]
    exact ⟨fun kept => ⟨regular, clear, kept⟩, fun all => all.2.2⟩

/- Concrete lives of a WQE: the allocation from a full pool, then the releases. -/

def runReleases (rq : Rq) (wi : MpwInfo) (oracle : (op : KernelOp) → World → op.Ans) :
    List Release → World → Option (List KernelEvent × World)
  | [], w => some ([], w)
  | e :: order, w =>
    (runBy (limited e.answers (exec 0)) oracle (onDevice rq.dev (e.body rq wi)) w).bind fun out =>
      (runReleases rq wi oracle order out.2.2).map fun more => (out.1 ++ more.1, more.2)

theorem run_releases_released {rq : Rq} {wi : MpwInfo} {oracle : (op : KernelOp) → World → op.Ans}
    {order : List Release} {w last : World} {trace : List KernelEvent}
    (run : runReleases rq wi oracle order w = some (trace, last)) :
    Released rq wi order w trace last := by
  induction order generalizing w trace with
  | nil =>
    cases run
    exact .done
  | cons e order ih =>
    obtain ⟨out, ran, later⟩ := Option.bind_eq_some_iff.mp run
    obtain ⟨more, rest, same⟩ := Option.map_eq_some_iff.mp later
    cases same
    exact .next (runBy_exec ran) (ih rest)

def freshWqe : MpwInfo := ⟨fun _ => .zeroed, fun _ => false⟩

def sampleLife (bitmap : Nat → Bool) (order : List Release) :
    Option ((List KernelEvent × (Int × MpwInfo × (Nat → Nat)) × World) ×
      List KernelEvent × World) :=
  (runBy (limited cacheEmpty (exec 0)) plentiful.answer
    (onDevice regularRq.dev (mlx5eAllocRxMpwqe regularRq freshWqe)) (startWorld false)).bind fun out =>
      (runReleases regularRq { out.2.1.2.1 with xdpXmitBitmap := bitmap } plentiful.answer order
        out.2.2).map fun more => (out, more)

def lifeFacts (bitmap : Nat → Bool) (order : List Release) : Option (Int × Option Nat × Option Nat) :=
  (sampleLife bitmap order).map fun life => (life.1.2.1.1, batchOf life.1.1, life.2.2.pt 256)

theorem sample_life {bitmap : Nat → Bool} {order : List Release} {pte : Option Nat}
    (runs : lifeFacts bitmap order = some (0, some 0x100000, pte)) :
    ∃ allocTrace posted mtts mid trace last,
      Exec (limited cacheEmpty (exec 0)) (onDevice regularRq.dev (mlx5eAllocRxMpwqe regularRq freshWqe))
        (startWorld false) allocTrace (0, posted, mtts) mid ∧
      batchOf allocTrace = some 0x100000 ∧
      Released regularRq { posted with xdpXmitBitmap := bitmap } order mid trace last ∧
      last.pt 256 = pte := by
  obtain ⟨⟨out, trace, last⟩, ran, facts⟩ := Option.map_eq_some_iff.mp runs
  obtain ⟨⟨allocTrace, ⟨err, posted, mtts⟩, mid⟩, alloc, rest⟩ := Option.bind_eq_some_iff.mp ran
  obtain ⟨more, released, same⟩ := Option.map_eq_some_iff.mp rest
  cases same
  obtain ⟨rfl, handed, present⟩ := (Prod.mk.injEq ..).mp facts |>.imp_right (Prod.mk.injEq ..).mp
  exact ⟨allocTrace, posted, mtts, mid, trace, last, runBy_exec alloc, handed,
    run_releases_released released, present⟩

theorem free_only_runs : lifeFacts (fun _ => false) [.freeWqe false] = some (0, some 0x100000, none) := by
  decide +kernel

theorem free_only_complete : Complete (fun _ => false) [.freeWqe false] :=
  ⟨rfl, fun _ => (if_neg fun both => Bool.false_ne_true both.2).symm⟩

/-- A WQE that XDP never touched comes back in full. -/
theorem untouched_batch_given_back : ∃ allocTrace posted mtts mid trace last,
    Exec (limited cacheEmpty (exec 0)) (onDevice regularRq.dev (mlx5eAllocRxMpwqe regularRq freshWqe))
      (startWorld false) allocTrace (0, posted, mtts) mid ∧
    Released regularRq { posted with xdpXmitBitmap := fun _ => false } [.freeWqe false] mid trace last ∧
    GivenBack 0x100000 trace last := by
  obtain ⟨allocTrace, posted, mtts, mid, trace, last, alloc, handed, released, _⟩ :=
    sample_life free_only_runs
  exact ⟨allocTrace, posted, mtts, mid, trace, last, alloc, released,
    (batch_given_back_iff regular_rq_api alloc handed (by decide) free_only_complete released).mpr
      ⟨rfl, rfl, rfl⟩⟩

def lastMarked (i : Nat) : Bool := i == 63

theorem last_redirected_runs :
    lifeFacts lastMarked [.redirect 63, .freeWqe false] = some (0, some 0x100000, some 1) := by
  decide +kernel

theorem last_redirected_complete : Complete lastMarked [.redirect 63, .freeWqe false] := by
  refine ⟨rfl, fun i => ?_⟩
  by_cases last : i = 63
  · subst last
    rfl
  · have other : lastMarked i = false := beq_eq_false_iff_ne.mpr last
    rw [if_neg fun both => by rw [other] at both; cases both.2]
    change List.count i [63] = 0
    exact List.count_eq_zero.mpr (by simpa using last)

/-- With page 63 redirected, page 0 stays mapped when all 64 pages are released. -/
theorem redirected_last_page_keeps_batch : ¬ ∀ (rq : Rq) (wi posted : MpwInfo) (w mid last : World)
    (allocTrace trace : List KernelEvent) (mtts : Nat → Nat) (base : Nat) (bitmap : Nat → Bool)
    (order : List Release), DmaApi rq.dev →
    Exec (limited cacheEmpty (exec 0)) (onDevice rq.dev (mlx5eAllocRxMpwqe rq wi)) w allocTrace
      (0, posted, mtts) mid →
    batchOf allocTrace = some base → base ≠ 0 → Complete bitmap order →
    Released rq { posted with xdpXmitBitmap := bitmap } order mid trace last →
    GivenBack base trace last := by
  intro always
  obtain ⟨allocTrace, posted, mtts, mid, trace, last, alloc, handed, released, present⟩ :=
    sample_life last_redirected_runs
  have back := always _ _ _ _ _ _ _ _ _ _ _ _ regular_rq_api alloc handed (by decide)
    last_redirected_complete released
  have gone := back.unmapped 0 (by decide)
  rw [show 0x100000 / PAGE_SIZE + 0 = 256 by decide, present] at gone
  cases gone

end BatchReturn
