import FastSafeIO.DmaCalls
import FastSafeIO.IommuWorld
import FastSafeIO.SlotFields

/- iotlb_sync_map after the patch: which map operations still tell the driver about
   every PTE they wrote before they return. -/
namespace MapSync
open CallTree KernelCalls DmaLayer DmaCalls RxDriver IommuWorld SlotFields

/-- The call makes the PTE of IOVA page x present. -/
def Writes : KernelEvent → Nat → Prop
  | ⟨.iommu (.__iommuMap iova _ size), ret⟩, x => ret = (0 : Int) ∧ (⟨iova, size⟩ : Range).Has x
  | _, _ => False

/-- The call tells the driver about IOVA page x. -/
def Syncs : KernelEvent → Nat → Prop
  | ⟨.iommu (.iotlbSyncMap iova size), _⟩, x => (⟨iova, size⟩ : Range).Has x
  | _, _ => False

def Synced : List KernelEvent → Prop := Followed Writes Syncs

def MapsNothing (trace : List KernelEvent) : Prop := ∀ e ∈ trace, ∀ x, ¬ Writes e x

inductive MapOperation where
  | iommuMap (iova paddr size : Nat)
  | iommuDmaMapPage (page : Page) (offset size : Nat)
  | iommuDmaMapPageIova (page : Page) (iova : Nat) (firstIova : Bool) (offset size : Nat)
  | iommuDmaMapResource (phys size : Nat)
  | iommuDmaAlloc (buffer : Option Page) (size : Nat)
  | allocRxMpwqe (xskPool cacheCopies : Bool) (wi : MpwInfo)

def MapOperation.body (dev : Device) : MapOperation → Kernel Unit
  | .iommuMap iova paddr size => (DmaLayer.iommuMap dev iova paddr size).bind fun _ => .done ()
  | .iommuDmaMapPage page offset size =>
    (DmaLayer.iommuDmaMapPage dev page offset size).bind fun _ => .done ()
  | .iommuDmaMapPageIova page iova firstIova offset size =>
    (DmaLayer.iommuDmaMapPageIova dev page iova firstIova offset size).bind fun _ => .done ()
  | .iommuDmaMapResource phys size => (DmaLayer.iommuDmaMapResource dev phys size).bind fun _ => .done ()
  | .iommuDmaAlloc buffer size => (DmaLayer.iommuDmaAlloc dev buffer size).bind fun _ => .done ()
  | .allocRxMpwqe xskPool cacheCopies wi =>
    (onDevice dev (mlx5eAllocRxMpwqe ⟨dev, xskPool, cacheCopies⟩ wi)).bind fun _ => .done ()

/-- Map operations one after the other, each with its calls; anything may happen to the
    domain in between. -/
inductive Operated (dev : Device) : World → List (MapOperation × List KernelEvent) → World → Prop where
  | start (w : World) : Operated dev w [] w
  | operate {w mid last : World} {log : List (MapOperation × List KernelEvent)} {op : MapOperation}
      {trace : List KernelEvent} (before : Operated dev w log mid)
      (ran : Exec (exec 0) (op.body dev) mid trace () last) :
      Operated dev w (log ++ [(op, trace)]) last
  | meanwhile {w mid last : World} {log : List (MapOperation × List KernelEvent)}
      (before : Operated dev w log mid) : Operated dev w log last

def asksCache : KernelEvent → Bool
  | ⟨.page .rxCacheGet, _⟩ => true
  | _ => false

/-- Nothing is mapped once the rx page cache has been asked for the page of slot 1. -/
def LaterSlotsMapNothing (trace : List KernelEvent) : Prop :=
  ∀ before e after, trace = before ++ e :: after → 2 ≤ before.countP asksCache → ∀ x, ¬ Writes e x

/-- When an operation leaves no PTE behind that the driver was not told about. -/
def SyncedWhen : MapOperation → List KernelEvent → Prop
  | .iommuDmaMapPageIova _ _ firstIova _ _, trace => firstIova = true ∨ MapsNothing trace
  | .allocRxMpwqe _ _ _, trace => LaterSlotsMapNothing trace
  | _, trace => MapsNothing trace

def NotMap (op : KernelOp) : Prop := ∀ iova paddr size, op ≠ .iommu (.__iommuMap iova paddr size)

def NotSync (op : KernelOp) : Prop := ∀ iova size, op ≠ .iommu (.iotlbSyncMap iova size)

theorem not_map_writes {e : KernelEvent} (calm : NotMap e.1) (x : Nat) : ¬ Writes e x := by
  unfold Writes
  split
  · exact absurd rfl (calm _ _ _)
  · exact id

theorem not_sync_syncs {e : KernelEvent} (quiet : NotSync e.1) (x : Nat) : ¬ Syncs e x := by
  unfold Syncs
  split
  · exact absurd rfl (quiet _ _)
  · exact id

/-- An operation that never tells the driver is fine only when it maps nothing. -/
theorem quiet_synced_iff {t : Kernel α} {w last : World} {trace : List KernelEvent} {a : α}
    {run : (op : KernelOp) → op.Ans → World → Option World} (quiet : t.Calls NotSync)
    (ran : Exec run t w trace a last) : Synced trace ↔ MapsNothing trace := by
  have none : ∀ s ∈ trace, ∀ x, ¬ Syncs s x := fun s member =>
    not_sync_syncs (exec_calls ran quiet s member)
  have split : Followed Writes Syncs ([] ++ trace) ↔
      Followed Writes Syncs [] ∧ ∀ e ∈ trace, ∀ x, ¬ Writes e x := followed_append_quiet none
  exact split.trans (and_iff_right trivial)

theorem map_call_quiet {size : Nat} {op : KernelOp} (made : MapCall false size op) : NotSync op := by
  rintro iova length rfl
  cases made

/-- Whatever the answers are, every PTE that t writes is followed by its sync. -/
def AlwaysSynced (t : Kernel α) : Prop :=
  ∀ (run : (op : KernelOp) → op.Ans → World → Option World) (w : World),
    Ensures run t w fun trace _ _ => Synced trace

theorem AlwaysSynced.done (a : α) : AlwaysSynced (.done a : Kernel α) :=
  fun _ _ => Ensures.done trivial

theorem AlwaysSynced.call {op : KernelOp} {rest : op.Ans → Kernel α} (calm : NotMap op)
    (each : ∀ r, AlwaysSynced (rest r)) : AlwaysSynced (.call op rest) := by
  intro run w
  apply Ensures.call
  intro r mid _
  apply (each r run mid).mono
  intro trace _ _ synced
  exact ⟨fun x written => absurd written (not_map_writes (e := ⟨op, r⟩) calm x), synced⟩

theorem AlwaysSynced.bind {t : Kernel α} {next : α → Kernel β} (first : AlwaysSynced t)
    (rest : ∀ a, AlwaysSynced (next a)) : AlwaysSynced (t.bind next) := by
  intro run w
  apply (first run w).bind
  intro trace a mid synced
  apply (rest a run mid).mono
  intro more _ _ later
  exact synced.append later

theorem needless_synced {t : Kernel α} (calm : t.Calls NotMap) : AlwaysSynced t := by
  intro run w
  constructor
  intro trace a last ran
  exact followed_needless fun e member => not_map_writes (exec_calls ran calm e member)

section
variable {dev : Device} (syncs : dev.syncMap = true)
include syncs

/-- The first map of a batch syncs 64 times its own size, its own pages included. -/
theorem map_atomic_synced (iova paddr size : Nat) :
    AlwaysSynced (iommuMapAtomic dev iova true paddr size) := by
  intro run w
  unfold iommuMapAtomic _iommuMap
  apply Ensures.call
  intro ret mid _
  simp only [Tree.bind_eq, Tree.done_bind]
  split
  · apply Ensures.call
    intro ans last _
    apply Ensures.done
    refine ⟨fun x written => ⟨_, List.mem_cons_self, ?_⟩, fun _ impossible => absurd impossible id,
      trivial⟩
    obtain ⟨_, low, high⟩ := written
    have wider : size / PAGE_SIZE ≤ size * 64 / PAGE_SIZE := Nat.div_le_div_right (by omega)
    refine ⟨low, ?_⟩
    dsimp only at high ⊢
    omega
  · rename_i bad
    exact Ensures.done ⟨fun x written => absurd ⟨written.1, syncs, trivial⟩ bad, trivial⟩

theorem place_synced (phys iovaOff size iova : Nat) :
    AlwaysSynced (placeAt dev phys iovaOff size iova true) := by
  unfold placeAt
  split
  · exact .done _
  · apply (map_atomic_synced syncs _ _ _).bind
    intro ret
    split
    · exact .call (by simp [NotMap]) fun _ => .done _
    · exact .done _

theorem dma_map_synced (phys iovaAddr size : Nat) :
    AlwaysSynced (__iommuDmaMap dev phys iovaAddr true size) := by
  rw [dma_map_eq]
  apply AlwaysSynced.call (by simp [NotMap])
  intro attach
  cases attach
  · simp only [Bool.false_eq_true, ↓reduceIte]
    split
    · exact place_synced syncs _ _ _ _
    · exact .call (by simp [NotMap]) fun iova => place_synced syncs _ _ _ iova
  · exact .done _

theorem map_tail_synced (phys iovaAddr size : Nat) :
    AlwaysSynced (mapPageTail dev phys iovaAddr true size) := by
  unfold mapPageTail
  apply (dma_map_synced syncs phys iovaAddr size).bind
  intro iova
  apply needless_synced
  split
  · refine ⟨by simp [NotMap], fun bounced => ?_⟩
    cases bounced
    · trivial
    · exact ⟨by simp [NotMap], fun _ => trivial⟩
  · trivial

theorem map_page_synced (page : Page) (iovaAddr offset size : Nat) :
    AlwaysSynced (iommuDmaMapPageIova dev page iovaAddr true offset size) := by
  unfold iommuDmaMapPageIova
  dsimp only
  split
  · apply AlwaysSynced.call (by simp [NotMap])
    intro active
    cases active
    · exact .done _
    · apply AlwaysSynced.call (by simp [NotMap])
      intro phys
      simp only [Tree.done_bind]
      split
      · exact .done _
      · exact map_tail_synced syncs phys iovaAddr size
  · exact map_tail_synced syncs _ iovaAddr size

theorem first_map_synced (page : Page) (iova offset size : Nat) :
    AlwaysSynced (dmaMapPageAttrsIova dev page iova true offset size) := by
  unfold dmaMapPageAttrsIova
  split
  · split
    · exact .call (by simp [NotMap]) fun _ => .done _
    · split
      · exact map_page_synced syncs page iova offset size
      · exact .call (by simp [NotMap]) fun _ => .done _
  · exact .done _

end

/- The driver's calls by what they can do: map nothing, or at least sync nothing. -/

def MapsNot : RxOp → Prop
  | .dma (.dmaMapPageAttrs _ _ _) => False
  | .dma (.dmaMapPageAttrsIova _ _ _ _ _) => False
  | _ => True

def FirstNot : RxOp → Prop
  | .dma (.dmaMapPageAttrsIova _ _ firstIova _ _) => firstIova = false
  | _ => True

theorem maps_not_first_not {op : RxOp} (calm : MapsNot op) : FirstNot op := by
  unfold FirstNot
  split
  · exact absurd calm id
  · trivial

theorem maps_not_impl (dev : Device) (op : RxOp) (calm : MapsNot op) :
    (dmaImpl dev op).Calls NotMap := by
  apply (dma_impl_calls dev op).mono
  rintro low made iova paddr size rfl
  cases op with
  | page op => cases made
  | dma op =>
    cases op
    case dmaMapPageAttrs => exact calm
    case dmaMapPageAttrsIova => exact calm
    case iommuDmaAllocIova => cases made
    all_goals rcases made with ⟨_, made⟩ | made <;> cases made

theorem first_not_impl (dev : Device) (op : RxOp) (later : FirstNot op) :
    (dmaImpl dev op).Calls NotSync := by
  apply (dma_impl_calls dev op).mono
  rintro low made iova size rfl
  cases op with
  | page op => cases made
  | dma op =>
    cases op
    case dmaMapPageAttrsIova =>
      rcases made with ⟨_, first⟩ | made
      · cases later.symm.trans first
      · cases made
    case iommuDmaAllocIova => cases made
    all_goals rcases made with ⟨_, made⟩ | made <;> cases made

/-- Only a device on the dma-iommu route writes PTEs at all. -/
theorem unrouted_impl {dev : Device} (other : ¬ (dev.dmaMapDirect = false ∧ dev.mapOps = .iommuDma))
    (op : RxOp) : (dmaImpl dev op).Calls NotMap := by
  apply (dma_impl_calls dev op).mono
  rintro low made iova paddr size rfl
  have route := impl_call_route made .dmaIommu rfl
  exact other (of_iommu_route route.symm)

section
variable {rq : Rq}

theorem release_call_maps_not (op : RxOp) (release : ReleaseCall op) : MapsNot op := by
  unfold MapsNot
  split
  · exact absurd release id
  · exact absurd release id
  · trivial

theorem xsk_alloc_maps_not (xsk : rq.xskPool = true) (wi : MpwInfo) :
    (mlx5eAllocRxMpwqe rq wi).Calls MapsNot := by
  have slot : ∀ dmaInfo, (mlx5ePageAlloc rq dmaInfo).Calls MapsNot := by
    intro dmaInfo
    unfold mlx5ePageAlloc
    rw [if_pos xsk]
    refine ⟨trivial, fun got => ?_⟩
    cases got <;> trivial
  have loop : ∀ (base left i : Nat) (dmaInfo : Nat → DmaInfo) (mtts : Nat → Nat),
      (allocLoop rq base left i dmaInfo mtts).Calls MapsNot := by
    intro base left
    induction left with
    | zero => exact fun _ _ _ => trivial
    | succ left ih =>
      intro i dmaInfo mtts
      unfold allocLoop
      apply (slot _).bind
      intro out
      dsimp only
      split
      · trivial
      · exact ih _ _ _
  apply alloc_wqe_calls_of_batch rq (fun _ => trivial) (batch_base_calls rq fun _ _ => trivial)
  exact fun base => alloc_batch_calls rq release_call_maps_not (loop base _ 0 _ _)

theorem later_slots_first_not (mapped : rq.dev.iommuMapped = true) (base left : Nat) {i : Nat}
    (later : 0 < i) (dmaInfo : Nat → DmaInfo) (mtts : Nat → Nat) :
    (allocLoop rq base left i dmaInfo mtts).Calls FirstNot := by
  induction left generalizing i dmaInfo mtts with
  | zero => trivial
  | succ left ih =>
    obtain ⟨batched, _, first, _⟩ := prepare_slot_batched base i (dmaInfo i)
    unfold allocLoop
    rw [mapped]
    apply Tree.Calls.bind
    · apply page_alloc_calls rq fun _ => trivial
      intro page
      unfold mapSlotPage
      rw [if_pos batched]
      refine ⟨first.trans ?_, fun _ => trivial⟩
      simp only [beq_eq_false_iff_ne]
      omega
    · intro out
      dsimp only
      split
      · trivial
      · exact ih (by omega) _ _

theorem device_synced {dev : Device} {t : Rx α}
    (calls : t.Calls fun op => AlwaysSynced (dmaImpl dev op)) : AlwaysSynced (onDevice dev t) := by
  induction t with
  | done a => exact .done a
  | call op rest ih =>
    unfold onDevice
    rw [Tree.interp_call]
    exact calls.1.bind fun r => ih r (calls.2 r)

theorem first_slot_synced (syncs : rq.dev.syncMap = true) (base : Nat) (dmaInfo : DmaInfo) :
    AlwaysSynced (onDevice rq.dev (mlx5ePageAlloc rq (prepareSlot true base 0 dmaInfo))) := by
  obtain ⟨batched, _, first, _⟩ := prepare_slot_batched base 0 dmaInfo
  apply device_synced
  apply page_alloc_calls rq
  · intro op
    exact needless_synced ⟨by simp [NotMap], fun _ => trivial⟩
  · intro page
    unfold mapSlotPage
    rw [if_pos batched, first]
    exact ⟨first_map_synced syncs page _ 0 PAGE_SIZE, fun _ => trivial⟩

end

/-- Each slot asks the rx page cache once, before anything else. -/
theorem slot_asks_once {rq : Rq} (regular : rq.xskPool = false) (dmaInfo : DmaInfo) :
    ∃ rest, mlx5ePageAlloc rq dmaInfo = .call (.page .rxCacheGet) rest ∧
      ∀ got, (rest got).Calls fun op => op ≠ .page .rxCacheGet := by
  unfold mlx5ePageAlloc
  rw [regular]
  refine ⟨_, rfl, fun got => ?_⟩
  cases got with
  | some got => trivial
  | none =>
    refine ⟨by simp, fun page => ?_⟩
    cases page with
    | none => trivial
    | some page =>
      have slot : (mapSlotPage dmaInfo page).Calls fun op => op ≠ .page .rxCacheGet := by
        unfold mapSlotPage
        split <;> exact ⟨by simp, fun _ => trivial⟩
      apply slot.bind
      intro addr
      split <;> exact ⟨by simp, fun _ => trivial⟩

theorem not_asked_impl (dev : Device) (op : RxOp) (other : op ≠ .page .rxCacheGet) :
    (dmaImpl dev op).Calls fun low => low ≠ .page .rxCacheGet := by
  apply (dma_impl_calls dev op).mono
  rintro low made rfl
  cases op with
  | page op => cases made; exact other rfl
  | dma op =>
    cases op
    case iommuDmaAllocIova => cases made
    all_goals rcases made with ⟨_, made⟩ | made <;> cases made

theorem slot_trace_asks {rq : Rq} (regular : rq.xskPool = false) {dmaInfo : DmaInfo}
    {w last : World} {trace : List KernelEvent} {out : Int × DmaInfo}
    (ran : Exec (exec 0) (onDevice rq.dev (mlx5ePageAlloc rq dmaInfo)) w trace out last) :
    trace.countP asksCache = 1 := by
  obtain ⟨rest, same, silent⟩ := slot_asks_once regular dmaInfo
  rw [same] at ran
  obtain ⟨got, mid, tail, _, later, rfl⟩ := exec_call_iff.mp ran
  have quiet : tail.countP asksCache = 0 := by
    apply List.countP_eq_zero.mpr
    intro e member asked
    have other := exec_calls later ((silent got).interp (not_asked_impl rq.dev)) e member
    unfold asksCache at asked
    split at asked
    · exact other rfl
    · cases asked
  rw [List.countP_cons, quiet]
  rfl

/-- A batch's calls up to the end of slot 0, and its other calls. -/
structure SlotZeroFirst (first rest : List KernelEvent) : Prop where
  synced : Synced first
  once : first.countP asksCache = 1
  quiet : ∀ s ∈ rest, ∀ x, ¬ Syncs s x
  starts : MapsNothing rest ∨ ∃ e more, rest = e :: more ∧ asksCache e = true

theorem asks_writes_not {e : KernelEvent} (asks : asksCache e = true) (x : Nat) : ¬ Writes e x := by
  apply not_map_writes
  unfold asksCache at asks
  split at asks
  · simp [NotMap]
  · cases asks

theorem SlotZeroFirst.synced_iff {first rest : List KernelEvent} (split : SlotZeroFirst first rest) :
    Synced (first ++ rest) ↔ MapsNothing rest :=
  (followed_append_quiet split.quiet).trans (and_iff_right split.synced)

theorem SlotZeroFirst.later_iff {first rest : List KernelEvent} (split : SlotZeroFirst first rest) :
    LaterSlotsMapNothing (first ++ rest) ↔ MapsNothing rest := by
  constructor
  · intro later
    rcases split.starts with nothing | ⟨asked, more, rfl, asks⟩
    · exact nothing
    · intro e member
      rcases List.mem_cons.mp member with rfl | member
      · exact asks_writes_not asks
      · obtain ⟨before, after, rfl⟩ := List.append_of_mem member
        apply later (first ++ asked :: before) e after (by simp)
        rw [List.countP_append, List.countP_cons_of_pos asks, split.once]
        omega
  · intro nothing before e after same twice
    rcases List.append_eq_append_iff.mp same with ⟨mid, rfl, tail⟩ | ⟨mid, head, tail⟩
    · apply nothing
      rw [tail]
      exact List.mem_append_right mid List.mem_cons_self
    · have once := split.once
      rw [head, List.countP_append] at once
      omega

/- The part of mlx5e_alloc_rx_mpwqe behind slot 0. -/
def laterSlots (rq : Rq) (wi : MpwInfo) (base : Nat) (out : Int × DmaInfo) :
    Rx (Int × MpwInfo × (Nat → Nat)) :=
  (if out.1 ≠ 0 then .done ⟨out.1, 0, Function.update wi.dmaInfo 0 out.2, fun _ => 0⟩
    else allocLoop rq base 63 1 (Function.update wi.dmaInfo 0 out.2)
      (Function.update (fun _ => 0) 0 (out.2.addr ||| MLX5_EN_WR))).bind
    fun run =>
      if run.err ≠ 0 then
        (errUnmap rq run.count run.dmaInfo).bind fun dmaInfo =>
          .done (run.err, { wi with dmaInfo := dmaInfo }, run.inlineMtts)
      else .done (0, ⟨run.dmaInfo, fun _ => false⟩, run.inlineMtts)

theorem alloc_batch_eq (rq : Rq) (wi : MpwInfo) (base : Nat) :
    allocBatch rq wi base =
      (mlx5ePageAlloc rq (prepareSlot rq.dev.iommuMapped base 0 (wi.dmaInfo 0))).bind
        (laterSlots rq wi base) := by
  unfold allocBatch MLX5_MPWRQ_PAGES_PER_WQE
  rw [allocLoop]
  simp only [Tree.bind_eq, Tree.bind_assoc]
  rfl

theorem later_slots_calls {rq : Rq} (mapped : rq.dev.iommuMapped = true) (wi : MpwInfo) (base : Nat)
    (out : Int × DmaInfo) :
    (laterSlots rq wi base out).Calls FirstNot := by
  unfold laterSlots
  apply Tree.Calls.bind
  · split
    · trivial
    · exact later_slots_first_not mapped base 63 Nat.one_pos _ _
  · intro run
    split
    · apply Tree.Calls.bind
      · apply (err_unmap_calls rq _ _).mono
        exact fun op release => maps_not_first_not (release_call_maps_not op release)
      · exact fun _ => trivial
    · trivial

/-- Behind slot 0 the loop stops at once or asks the rx page cache again. -/
theorem later_slots_start {rq : Rq} (regular : rq.xskPool = false) {wi : MpwInfo} {base : Nat}
    {out : Int × DmaInfo} {w last : World} {trace : List KernelEvent}
    {done : Int × MpwInfo × (Nat → Nat)}
    (ran : Exec (exec 0) (onDevice rq.dev (laterSlots rq wi base out)) w trace done last) :
    MapsNothing trace ∨ ∃ e more, trace = e :: more ∧ asksCache e = true := by
  unfold laterSlots at ran
  by_cases failed : out.1 ≠ 0
  · rw [if_pos failed, Tree.done_bind, if_pos failed] at ran
    obtain ⟨rfl, _⟩ := exec_done_iff.mp ran
    exact Or.inl fun e member => absurd member List.not_mem_nil
  · obtain ⟨rest, asks, _⟩ := slot_asks_once regular (prepareSlot rq.dev.iommuMapped base 1
      (Function.update wi.dmaInfo 0 out.2 1))
    rw [if_neg failed, allocLoop, asks] at ran
    obtain ⟨got, mid, tail, _, _, rfl⟩ := exec_call_iff.mp ran
    exact Or.inr ⟨_, tail, rfl, rfl⟩

theorem batch_split {rq : Rq} (regular : rq.xskPool = false) (mapped : rq.dev.iommuMapped = true)
    (syncs : rq.dev.syncMap = true) {wi : MpwInfo} {w last : World} {trace : List KernelEvent}
    {out : Int × MpwInfo × (Nat → Nat)}
    (ran : Exec (exec 0) (onDevice rq.dev (mlx5eAllocRxMpwqe rq wi)) w trace out last) :
    ∃ first rest, trace = first ++ rest ∧ SlotZeroFirst first rest := by
  have same : mlx5eAllocRxMpwqe rq wi =
      .call (.dma (.iommuDmaAllocIova (4096 * MLX5_MPWRQ_PAGES_PER_WQE))) (allocBatch rq wi) := by
    simp [mlx5eAllocRxMpwqe, batchBase, regular, mapped, dmaCall]
  rw [same] at ran
  obtain ⟨base, start, more, _, batch, rfl⟩ := exec_call_iff.mp ran
  rw [Tree.done_bind, alloc_batch_eq, mapped, Tree.interp_bind] at batch
  obtain ⟨head, slot, mid, rest, first, after, rfl⟩ := exec_bind_iff.mp batch
  refine ⟨⟨_, base⟩ :: head, rest, rfl, ?_⟩
  have never : ∀ x, ¬ Writes ⟨.iommu (.iommuDmaAllocIova (4096 * MLX5_MPWRQ_PAGES_PER_WQE)), base⟩ x :=
    not_map_writes (by simp [NotMap])
  constructor
  · exact ⟨fun x written => absurd written (never x),
      (first_slot_synced syncs base (wi.dmaInfo 0) (exec 0) start).holds first⟩
  · rw [List.countP_cons, slot_trace_asks regular first]
    rfl
  · intro s member x
    apply not_sync_syncs
    exact exec_calls after ((later_slots_calls mapped wi base slot).interp
      (first_not_impl rq.dev)) s member
  · exact later_slots_start regular after

/-- A batch is synced exactly when only the page of slot 0 gets a new mapping. -/
theorem batch_synced_iff {rq : Rq} (fine : rq.dev.Wf) (syncs : rq.dev.syncMap = true) {wi : MpwInfo}
    {w last : World} {trace : List KernelEvent} {out : Int × MpwInfo × (Nat → Nat)}
    (ran : Exec (exec 0) (onDevice rq.dev (mlx5eAllocRxMpwqe rq wi)) w trace out last) :
    Synced trace ↔ LaterSlotsMapNothing trace := by
  have calm : (onDevice rq.dev (mlx5eAllocRxMpwqe rq wi)).Calls NotMap →
      (Synced trace ↔ LaterSlotsMapNothing trace) := by
    intro quiet
    have nothing : MapsNothing trace := fun e member =>
      not_map_writes (exec_calls ran quiet e member)
    constructor
    · rintro _ before e after rfl _
      exact nothing e (List.mem_append_right before List.mem_cons_self)
    · exact fun _ => followed_needless nothing
  by_cases xsk : rq.xskPool = true
  · exact calm ((xsk_alloc_maps_not xsk wi).interp (maps_not_impl rq.dev))
  · by_cases route : rq.dev.dmaMapDirect = false ∧ rq.dev.mapOps = .iommuDma
    · have mapped := (fine.cookie route.1 route.2).1
      obtain ⟨first, rest, rfl, split⟩ := batch_split (eq_false_of_ne_true xsk) mapped syncs ran
      exact split.synced_iff.trans split.later_iff.symm
    · exact calm ((Tree.calls_anything _).interp fun op _ => unrouted_impl route op)

theorem operation_synced_iff {dev : Device} (fine : dev.Wf) (syncs : dev.syncMap = true)
    {op : MapOperation} {w last : World} {trace : List KernelEvent}
    (ran : Exec (exec 0) (op.body dev) w trace () last) : Synced trace ↔ SyncedWhen op trace := by
  cases op with
  | iommuMap iova paddr size =>
    apply quiet_synced_iff _ ran
    exact ((map_atomic_calls dev false size iova paddr size).mono fun _ => map_call_quiet).bind
      fun _ => trivial
  | iommuDmaMapPage page offset size =>
    apply quiet_synced_iff _ ran
    exact ((map_page_calls dev false size page 0 offset).mono fun _ => map_call_quiet).bind
      fun _ => trivial
  | iommuDmaMapPageIova page iova firstIova offset size =>
    cases firstIova with
    | false =>
      have quiet : Synced trace ↔ MapsNothing trace := by
        apply quiet_synced_iff _ ran
        exact ((map_page_calls dev false size page iova offset).mono fun _ => map_call_quiet).bind
          fun _ => trivial
      simpa [SyncedWhen] using quiet
    | true =>
      have synced : Synced trace :=
        (((map_page_synced syncs page iova offset size).bind fun _ => .done ()) (exec 0) w).holds ran
      simpa [SyncedWhen] using synced
  | iommuDmaMapResource phys size =>
    apply quiet_synced_iff _ ran
    exact ((map_resource_calls dev size phys).mono fun _ => map_call_quiet).bind fun _ => trivial
  | iommuDmaAlloc buffer size =>
    apply quiet_synced_iff _ ran
    exact ((dma_alloc_calls dev size buffer).mono fun _ => map_call_quiet).bind fun _ => trivial
  | allocRxMpwqe xskPool cacheCopies wi =>
    obtain ⟨calls, out, mid, none, batch, ended, rfl⟩ := exec_bind_iff.mp ran
    obtain ⟨rfl, _⟩ := exec_done_iff.mp ended
    rw [List.append_nil]
    exact @batch_synced_iff ⟨dev, xskPool, cacheCopies⟩ fine syncs _ _ _ _ _ batch

/-- A run leaves every new mapping synced exactly when each of its operations falls under its
    condition. -/
theorem mappings_synced_iff {dev : Device} (fine : dev.Wf) (syncs : dev.syncMap = true)
    {w last : World} {log : List (MapOperation × List KernelEvent)}
    (run : Operated dev w log last) :
    (∀ e ∈ log, Synced e.2) ↔ ∀ e ∈ log, SyncedWhen e.1 e.2 := by
  induction run with
  | start => simp
  | operate _ ran ih =>
    have here := operation_synced_iff fine syncs ran
    simp only [List.mem_append, List.mem_singleton, or_imp, forall_and, forall_eq]
    exact and_congr ih here
  | meanwhile _ ih => exact ih

/- A device whose IOMMU driver implements iotlb_sync_map. -/
def syncing : Device := { translated with syncMap := true }

theorem syncing_fine : syncing.Wf := ⟨fun _ _ => ⟨rfl, rfl⟩, rfl⟩

/-- The first page of a batch, mapped at its base. -/
theorem first_page_is_synced : ∃ trace last,
    Operated syncing (startWorld false)
      [(.iommuDmaMapPageIova samplePage 0x100000 true 0 PAGE_SIZE, trace)] last ∧
    (∃ e ∈ trace, Writes e 256) ∧ Synced trace := by
  have out : ∃ trace last, runBy (exec 0) shortOfPages.answer
      (MapOperation.body syncing (.iommuDmaMapPageIova samplePage 0x100000 true 0 PAGE_SIZE))
        (startWorld false) = some (trace, (), last) ∧ ∃ e ∈ trace, Writes e 256 :=
    ⟨_, _, rfl, _, .tail _ (.head _), rfl, by decide⟩
  obtain ⟨trace, last, out, written⟩ := out
  have run := Operated.operate (.start (startWorld false)) (runBy_exec out)
  have synced := (mappings_synced_iff syncing_fine rfl run).mpr (by
    intro e member
    cases List.mem_singleton.mp member
    exact Or.inl rfl)
  exact ⟨trace, last, run, written, synced _ (List.mem_singleton.mpr rfl)⟩

/-- iommu_map itself no longer tells the driver anything. -/
theorem plain_map_not_synced : ¬ ∀ (dev : Device) (w last : World)
    (log : List (MapOperation × List KernelEvent)), dev.Wf → dev.syncMap = true →
    Operated dev w log last → ∀ e ∈ log, Synced e.2 := by
  intro always
  have out : ∃ trace last, runBy (exec 0) shortOfPages.answer
      (MapOperation.body syncing (.iommuMap 0x100000 0x7000 PAGE_SIZE)) (startWorld false) =
        some (trace, (), last) ∧ trace = [⟨.iommu (.__iommuMap 0x100000 0x7000 PAGE_SIZE), (0 : Int)⟩] :=
    ⟨_, _, rfl, rfl⟩
  obtain ⟨_, last, out, rfl⟩ := out
  have run := Operated.operate (.start (startWorld false)) (runBy_exec out)
  have synced := always syncing _ last _ syncing_fine rfl run _ List.mem_cons_self
  obtain ⟨s, impossible, _⟩ := synced.1 256 ⟨rfl, by decide⟩
  cases impossible

end MapSync
