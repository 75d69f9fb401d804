import FastSafeIO.DmaLayer

/- What the kernel and the hardware outside the patch do: one domain's page table
   and IOTLB, the IOVA allocator with its flush queue, the page pool and the rx page
   cache. A call is allowed an answer when the result is some state. -/
namespace IommuWorld
open CallTree KernelCalls DmaLayer

/- An IOVA range in bytes, as the allocator is given it. -/
structure Range where
  base : Nat
  size : Nat
  deriving DecidableEq, Repr

/- Membership is by page number. -/
def Range.Has (r : Range) (x : Nat) : Prop :=
  r.base / PAGE_SIZE ≤ x ∧ x < r.base / PAGE_SIZE + r.size / PAGE_SIZE

instance (r : Range) (x : Nat) : Decidable (r.Has x) :=
  inferInstanceAs (Decidable (_ ∧ _))

def Range.Disjoint (r s : Range) : Prop := ∀ x, r.Has x → ¬ s.Has x

/- The pages an unmap of this address and size covers. -/
def unmapRange (dmaAddr size : Nat) : Range :=
  ⟨dmaAddr - iovaOffset dmaAddr, iovaAlign (size + iovaOffset dmaAddr)⟩

/- Who the allocator has given an IOVA page to. A parked page waits for a flush. -/
inductive Owner where
  | free
  | user (u : Nat)
  | parked
  deriving DecidableEq, Repr

/- live holds the ranges handed out and not yet given back by a call that names
   them; parked the ranges in the flush queue, with the mark of a finished flush. -/
structure World where
  pt : Nat → Option Nat
  tlb : List (Nat × Nat)
  owner : Nat → Owner
  live : List (Nat × Range)
  parked : List (Range × Bool)
  fq : Bool
  dmaAddr : Page → Nat
  cache : Nat → List Page
  held : Page → Bool

/- Nothing is allocated, mapped or cached yet. -/
def startWorld (fq : Bool) : World :=
  { pt := fun _ => none, tlb := [], owner := fun _ => .free, live := [], parked := [],
    fq := fq, dmaAddr := fun _ => 0, cache := fun _ => [], held := fun _ => false }

def fill {α : Type} (f : Nat → α) (r : Range) (a : α) : Nat → α :=
  fun x => if r.Has x then a else f x

theorem fill_in {α : Type} {f : Nat → α} {r : Range} {a : α} {x : Nat} (inside : r.Has x) :
    fill f r a x = a := if_pos inside

theorem fill_out {α : Type} {f : Nat → α} {r : Range} {a : α} {x : Nat} (outside : ¬ r.Has x) :
    fill f r a x = f x := if_neg outside

/- Nothing translates the IOVA page x. -/
def Gone (x : Nat) (w : World) : Prop := w.pt x = none ∧ ∀ f, (x, f) ∉ w.tlb

def World.mapPages (w : World) (r : Range) (paddr : Nat) : World :=
  { w with pt := fun x =>
      if r.Has x then some (paddr / PAGE_SIZE + (x - r.base / PAGE_SIZE)) else w.pt x }

def World.clear (w : World) (r : Range) : World := { w with pt := fill w.pt r none }

def World.invalidate (w : World) (r : Range) : World :=
  { w with tlb := w.tlb.filter fun e => !decide (r.Has e.1) }

def World.allocate (w : World) (u : Nat) (r : Range) : World :=
  { w with owner := fill w.owner r (.user u), live := (u, r) :: w.live }

def World.release (w : World) (r : Range) : World :=
  { w with owner := fill w.owner r .free, live := w.live.filter fun e => e.2 ≠ r }

def World.park (w : World) (r : Range) : World :=
  { w with
    owner := fill w.owner r .parked, live := w.live.filter fun e => e.2 ≠ r,
    parked := (r, false) :: w.parked }

def World.setDmaAddr (w : World) (page : Page) (addr : Nat) : World :=
  { w with dmaAddr := Function.update w.dmaAddr page addr }

def World.hold (w : World) (page : Page) (out : Bool) : World :=
  { w with held := Function.update w.held page out }

/- All pages of the range are free. -/
def World.Available (w : World) (r : Range) : Prop :=
  ∀ i < r.size / PAGE_SIZE, w.owner (r.base / PAGE_SIZE + i) = .free

instance (w : World) (r : Range) : Decidable (w.Available r) :=
  inferInstanceAs (Decidable (∀ i < _, _))

theorem available_free {w : World} {r : Range} (available : w.Available r) {x : Nat}
    (inside : r.Has x) : w.owner x = .free := by
  obtain ⟨low, high⟩ := inside
  have := available (x - r.base / PAGE_SIZE) (by omega)
  rwa [Nat.add_sub_cancel' low] at this

def World.iovaToPhys (w : World) (iova : Nat) : Nat :=
  match w.pt (iova / PAGE_SIZE) with
  | none => 0
  | some frame => frame * PAGE_SIZE + iova % PAGE_SIZE

theorem present_phys {w : World} {iova frame : Nat} (present : w.pt (iova / PAGE_SIZE) = some frame)
    (positive : 0 < frame) : w.iovaToPhys iova ≠ 0 := by
  unfold World.iovaToPhys PAGE_SIZE
  unfold PAGE_SIZE at present
  rw [present]
  dsimp only
  omega

def World.setCache (w : World) (u : Nat) (pages : List Page) : World :=
  { w with cache := Function.update w.cache u pages }

/- A page that is out of the pool is not handed out again; the rx cache of queue u
   gives its oldest page or, when that one is busy, none. -/
def execPage (u : Nat) : (op : PageOp) → op.Ans → World → Option World
  | .rxCacheGet, none, w => some w
  | .rxCacheGet, some (page, addr), w =>
    match w.cache u with
    | [] => none
    | head :: rest =>
      if head = page ∧ w.dmaAddr page = addr then some (w.setCache u rest) else none
  | .rxCachePut page, accepted, w =>
    some (if accepted = true then w.setCache u (w.cache u ++ [page]) else w)
  | .rxCacheEntries, pages, w => if pages = w.cache u then some (w.setCache u []) else none
  | .pagePoolDevAllocPages, none, w => some w
  | .pagePoolDevAllocPages, some page, w => if w.held page then none else some (w.hold page true)
  | .pagePoolRecycleDirect page, _, w => some (w.hold page false)
  | .pagePoolReleasePage _, _, w => some w
  | .putPage page, _, w => some (w.hold page false)
  | .pagePoolGetDmaAddr page, addr, w => if addr = w.dmaAddr page then some w else none
  | .pagePoolSetDmaAddr page addr, _, w => some (w.setDmaAddr page addr)
  | .xdpHandOver page, _, w => some (w.hold page false)
  | .xskBuffCanAlloc _, _, w => some w
  | .xskPageAllocPool, _, w => some w
  | .xskBuffFree _, _, w => some w

/- u is the user on whose behalf the call is made. -/
def execIommu (u : Nat) : (op : IommuOp) → op.Ans → World → Option World
  | .iommuDmaAllocIova size, base, w =>
    if base = (0 : Nat) then some w
    else if base % PAGE_SIZE = 0 ∧ base + size ≤ 2 ^ 64 ∧ 0 < size / PAGE_SIZE ∧
        w.Available ⟨base, size⟩ then
      some (w.allocate u ⟨base, size⟩)
    else none
  | .iommuDmaFreeIova iova size gather, _, w =>
    some (if gather.any (·.queued) then w.park ⟨iova, size⟩ else w.release ⟨iova, size⟩)
  | .__iommuMap iova paddr size, ret, w =>
    some (if ret = (0 : Int) then w.mapPages ⟨iova, size⟩ paddr else w)
  | .fqDomain, queued, w => if queued = w.fq then some w else none
  | .iommuUnmapFast iova size gather, out, w =>
    if out = (size, { gather with range := some (iova, size) }) then
      some (w.clear ⟨iova, size⟩)
    else none
  | .iommuIotlbSync gather, _, w =>
    some (match gather.range with
      | none => w
      | some (iova, size) => w.invalidate ⟨iova, size⟩)
  | .iommuIovaToPhys iova, phys, w => if phys = w.iovaToPhys iova then some w else none
  | _, _, w => some w

def exec (u : Nat) : (op : KernelOp) → op.Ans → World → Option World
  | .page op, ans, w => execPage u op ans w
  | .iommu op, ans, w => execIommu u op ans w

/- One law for each call: which answers it may get, and the state it leaves. -/

section
variable {u : Nat} {a b : World}

theorem some_state {c : World} : some c = some b ↔ b = c := by
  rw [Option.some.injEq, eq_comm]

theorem guarded_state {c : World} {p : Prop} [Decidable p] :
    (if p then some c else none) = some b ↔ p ∧ b = c := by
  by_cases fine : p
  · rw [if_pos fine, some_state, and_iff_right fine]
  · rw [if_neg fine]
    constructor
    · intro impossible
      cases impossible
    · rintro ⟨holds, _⟩
      exact absurd holds fine

@[simp] theorem exec_cache_miss : exec u (.page .rxCacheGet) none a = some b ↔ b = a := some_state

@[simp] theorem exec_cache_hit {page : Page} {addr : Nat} :
    exec u (.page .rxCacheGet) (some (page, addr)) a = some b ↔
      ∃ rest, a.cache u = page :: rest ∧ a.dmaAddr page = addr ∧ b = a.setCache u rest := by
  change (match a.cache u with
    | [] => none
    | head :: rest =>
      if head = page ∧ a.dmaAddr page = addr then some (a.setCache u rest) else none) = some b ↔ _
  cases a.cache u with
  | nil =>
    constructor
    · intro impossible
      cases impossible
    · rintro ⟨_, impossible, _⟩
      cases impossible
  | cons head rest =>
    refine guarded_state.trans ⟨?_, ?_⟩
    · rintro ⟨⟨rfl, stored⟩, rfl⟩
      exact ⟨rest, rfl, stored, rfl⟩
    · rintro ⟨_, same, stored, rfl⟩
      cases same
      exact ⟨⟨rfl, stored⟩, rfl⟩

@[simp] theorem exec_cache_put {page : Page} {accepted : Bool} :
    exec u (.page (.rxCachePut page)) accepted a = some b ↔
      b = if accepted then a.setCache u (a.cache u ++ [page]) else a := some_state

@[simp] theorem exec_cache_entries {pages : List Page} :
    exec u (.page .rxCacheEntries) pages a = some b ↔
      pages = a.cache u ∧ b = a.setCache u [] := guarded_state

@[simp] theorem exec_pool_empty :
    exec u (.page .pagePoolDevAllocPages) none a = some b ↔ b = a := some_state

@[simp] theorem exec_pool_page {page : Page} :
    exec u (.page .pagePoolDevAllocPages) (some page) a = some b ↔
      a.held page = false ∧ b = a.hold page true := by
  change (if a.held page then none else some (a.hold page true)) = some b ↔ _
  cases a.held page with
  | false => exact some_state.trans (and_iff_right rfl).symm
  | true =>
    constructor
    · intro impossible
      cases impossible
    · rintro ⟨impossible, _⟩
      cases impossible

@[simp] theorem exec_recycle {page : Page} {ans : Unit} :
    exec u (.page (.pagePoolRecycleDirect page)) ans a = some b ↔ b = a.hold page false := some_state

@[simp] theorem exec_release_page {page : Page} {ans : Unit} :
    exec u (.page (.pagePoolReleasePage page)) ans a = some b ↔ b = a := some_state

@[simp] theorem exec_put_page {page : Page} {ans : Unit} :
    exec u (.page (.putPage page)) ans a = some b ↔ b = a.hold page false := some_state

@[simp] theorem exec_get_addr {page : Page} {addr : Nat} :
    exec u (.page (.pagePoolGetDmaAddr page)) addr a = some b ↔ addr = a.dmaAddr page ∧ b = a := guarded_state

@[simp] theorem exec_set_addr {page : Page} {addr : Nat} {ans : Unit} :
    exec u (.page (.pagePoolSetDmaAddr page addr)) ans a = some b ↔
      b = a.setDmaAddr page addr := some_state

@[simp] theorem exec_hand_over {page : Page} {ans : Unit} :
    exec u (.page (.xdpHandOver page)) ans a = some b ↔ b = a.hold page false := some_state

@[simp] theorem exec_xsk_can {count : Nat} {ans : Bool} :
    exec u (.page (.xskBuffCanAlloc count)) ans a = some b ↔ b = a := some_state

@[simp] theorem exec_xsk_alloc {ans : Option (Nat × Nat)} :
    exec u (.page .xskPageAllocPool) ans a = some b ↔ b = a := some_state

@[simp] theorem exec_xsk_free {xsk : Nat} {ans : Unit} :
    exec u (.page (.xskBuffFree xsk)) ans a = some b ↔ b = a := some_state

@[simp] theorem exec_alloc_iova {size base : Nat} :
    exec u (.iommu (.iommuDmaAllocIova size)) base a = some b ↔
      (base = 0 ∧ b = a) ∨ (base ≠ 0 ∧ base % PAGE_SIZE = 0 ∧ base + size ≤ 2 ^ 64 ∧
        0 < size / PAGE_SIZE ∧ a.Available ⟨base, size⟩ ∧ b = a.allocate u ⟨base, size⟩) := by
  change (if base = 0 then some a
    else if base % PAGE_SIZE = 0 ∧ base + size ≤ 2 ^ 64 ∧ 0 < size / PAGE_SIZE ∧
        a.Available ⟨base, size⟩ then
      some (a.allocate u ⟨base, size⟩)
    else none) = some b ↔ _
  by_cases failed : base = 0
  · rw [if_pos failed, some_state]
    constructor
    · exact fun same => Or.inl ⟨failed, same⟩
    · rintro (⟨_, same⟩ | ⟨got, _⟩)
      · exact same
      · exact absurd failed got
  · rw [if_neg failed, guarded_state]
    constructor
    · rintro ⟨⟨aligned, bound, some_page, free⟩, same⟩
      exact Or.inr ⟨failed, aligned, bound, some_page, free, same⟩
    · rintro (⟨zero, _⟩ | ⟨_, aligned, bound, some_page, free, same⟩)
      · exact absurd zero failed
      · exact ⟨⟨aligned, bound, some_page, free⟩, same⟩

@[simp] theorem exec_free_iova {iova size : Nat} {gather : Option IotlbGather} {ans : Unit} :
    exec u (.iommu (.iommuDmaFreeIova iova size gather)) ans a = some b ↔
      b = if gather.any (·.queued) then a.park ⟨iova, size⟩ else a.release ⟨iova, size⟩ :=
  some_state

@[simp] theorem exec_map {iova paddr size : Nat} {ret : Int} :
    exec u (.iommu (.__iommuMap iova paddr size)) ret a = some b ↔
      b = if ret = 0 then a.mapPages ⟨iova, size⟩ paddr else a := some_state

@[simp] theorem exec_fq_domain {queued : Bool} :
    exec u (.iommu .fqDomain) queued a = some b ↔ queued = a.fq ∧ b = a := guarded_state

@[simp] theorem exec_unmap_fast {iova size : Nat} {gather : IotlbGather}
    {out : Nat × IotlbGather} :
    exec u (.iommu (.iommuUnmapFast iova size gather)) out a = some b ↔
      out = (size, { gather with range := some (iova, size) }) ∧ b = a.clear ⟨iova, size⟩ := guarded_state

@[simp] theorem exec_sync {gather : IotlbGather} {ans : Unit} :
    exec u (.iommu (.iommuIotlbSync gather)) ans a = some b ↔
      b = match gather.range with
        | none => a
        | some (iova, size) => a.invalidate ⟨iova, size⟩ := some_state

@[simp] theorem exec_iova_to_phys {iova phys : Nat} :
    exec u (.iommu (.iommuIovaToPhys iova)) phys a = some b ↔
      phys = a.iovaToPhys iova ∧ b = a := guarded_state

@[simp] theorem exec_deferred_attach {ans : Bool} :
    exec u (.iommu .iommuDeferredAttach) ans a = some b ↔ b = a := some_state

@[simp] theorem exec_sync_map {iova size : Nat} {ans : Unit} :
    exec u (.iommu (.iotlbSyncMap iova size)) ans a = some b ↔ b = a := some_state

@[simp] theorem exec_swiotlb_active {ans : Bool} :
    exec u (.iommu .isSwiotlbActive) ans a = some b ↔ b = a := some_state

@[simp] theorem exec_swiotlb_map {phys size allocSize : Nat} {ans : Nat} :
    exec u (.iommu (.swiotlbTblMapSingle phys size allocSize)) ans a = some b ↔ b = a := some_state

@[simp] theorem exec_swiotlb_buffer {phys : Nat} {ans : Bool} :
    exec u (.iommu (.isSwiotlbBuffer phys)) ans a = some b ↔ b = a := some_state

@[simp] theorem exec_swiotlb_unmap {phys size : Nat} {ans : Unit} :
    exec u (.iommu (.swiotlbTblUnmapSingle phys size)) ans a = some b ↔ b = a := some_state

@[simp] theorem exec_direct_map {phys size ans : Nat} :
    exec u (.iommu (.dmaDirectMapPage phys size)) ans a = some b ↔ b = a := some_state

@[simp] theorem exec_direct_unmap {addr size : Nat} {ans : Unit} :
    exec u (.iommu (.dmaDirectUnmapPage addr size)) ans a = some b ↔ b = a := some_state

@[simp] theorem exec_map_page {phys size ans : Nat} :
    exec u (.iommu (.mapPage phys size)) ans a = some b ↔ b = a := some_state

@[simp] theorem exec_unmap_page {addr size : Nat} {ans : Unit} :
    exec u (.iommu (.unmapPage addr size)) ans a = some b ↔ b = a := some_state

/-- b has the page table, the IOTLB and the allocator of a. -/
structure SameIommu (a b : World) : Prop where
  pt : b.pt = a.pt
  tlb : b.tlb = a.tlb
  owner : b.owner = a.owner
  live : b.live = a.live
  parked : b.parked = a.parked
  fq : b.fq = a.fq

theorem page_keeps_iommu {op : PageOp} {ans : op.Ans} (run : exec u (.page op) ans a = some b) :
    SameIommu a b := by
  cases op
  case rxCacheGet =>
    cases ans with
    | none =>
      cases exec_cache_miss.mp run
      exact ⟨rfl, rfl, rfl, rfl, rfl, rfl⟩
    | some got =>
      obtain ⟨rest, _, _, rfl⟩ := exec_cache_hit.mp run
      exact ⟨rfl, rfl, rfl, rfl, rfl, rfl⟩
  case rxCachePut =>
    rw [exec_cache_put.mp run]
    split <;> exact ⟨rfl, rfl, rfl, rfl, rfl, rfl⟩
  case rxCacheEntries =>
    obtain ⟨_, rfl⟩ := exec_cache_entries.mp run
    exact ⟨rfl, rfl, rfl, rfl, rfl, rfl⟩
  case pagePoolDevAllocPages =>
    cases ans with
    | none =>
      cases exec_pool_empty.mp run
      exact ⟨rfl, rfl, rfl, rfl, rfl, rfl⟩
    | some page =>
      obtain ⟨_, rfl⟩ := exec_pool_page.mp run
      exact ⟨rfl, rfl, rfl, rfl, rfl, rfl⟩
  case pagePoolGetDmaAddr =>
    obtain ⟨_, rfl⟩ := exec_get_addr.mp run
    exact ⟨rfl, rfl, rfl, rfl, rfl, rfl⟩
  all_goals
    cases some_state.mp run
    exact ⟨rfl, rfl, rfl, rfl, rfl, rfl⟩

theorem exec_keeps_fq {op : KernelOp} {ans : op.Ans} (run : exec u op ans a = some b) :
    b.fq = a.fq := by
  cases op with
  | page op => exact (page_keeps_iommu run).fq
  | iommu op =>
    cases op
    case iommuDmaAllocIova =>
      rcases exec_alloc_iova.mp run with ⟨_, rfl⟩ | ⟨_, _, _, _, _, rfl⟩ <;> rfl
    case iommuDmaFreeIova => rw [exec_free_iova.mp run]; split <;> rfl
    case __iommuMap => rw [exec_map.mp run]; split <;> rfl
    case fqDomain => rw [(exec_fq_domain.mp run).2]
    case iommuUnmapFast => rw [(exec_unmap_fast.mp run).2]; rfl
    case iommuIotlbSync => rw [exec_sync.mp run]; split <;> rfl
    case iommuIovaToPhys => rw [(exec_iova_to_phys.mp run).2]
    all_goals
      cases some_state.mp run
      rfl

end

/-- The range that a call gives back to the IOVA allocator. -/
def freedRange : KernelEvent → Option Range
  | ⟨.iommu (.iommuDmaFreeIova iova size _), _⟩ => some ⟨iova, size⟩
  | _ => none

/-- All ranges given back, in order. -/
def freed (trace : List KernelEvent) : List Range := trace.filterMap freedRange

/- A device access may cache any present translation. -/
inductive DeviceAccess : World → World → Prop where
  | cache {w : World} {x frame : Nat} (present : w.pt x = some frame) :
      DeviceAccess w { w with tlb := (x, frame) :: w.tlb }

/- A flush of the flush queue first invalidates the whole domain; the ranges that
   were parked by then become free afterwards, one by one. -/
inductive Flush : World → World → Prop where
  | invalidateAll {w : World} :
      Flush w { w with tlb := [], parked := w.parked.map fun e => (e.1, true) }
  | complete {w : World} {before after : List (Range × Bool)} {r : Range}
      (done : w.parked = before ++ (r, true) :: after) :
      Flush w { w with owner := fill w.owner r .free, parked := before ++ after }

/- What goes on by itself. -/
inductive Background : World → World → Prop where
  | access {a b : World} : DeviceAccess a b → Background a b
  | flush {a b : World} : Flush a b → Background a b

/- The page and the answers picked for a concrete run. -/
def samplePage : Page := ⟨7, by decide⟩

structure Choices where
  cacheGet : World → Option (Page × Nat)
  cacheTakes : Bool
  freshPage : World → Option Page
  iovaBase : World → Nat
  attachFails : World → Bool
  mapFails : World → Bool

def Choices.answer (c : Choices) : (op : KernelOp) → World → op.Ans
  | .page .rxCacheGet, w => c.cacheGet w
  | .page (.rxCachePut _), _ => c.cacheTakes
  | .page .rxCacheEntries, w => w.cache 0
  | .page .pagePoolDevAllocPages, w => c.freshPage w
  | .page (.pagePoolGetDmaAddr page), w => w.dmaAddr page
  | .page (.xskBuffCanAlloc _), _ => true
  | .page .xskPageAllocPool, _ => none
  | .page (.pagePoolRecycleDirect _), _ => ()
  | .page (.pagePoolReleasePage _), _ => ()
  | .page (.putPage _), _ => ()
  | .page (.pagePoolSetDmaAddr _ _), _ => ()
  | .page (.xdpHandOver _), _ => ()
  | .page (.xskBuffFree _), _ => ()
  | .iommu .iommuDeferredAttach, w => c.attachFails w
  | .iommu (.iommuDmaAllocIova _), w => c.iovaBase w
  | .iommu (.__iommuMap _ _ _), w => if c.mapFails w then (-12 : Int) else (0 : Int)
  | .iommu .fqDomain, w => w.fq
  | .iommu (.iommuUnmapFast iova size gather), _ => (size, { gather with range := some (iova, size) })
  | .iommu (.iommuIovaToPhys iova), w => w.iovaToPhys iova
  | .iommu .isSwiotlbActive, _ => false
  | .iommu (.swiotlbTblMapSingle _ _ _), _ => DMA_MAPPING_ERROR
  | .iommu (.isSwiotlbBuffer _), _ => false
  | .iommu (.dmaDirectMapPage _ _), _ => DMA_MAPPING_ERROR
  | .iommu (.mapPage _ _), _ => DMA_MAPPING_ERROR
  | .iommu (.iommuDmaFreeIova _ _ _), _ => ()
  | .iommu (.iotlbSyncMap _ _), _ => ()
  | .iommu (.iommuIotlbSync _), _ => ()
  | .iommu (.swiotlbTblUnmapSingle _ _), _ => ()
  | .iommu (.dmaDirectUnmapPage _ _), _ => ()
  | .iommu (.unmapPage _ _), _ => ()

/-- The pool has a single page and the rx cache takes nothing back. -/
def shortOfPages : Choices where
  cacheGet _ := none
  cacheTakes := false
  freshPage w := if w.held samplePage then none else some samplePage
  iovaBase _ := 0x100000
  attachFails _ := false
  mapFails _ := false

/-- The largest n below low + 2^bits such that frames up to n are out of the pool,
    when the pool hands out frames in order. -/
def lastHeld (held : Page → Bool) : Nat → Nat → Nat
  | 0, low => low
  | bits + 1, low =>
    if held ⟨low + 2 ^ bits, Nat.add_pos_right low (Nat.two_pow_pos bits)⟩ then
      lastHeld held bits (low + 2 ^ bits)
    else lastHeld held bits low

/-- The pool always has a page, and batches follow one another in IOVA space. -/
def plentiful : Choices where
  cacheGet _ := none
  cacheTakes := false
  freshPage w := some ⟨lastHeld w.held 7 0 + 1, Nat.succ_pos _⟩
  iovaBase w := 0x100000 + w.live.length * 0x100000
  attachFails _ := false
  mapFails _ := false

end IommuWorld
