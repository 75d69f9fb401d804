import FastSafeIO.IovaOwnership
import FastSafeIO.LocalViews

/- What one user of a shared domain sees of it: the pages it took from the pool with the
   addresses stored in them, its ranges, what is mapped in them, and its page cache. As
   long as every user stays with its own, a call changes what the others see by nothing. -/
namespace UserViews
open CallTree KernelCalls IommuWorld IovaOwnership AgentPool LocalViews

@[ext] structure UserView where
  page : Page → Option Nat
  range : Range → Prop
  pt : Nat → Option Nat
  cache : List Page

/- Who took each page from the pool. The kernel does not store it. -/
abbrev Holders : Type := Page → Option Nat

def noteHolder (u : Nat) : (op : KernelOp) → op.Ans → Holders → Holders
  | .page .pagePoolDevAllocPages, some page, h => Function.update h page (some u)
  | .page (.pagePoolRecycleDirect page), _, h => Function.update h page none
  | .page (.putPage page), _, h => Function.update h page none
  | .page (.xdpHandOver page), _, h => Function.update h page none
  | _, _, h => h

def seen (u : Nat) (w : World × Holders) : UserView where
  page p := if w.2 p = some u then some (w.1.dmaAddr p) else none
  range r := Owns u r w.1
  pt x := if w.1.owner x = .user u then w.1.pt x else none
  cache := w.1.cache u

def UserView.setPage (v : UserView) (page : Page) (addr : Option Nat) : UserView :=
  { v with page := Function.update v.page page addr }

def UserView.mapPages (v : UserView) (r : Range) (paddr : Nat) : UserView :=
  { v with pt := fun x =>
      if r.Has x then some (paddr / PAGE_SIZE + (x - r.base / PAGE_SIZE)) else v.pt x }

def UserView.Inside (v : UserView) (s : Range) : Prop := ∃ r, v.range r ∧ ∀ x, s.Has x → r.Has x

/- A page of the pool comes with the address 0. -/
def PageStep : (op : PageOp) → op.Ans → UserView → UserView → Prop
  | .rxCacheGet, none, v, b => b = v
  | .rxCacheGet, some (page, addr), v, b =>
    ∃ rest, v.cache = page :: rest ∧ (∀ stored, v.page page = some stored → addr = stored) ∧
      b = { v with cache := rest }
  | .rxCachePut page, accepted, v, b =>
    b = if accepted = true then { v with cache := v.cache ++ [page] } else v
  | .rxCacheEntries, pages, v, b => pages = v.cache ∧ b = { v with cache := [] }
  | .pagePoolDevAllocPages, none, v, b => b = v
  | .pagePoolDevAllocPages, some page, v, b => v.page page = none ∧ b = v.setPage page (some 0)
  | .pagePoolRecycleDirect page, _, v, b => b = v.setPage page none
  | .putPage page, _, v, b => b = v.setPage page none
  | .xdpHandOver page, _, v, b => b = v.setPage page none
  | .pagePoolGetDmaAddr page, addr, v, b => v.page page = some addr ∧ b = v
  | .pagePoolSetDmaAddr page addr, _, v, b => b = v.setPage page (some addr)
  | _, _, v, b => b = v

/- A new range is apart from the ranges one has, and nothing is mapped in it. -/
def IommuStep : (op : IommuOp) → op.Ans → UserView → UserView → Prop
  | .iommuDmaAllocIova size, base, v, b =>
    (base = (0 : Nat) ∧ b = v) ∨
      (base ≠ (0 : Nat) ∧ base % PAGE_SIZE = 0 ∧ base + size ≤ 2 ^ 64 ∧ 0 < size / PAGE_SIZE ∧
        (∀ r, v.range r → (⟨base, size⟩ : Range).Disjoint r) ∧
        (∀ x, (⟨base, size⟩ : Range).Has x → v.pt x = none) ∧
        b = { v with range := fun r => r = ⟨base, size⟩ ∨ v.range r })
  | .iommuDmaFreeIova iova size _, _, v, b =>
    b = { v with range := fun r => v.range r ∧ r ≠ ⟨iova, size⟩ }
  | .__iommuMap iova paddr size, ret, v, b =>
    b = if ret = (0 : Int) then v.mapPages ⟨iova, size⟩ paddr else v
  | .iommuUnmapFast iova size gather, out, v, b =>
    out = (size, { gather with range := some (iova, size) }) ∧
      b = { v with pt := fill v.pt ⟨iova, size⟩ none }
  | .iommuIovaToPhys iova, phys, v, b =>
    (∀ frame, v.pt (iova / PAGE_SIZE) = some frame →
      phys = frame * PAGE_SIZE + iova % PAGE_SIZE) ∧ b = v
  | _, _, v, b => b = v

def UserStep : (op : KernelOp) → op.Ans → UserView → UserView → Prop
  | .page op, r, v, b => PageStep op r v b
  | .iommu op, r, v, b => IommuStep op r v b

/- Pages are one's own and go back with their address cleared; ranges are one's own, are
   mapped where nothing is mapped, and go back empty. -/
def Fair : KernelOp → UserView → Prop
  | .page (.pagePoolGetDmaAddr page), v => v.page page ≠ none
  | .page (.pagePoolSetDmaAddr page _), v => v.page page ≠ none
  | .page (.pagePoolRecycleDirect page), v => v.page page = some 0
  | .page (.pagePoolReleasePage page), v => v.page page = some 0
  | .page (.putPage page), v => v.page page = some 0
  | .page (.xdpHandOver page), v => v.page page = some 0
  | .iommu (.iommuDmaFreeIova iova size _), v =>
    v.range ⟨iova, size⟩ ∧ ∀ x, (⟨iova, size⟩ : Range).Has x → v.pt x = none
  | .iommu (.__iommuMap iova _ size), v =>
    v.Inside ⟨iova, size⟩ ∧ ∀ x, (⟨iova, size⟩ : Range).Has x → v.pt x = none
  | .iommu (.iommuUnmapFast iova size _), v => v.Inside ⟨iova, size⟩
  | _, _ => True

structure Settled (w : World × Holders) : Prop where
  owned : Owned w.1
  held : ∀ p, w.1.held p = (w.2 p).isSome
  cleared : ∀ p, w.2 p = none → w.1.dmaAddr p = 0

section
variable {u v : Nat} {w b : World × Holders}

theorem seen_page {p : Page} {addr : Nat} : (seen u w).page p = some addr ↔
    w.2 p = some u ∧ w.1.dmaAddr p = addr := by
  simp only [seen]
  split
  · rename_i mine
    simp [mine]
  · rename_i other
    simp [other]

theorem seen_not_page {p : Page} : (seen u w).page p ≠ none ↔ w.2 p = some u := by
  simp [seen]

theorem seen_pt (settled : Settled w) {r : Range} (mine : (seen u w).range r) {x : Nat}
    (inside : r.Has x) : (seen u w).pt x = w.1.pt x :=
  if_pos (settled.owned.owner _ mine x inside)

theorem seen_entry {x frame : Nat} (present : (seen u w).pt x = some frame) :
    w.1.pt x = some frame := by
  simp only [seen] at present
  split at present
  · exact present
  · cases present

theorem fair_entitled (settled : Settled w) {op : IommuOp} (fair : Fair (.iommu op) (seen u w)) :
    Entitled u (.iommu op) w.1 := by
  cases op
  case iommuDmaFreeIova iova size gather =>
    exact ⟨fair.1, fun x inside => (seen_pt settled fair.1 inside).symm.trans (fair.2 x inside)⟩
  case __iommuMap => exact fair.1
  case iommuUnmapFast => exact fair
  all_goals trivial

end

section
variable {u : Nat} {a : World} {h : Holders} {page : Page}

theorem settled_same {b : World} (settled : Settled (a, h)) (same : SameIommu a b)
    (held : b.held = a.held) (dma : b.dmaAddr = a.dmaAddr) : Settled (b, h) := by
  refine ⟨owned_same settled.owned same.pt same.owner same.live same.parked, ?_, ?_⟩
  · rw [held]
    exact settled.held
  · rw [dma]
    exact settled.cleared

/- What a page of one's own shows, and that it shows nothing to the others. -/

theorem set_addr_kept (settled : Settled (a, h)) (mine : h page = some u) (addr : Nat) :
    Settled (a.setDmaAddr page addr, h) ∧
      seen u (a.setDmaAddr page addr, h) = (seen u (a, h)).setPage page (some addr) ∧
      ∀ v, v ≠ u → seen v (a.setDmaAddr page addr, h) = seen v (a, h) := by
  have owned : Owned (a.setDmaAddr page addr) := owned_same settled.owned rfl rfl rfl rfl
  refine ⟨⟨owned, settled.held, fun p free => ?_⟩, ?_, fun v other => ?_⟩
  · have distinct : p ≠ page := fun same => by simp [same, mine] at free
    simpa [World.setDmaAddr, Function.update_of_ne distinct] using settled.cleared p free
  · refine UserView.ext (funext fun p => ?_) rfl rfl rfl
    by_cases same : p = page
    · subst same
      simp [seen, World.setDmaAddr, UserView.setPage, mine]
    · simp [seen, World.setDmaAddr, UserView.setPage, Function.update_of_ne same]
  · refine UserView.ext (funext fun p => ?_) rfl rfl rfl
    by_cases same : p = page
    · subst same
      simp [seen, mine, Ne.symm other]
    · simp [seen, World.setDmaAddr, Function.update_of_ne same]

/- A page changes hands: it was at the old holder with the address 0, if anywhere. -/
theorem hold_kept (settled : Settled (a, h)) (cleared : a.dmaAddr page = 0) (out : Option Nat) :
    Settled (a.hold page out.isSome, Function.update h page out) := by
  have owned : Owned (a.hold page out.isSome) := owned_same settled.owned rfl rfl rfl rfl
  refine ⟨owned, fun p => ?_, fun p free => ?_⟩
  · by_cases same : p = page
    · subst same
      simp [World.hold]
    · simpa [World.hold, Function.update_of_ne same] using settled.held p
  · by_cases same : p = page
    · subst same
      exact cleared
    · exact settled.cleared p (by simpa [Function.update_of_ne same] using free)

theorem hold_seen {v : Nat} {out : Option Nat} (before : h page ≠ some v) (after : out ≠ some v)
    (held : Bool) : seen v (a.hold page held, Function.update h page out) = seen v (a, h) := by
  refine UserView.ext (funext fun p => ?_) rfl rfl rfl
  by_cases same : p = page
  · subst same
    simp [seen, before, after]
  · simp [seen, World.hold, Function.update_of_ne same]

theorem take_page_kept (settled : Settled (a, h)) (free : h page = none) :
    Settled (a.hold page true, Function.update h page (some u)) ∧
      seen u (a.hold page true, Function.update h page (some u)) =
        (seen u (a, h)).setPage page (some 0) ∧
      ∀ v, v ≠ u → seen v (a.hold page true, Function.update h page (some u)) = seen v (a, h) := by
  have cleared : a.dmaAddr page = 0 := settled.cleared page free
  refine ⟨hold_kept settled cleared (some u), ?_, fun v other => ?_⟩
  · refine UserView.ext (funext fun p => ?_) rfl rfl rfl
    by_cases same : p = page
    · subst same
      simp [seen, World.hold, UserView.setPage, cleared]
    · simp [seen, World.hold, UserView.setPage, Function.update_of_ne same]
  · exact hold_seen (by simp [free]) (by simp [Ne.symm other]) true

theorem give_page_kept (settled : Settled (a, h)) (fair : (seen u (a, h)).page page = some 0) :
    Settled (a.hold page false, Function.update h page none) ∧
      seen u (a.hold page false, Function.update h page none) = (seen u (a, h)).setPage page none ∧
      ∀ v, v ≠ u → seen v (a.hold page false, Function.update h page none) = seen v (a, h) := by
  obtain ⟨mine, cleared⟩ := seen_page.mp fair
  dsimp only at mine cleared
  refine ⟨hold_kept settled cleared none, ?_, fun v other => ?_⟩
  · refine UserView.ext (funext fun p => ?_) rfl rfl rfl
    by_cases same : p = page
    · subst same
      simp [seen, UserView.setPage]
    · simp [seen, World.hold, UserView.setPage, Function.update_of_ne same]
  · exact hold_seen (by simp [mine, Ne.symm other]) (by simp) false

theorem set_cache_seen (pages : List Page) :
    seen u (a.setCache u pages, h) = { seen u (a, h) with cache := pages } ∧
      ∀ v, v ≠ u → seen v (a.setCache u pages, h) = seen v (a, h) := by
  constructor
  · exact UserView.ext rfl rfl rfl (Function.update_self ..)
  · intro v other
    exact UserView.ext rfl rfl rfl (Function.update_of_ne other _ _)

end

theorem page_call_kept {u : Nat} {op : PageOp} {r : op.Ans} {a b : World} {h : Holders}
    (settled : Settled (a, h)) (fair : Fair (.page op) (seen u (a, h)))
    (run : exec u (.page op) r a = some b) :
    Settled (b, noteHolder u (.page op) r h) ∧
      PageStep op r (seen u (a, h)) (seen u (b, noteHolder u (.page op) r h)) ∧
      ∀ v, v ≠ u → seen v (b, noteHolder u (.page op) r h) = seen v (a, h) := by
  have cached : ∀ pages, Settled (a.setCache u pages, h) := fun pages =>
    settled_same settled ⟨rfl, rfl, rfl, rfl, rfl, rfl⟩ rfl rfl
  cases op
  case rxCacheGet =>
    cases r with
    | none =>
      rw [exec_cache_miss.mp run]
      exact ⟨settled, rfl, fun _ _ => rfl⟩
    | some got =>
      obtain ⟨page, addr⟩ := got
      obtain ⟨rest, front, stored, rfl⟩ := exec_cache_hit.mp run
      obtain ⟨mine, others⟩ := set_cache_seen (u := u) (a := a) (h := h) rest
      refine ⟨cached rest, ⟨rest, front, fun kept held => ?_, mine⟩, others⟩
      exact stored.symm.trans (seen_page.mp held).2
  case rxCachePut page =>
    have stored := exec_cache_put.mp run
    cases r with
    | false =>
      subst stored
      exact ⟨settled, rfl, fun _ _ => rfl⟩
    | true =>
      subst stored
      obtain ⟨mine, others⟩ := set_cache_seen (u := u) (a := a) (h := h) (a.cache u ++ [page])
      exact ⟨cached _, mine, others⟩
  case rxCacheEntries =>
    obtain ⟨all, rfl⟩ := exec_cache_entries.mp run
    obtain ⟨mine, others⟩ := set_cache_seen (u := u) (a := a) (h := h) []
    exact ⟨cached [], ⟨all, mine⟩, others⟩
  case pagePoolDevAllocPages =>
    cases r with
    | none =>
      rw [exec_pool_empty.mp run]
      exact ⟨settled, rfl, fun _ _ => rfl⟩
    | some page =>
      obtain ⟨idle, rfl⟩ := exec_pool_page.mp run
      have free : h page = none := by
        have held := settled.held page
        dsimp only at held
        rw [idle] at held
        simpa using held.symm
      obtain ⟨kept, mine, others⟩ := take_page_kept (u := u) settled free
      refine ⟨kept, ⟨?_, mine⟩, others⟩
      simp [seen, free]
  case pagePoolRecycleDirect page =>
    rw [exec_recycle.mp run]
    exact give_page_kept settled fair
  case putPage page =>
    rw [exec_put_page.mp run]
    exact give_page_kept settled fair
  case xdpHandOver page =>
    rw [exec_hand_over.mp run]
    exact give_page_kept settled fair
  case pagePoolGetDmaAddr page =>
    obtain ⟨stored, rfl⟩ := exec_get_addr.mp run
    refine ⟨settled, ⟨?_, rfl⟩, fun _ _ => rfl⟩
    exact seen_page.mpr ⟨seen_not_page.mp fair, stored.symm⟩
  case pagePoolSetDmaAddr page addr =>
    rw [exec_set_addr.mp run]
    exact set_addr_kept settled (seen_not_page.mp fair) addr
  all_goals
    cases some_state.mp run
    exact ⟨settled, rfl, fun _ _ => rfl⟩

section
variable {u : Nat} {a : World} {h : Holders} {r : Range}

theorem settled_owned {b : World} (settled : Settled (a, h)) (owned : Owned b)
    (held : b.held = a.held) (dma : b.dmaAddr = a.dmaAddr) : Settled (b, h) := by
  refine ⟨owned, ?_, ?_⟩
  · rw [held]
    exact settled.held
  · rw [dma]
    exact settled.cleared

theorem users_differ {v : Nat} (other : v ≠ u) : Owner.user u ≠ .user v :=
  fun same => other (Owner.user.inj same).symm

theorem allocate_seen (settled : Settled (a, h)) (available : a.Available r) :
    seen u (a.allocate u r, h) = { seen u (a, h) with range := fun s => s = r ∨ (seen u (a, h)).range s } ∧
      ∀ v, v ≠ u → seen v (a.allocate u r, h) = seen v (a, h) := by
  have empty : ∀ x, r.Has x → a.pt x = none := available_empty settled.owned available
  constructor
  · refine UserView.ext rfl (funext fun s => ?_) (funext fun x => ?_) rfl
    · simp [seen, Owns, World.allocate]
    · by_cases inside : r.Has x
      · simp [seen, World.allocate, fill, inside, empty x inside]
      · simp [seen, World.allocate, fill, inside]
  · intro v other
    refine UserView.ext rfl (funext fun s => ?_) (funext fun x => ?_) rfl
    · simp [seen, Owns, World.allocate, other]
    · by_cases inside : r.Has x
      · simp [seen, World.allocate, fill, inside, available_free available inside, users_differ other]
      · simp [seen, World.allocate, fill, inside]

theorem removed_seen {b : World} (settled : Settled (a, h)) (mine : (seen u (a, h)).range r)
    (empty : ∀ x, r.Has x → (seen u (a, h)).pt x = none) {next : Owner} (nobody : ∀ v, next ≠ .user v)
    (owner : b.owner = fill a.owner r next) (live : b.live = a.live.filter fun e => e.2 ≠ r)
    (pt : b.pt = a.pt) (dma : b.dmaAddr = a.dmaAddr) (cache : b.cache = a.cache) :
    seen u (b, h) = { seen u (a, h) with range := fun s => (seen u (a, h)).range s ∧ s ≠ r } ∧
      ∀ v, v ≠ u → seen v (b, h) = seen v (a, h) := by
  constructor
  · refine UserView.ext ?_ (funext fun s => ?_) (funext fun x => ?_) ?_
    · simp [seen, dma]
    · simp [seen, Owns, live]
    · by_cases inside : r.Has x
      · rw [empty x inside]
        simp [seen, owner, fill, inside, nobody]
      · simp [seen, owner, fill, inside, pt]
    · simp [seen, cache]
  · intro v other
    refine UserView.ext ?_ (funext fun s => ?_) (funext fun x => ?_) ?_
    · simp [seen, dma]
    · simp only [seen, Owns, live, List.mem_filter, decide_eq_true_eq, eq_iff_iff, and_iff_left_iff_imp]
      intro theirs same
      exact other (congrArg Prod.fst (live_owner_unique settled.owned theirs mine same))
    · by_cases inside : r.Has x
      · have user : a.owner x = .user u := settled.owned.owner _ mine x inside
        simp [seen, owner, fill, inside, nobody, user, users_differ other]
      · simp [seen, owner, fill, inside, pt]
    · simp [seen, cache]

/- A change of the page table inside a range of one's own. -/
theorem table_seen {entry : Nat → Option Nat} {s : Range} (settled : Settled (a, h))
    (inside : (seen u (a, h)).Inside s) (outside : ∀ x, ¬ s.Has x → entry x = a.pt x) :
    seen u ({ a with pt := entry }, h) =
        { seen u (a, h) with pt := fun x => if s.Has x then entry x else (seen u (a, h)).pt x } ∧
      ∀ v, v ≠ u → seen v ({ a with pt := entry }, h) = seen v (a, h) := by
  obtain ⟨whole, mine, within⟩ := inside
  have user : ∀ x, s.Has x → a.owner x = .user u :=
    fun x member => settled.owned.owner _ mine x (within x member)
  constructor
  · refine UserView.ext rfl rfl (funext fun x => ?_) rfl
    by_cases member : s.Has x
    · simp [seen, member, user x member]
    · simp [seen, member, outside x member]
  · intro v other
    refine UserView.ext rfl rfl (funext fun x => ?_) rfl
    by_cases member : s.Has x
    · simp [seen, user x member, users_differ other]
    · simp [seen, outside x member]

end

theorem iommu_call_kept {u : Nat} {op : IommuOp} {r : op.Ans} {a b : World} {h : Holders}
    (settled : Settled (a, h)) (fair : Fair (.iommu op) (seen u (a, h)))
    (run : exec u (.iommu op) r a = some b) :
    Settled (b, h) ∧ IommuStep op r (seen u (a, h)) (seen u (b, h)) ∧
      ∀ v, v ≠ u → seen v (b, h) = seen v (a, h) := by
  have owned : Owned b := (entitled_call settled.owned (fair_entitled settled fair) run).1
  cases op
  case iommuDmaAllocIova size =>
    rcases exec_alloc_iova.mp run with ⟨none, rfl⟩ | ⟨got, aligned, fits, nonempty, available, rfl⟩
    · exact ⟨settled, Or.inl ⟨none, rfl⟩, fun _ _ => rfl⟩
    · obtain ⟨mine, others⟩ := allocate_seen (u := u) settled available
      refine ⟨settled_owned settled owned rfl rfl, Or.inr ⟨got, aligned, fits, nonempty, ?_, ?_, mine⟩,
        others⟩
      · exact fun s had => available_disjoint settled.owned available had
      · intro x inside
        simp [seen, available_free available inside]
  case iommuDmaFreeIova iova size gather =>
    obtain ⟨mine, empty⟩ := fair
    have freed := exec_free_iova.mp run
    split at freed
    · subst freed
      obtain ⟨shown, others⟩ := removed_seen (b := a.park ⟨iova, size⟩) settled mine empty
        (fun v => show Owner.parked ≠ .user v by simp) rfl rfl rfl rfl rfl
      exact ⟨settled_owned settled owned rfl rfl, shown, others⟩
    · subst freed
      obtain ⟨shown, others⟩ := removed_seen (b := a.release ⟨iova, size⟩) settled mine empty
        (fun v => show Owner.free ≠ .user v by simp) rfl rfl rfl rfl rfl
      exact ⟨settled_owned settled owned rfl rfl, shown, others⟩
  case __iommuMap iova paddr size =>
    have written := exec_map.mp run
    by_cases good : r = (0 : Int)
    · rw [if_pos good] at written
      subst written
      obtain ⟨shown, others⟩ := table_seen (u := u) (s := ⟨iova, size⟩)
        settled fair.1 fun x outside => show (a.mapPages ⟨iova, size⟩ paddr).pt x = a.pt x from
          if_neg outside
      refine ⟨settled_owned settled owned rfl rfl, ?_, others⟩
      simp only [IommuStep, if_pos good]
      refine shown.trans (UserView.ext rfl rfl (funext fun x => ?_) rfl)
      by_cases inside : (⟨iova, size⟩ : Range).Has x
      · simp [World.mapPages, UserView.mapPages, inside]
      · simp [UserView.mapPages, inside]
    · rw [if_neg good] at written
      subst written
      refine ⟨settled, ?_, fun _ _ => rfl⟩
      simp only [IommuStep, if_neg good]
  case iommuUnmapFast iova size gather =>
    obtain ⟨out, rfl⟩ := exec_unmap_fast.mp run
    obtain ⟨shown, others⟩ := table_seen (u := u) (s := ⟨iova, size⟩)
      settled fair fun x outside => show (a.clear ⟨iova, size⟩).pt x = a.pt x from if_neg outside
    refine ⟨settled_owned settled owned rfl rfl, ⟨out, ?_⟩, others⟩
    refine shown.trans (UserView.ext rfl rfl (funext fun x => ?_) rfl)
    by_cases inside : (⟨iova, size⟩ : Range).Has x
    · simp [World.clear, fill, inside]
    · simp [fill, inside]
  case iommuIotlbSync gather =>
    have synced := exec_sync.mp run
    have same : ∀ v, seen v (b, h) = seen v (a, h) := by
      intro v
      split at synced <;> subst synced <;> rfl
    refine ⟨settled_owned settled owned ?_ ?_, same u, fun v _ => same v⟩
    · split at synced <;> subst synced <;> rfl
    · split at synced <;> subst synced <;> rfl
  case iommuIovaToPhys iova =>
    obtain ⟨phys, rfl⟩ := exec_iova_to_phys.mp run
    refine ⟨settled, ⟨fun frame present => ?_, rfl⟩, fun _ _ => rfl⟩
    rw [phys, World.iovaToPhys, seen_entry present]
  case fqDomain =>
    obtain ⟨_, rfl⟩ := exec_fq_domain.mp run
    exact ⟨settled, rfl, fun _ _ => rfl⟩
  all_goals
    cases some_state.mp run
    exact ⟨settled, rfl, fun _ _ => rfl⟩

/- Device accesses and flushes show nothing to any user. -/
theorem background_settled {a b : World} {h : Holders} (moved : Background a b)
    (settled : Settled (a, h)) :
    Settled (b, h) ∧ ∀ u, seen u (b, h) = seen u (a, h) := by
  have owned := (background_kept a b moved settled.owned).1
  cases moved with
  | access access =>
    cases access
    exact ⟨settled_owned settled owned rfl rfl, fun _ => rfl⟩
  | flush flush =>
    cases flush with
    | invalidateAll => exact ⟨settled_owned settled owned rfl rfl, fun _ => rfl⟩
    | @complete before after r done =>
      refine ⟨settled_owned settled owned rfl rfl, fun u => ?_⟩
      refine UserView.ext rfl rfl (funext fun x => ?_) rfl
      by_cases inside : r.Has x
      · have parked : a.owner x = .parked :=
          settled.owned.parkedOwner (r, true) (by simp [done]) x inside
        simp [seen, fill, inside, parked]
      · simp [seen, fill, inside]

/-- The users of a domain, whatever their jobs are. -/
def userViews {Mem Job : Type} (P : Pool Nat KernelOp KernelOp.Ans World Mem Job)
    (calls : P.exec = exec) (drifts : P.drift = Background) :
    Views (noting P noteHolder) UserView where
  inv := Settled
  see := seen
  step := UserStep
  ok := Fair
  drift_kept := by
    rintro ⟨a, h⟩ ⟨b, k⟩ ⟨moved, same⟩ settled
    subst same
    rw [drifts] at moved
    exact background_settled moved settled
  call_kept := by
    rintro u op r ⟨a, h⟩ ⟨b, k⟩ settled fair run
    simp only [noting, calls, Option.map_eq_some_iff, Prod.mk.injEq] at run
    obtain ⟨_, run, rfl, rfl⟩ := run
    cases op with
    | page op => exact page_call_kept settled fair run
    | iommu op => exact iommu_call_kept settled fair run

/- Nothing is seen of a domain that has done nothing yet. -/
def nothingSeen : UserView := ⟨fun _ => none, fun _ => False, fun _ => none, []⟩

theorem start_settled (fq : Bool) : Settled (startWorld fq, fun _ => none) where
  owned := by
    refine ⟨List.Pairwise.nil, fun e live => ?_, fun e live => ?_, List.Pairwise.nil,
      fun e waiting => ?_, fun x f present => ?_⟩
    · simp [startWorld] at live
    · simp [startWorld] at live
    · simp [startWorld] at waiting
    · simp [startWorld] at present
  held _ := rfl
  cleared _ _ := rfl

theorem start_seen (fq : Bool) (u : Nat) : seen u (startWorld fq, fun _ => none) = nothingSeen :=
  UserView.ext rfl (funext fun r => by simp [seen, Owns, startWorld, nothingSeen]) rfl rfl

end UserViews
