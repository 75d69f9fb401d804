import FastSafeIO.Custody
import FastSafeIO.OldRxDriver
import FastSafeIO.UserMapping

/- The old driver's page functions as one queue sees them: every page it has taken is
   mapped at the address stored in it, and it has no other range and no other mapping. -/
namespace PageAccounts
open CallTree KernelCalls DmaLayer IommuWorld LocalViews UserViews UserMapping Custody OldRxDriver
open RxDriver (Rq Buffer pageCall dmaCall ENOMEM)

structure Exact (v : UserView) : Prop where
  page : ∀ p a, v.page p = some a → a % PAGE_SIZE = 0 ∧ a ≠ 0 ∧ v.range ⟨a, PAGE_SIZE⟩ ∧
    v.pt (a / PAGE_SIZE) = some p.pfn
  range : ∀ r, v.range r → ∃ p a, v.page p = some a ∧ r = ⟨a, PAGE_SIZE⟩
  pt : ∀ x f, v.pt x = some f → ∃ p : Page, p.pfn = f ∧ v.page p = some (x * PAGE_SIZE)

theorem exact_cache {v : UserView} (exact : Exact v) (cache : List Page) :
    Exact { v with cache := cache } := ⟨exact.page, exact.range, exact.pt⟩

theorem whole_page_has {a x : Nat} : (⟨a, PAGE_SIZE⟩ : Range).Has x ↔ x = a / PAGE_SIZE := by
  simp only [Range.Has, PAGE_SIZE]
  omega

section
variable {v : UserView} {p : Page} {a : Nat}

theorem exact_with_page (exact : Exact v) (new : New (v.setPage p (some 0)) ⟨a, PAGE_SIZE⟩)
    (free : v.page p = none) :
    Exact ((withRange (v.setPage p (some 0)) ⟨a, PAGE_SIZE⟩ (pageToPhys p)).setPage p (some a)) := by
  have here : ∀ x, (⟨a, PAGE_SIZE⟩ : Range).Has x ↔ x = a / PAGE_SIZE := fun _ => whole_page_has
  have frame : pageToPhys p / PAGE_SIZE = p.pfn := by
    simp [pageToPhys, PAGE_SIZE]
  have page : ∀ q b, Function.update (Function.update v.page p (some 0)) p (some a) q = some b →
      (q = p ∧ b = a) ∨ (q ≠ p ∧ v.page q = some b) := by
    intro q b stored
    rw [Function.update_idem] at stored
    by_cases same : q = p
    · subst same
      exact Or.inl ⟨rfl, by simpa using stored.symm⟩
    · exact Or.inr ⟨same, by simpa [Function.update_of_ne same] using stored⟩
  constructor
  · intro q b stored
    rcases page q b stored with ⟨rfl, rfl⟩ | ⟨_, stored⟩
    · refine ⟨new.aligned, new.positive, Or.inl rfl, ?_⟩
      simp [UserView.setPage, withRange, UserView.mapPages, here, frame]
    · obtain ⟨alignedB, positive, mine, mapped⟩ := exact.page q b stored
      refine ⟨alignedB, positive, Or.inr mine, ?_⟩
      have apart : b / PAGE_SIZE ≠ a / PAGE_SIZE := fun same =>
        new.apart _ mine (a / PAGE_SIZE) ((here _).mpr rfl)
          (whole_page_has.mpr same.symm)
      simp only [UserView.setPage, withRange, UserView.mapPages, here, apart, ↓reduceIte]
      exact mapped
  · rintro r (rfl | had)
    · exact ⟨p, a, by simp [UserView.setPage], rfl⟩
    · obtain ⟨q, b, stored, rfl⟩ := exact.range r had
      have other : q ≠ p := fun same => by simp [same, free] at stored
      refine ⟨q, b, ?_, rfl⟩
      simpa [UserView.setPage, withRange, UserView.mapPages, Function.update_of_ne other] using stored
  · intro x f present
    simp only [UserView.setPage, withRange, UserView.mapPages, here] at present
    split at present
    · rename_i place
      subst place
      refine ⟨p, by simpa [frame] using present, ?_⟩
      have aligned := new.aligned
      simp only [UserView.setPage, Function.update_self, Option.some.injEq, PAGE_SIZE] at aligned ⊢
      omega
    · obtain ⟨q, same, stored⟩ := exact.pt x f present
      have other : q ≠ p := fun same => by simp [same, free] at stored
      refine ⟨q, same, ?_⟩
      simpa [UserView.setPage, withRange, UserView.mapPages, Function.update_of_ne other] using stored

theorem exact_without_page (exact : Exact v) (mine : v.page p = some a) :
    Exact ((withoutRange v ⟨a, PAGE_SIZE⟩).setPage p none) := by
  obtain ⟨_, _, _, mapped⟩ := exact.page p a mine
  have here : ∀ x, (⟨a, PAGE_SIZE⟩ : Range).Has x ↔ x = a / PAGE_SIZE := fun _ => whole_page_has
  have page : ∀ q b, Function.update v.page p none q = some b → q ≠ p ∧ v.page q = some b := by
    intro q b stored
    have other : q ≠ p := fun same => by simp [same] at stored
    exact ⟨other, by simpa [Function.update_of_ne other] using stored⟩
  constructor
  · intro q b stored
    obtain ⟨other, stored⟩ := page q b stored
    obtain ⟨alignedB, positive, had, entry⟩ := exact.page q b stored
    have apart : b / PAGE_SIZE ≠ a / PAGE_SIZE := by
      intro same
      rw [same, mapped] at entry
      exact other (pfn_injective (Option.some.inj entry).symm)
    refine ⟨alignedB, positive, ⟨had, fun same => apart ?_⟩, ?_⟩
    · rw [(Range.mk.inj same).1]
    · simp only [UserView.setPage, withoutRange, fill, here, apart, ↓reduceIte]
      exact entry
  · rintro r ⟨had, different⟩
    obtain ⟨q, b, stored, rfl⟩ := exact.range r had
    have other : q ≠ p := by
      intro same
      rw [same, mine] at stored
      exact different (by rw [Option.some.inj stored])
    refine ⟨q, b, ?_, rfl⟩
    simpa [UserView.setPage, withoutRange, Function.update_of_ne other] using stored
  · intro x f present
    simp only [UserView.setPage, withoutRange, fill, here] at present
    split at present
    · cases present
    · rename_i elsewhere
      obtain ⟨q, same, stored⟩ := exact.pt x f present
      have other : q ≠ p := by
        intro same
        rw [same, mine] at stored
        refine elsewhere ?_
        rw [Option.some.inj stored]
        simp [PAGE_SIZE]
      refine ⟨q, same, ?_⟩
      simpa [UserView.setPage, withoutRange, Function.update_of_ne other] using stored

end

/- A driver program of the queue, alone. -/
abbrev RxAlone {α : Type} (rq : Rq) (t : Rx α) (post : α → UserView → Prop) (v : UserView) : Prop :=
  Alone (onDevice rq.dev t) post v

/- The page of a slot, if it holds one. -/
def pageIn (d : DmaInfo) : Option Page :=
  match d.buffer with
  | .page page => some page
  | _ => none

theorem page_in {d : DmaInfo} {p : Page} : pageIn d = some p ↔ d.buffer = .page p := by
  cases d with
  | mk addr buffer => cases buffer <;> simp [pageIn]

section
variable {α : Type} {rq : Rq} {v : UserView} {post : α → UserView → Prop}

theorem page_call_alone {op : PageOp} {rest : op.Ans → Rx α} (fair : Fair (.page op) v)
    (more : ∀ r b, PageStep op r v b → RxAlone rq (rest r) post b) :
    RxAlone rq ((pageCall op).bind rest) post v :=
  call_alone fair more

/- What an allocation gets: nothing, a page of the cache, a new page, or a buffer of an
   AF_XDP pool. -/
inductive Got (rq : Rq) (v : UserView) (out : Int × DmaInfo) : UserView → Prop where
  | nothing (failed : out.1 ≠ 0) (empty : pageIn out.2 = none) : Got rq v out v
  | cached {p : Page} {rest : List Page} (done : out.1 = 0) (front : v.cache = p :: rest)
      (holds : pageIn out.2 = some p) (stored : ∀ a, v.page p = some a → out.2.addr = a) :
      Got rq v out { v with cache := rest }
  | fresh {p : Page} {b : UserView} (done : out.1 = 0) (free : v.page p = none)
      (page : b.page = Function.update v.page p (some out.2.addr)) (cache : b.cache = v.cache)
      (holds : pageIn out.2 = some p) : Got rq v out b
  | xsk (done : out.1 = 0) (empty : pageIn out.2 = none) : Got rq v out v

def NoPage (rq : Rq) (d : DmaInfo) : Prop := rq.xskPool = true → pageIn d = none

theorem recycled_unused {p : Page} (free : v.page p = none) :
    (v.setPage p (some 0)).setPage p none = v := by
  refine UserView.ext ?_ rfl rfl rfl
  simp only [UserView.setPage, Function.update_idem, ← free, Function.update_eq_self]

variable (api : DmaApi rq.dev)
include api

theorem alloc_pool_alone {d : DmaInfo} (exact : Exact v) :
    RxAlone rq (mlx5ePageAllocPool d) (fun out b => Exact b ∧ Got rq v out b) v := by
  simp only [mlx5ePageAllocPool, Tree.bind_eq, Tree.pure_eq]
  refine page_call_alone trivial fun got b step => ?_
  cases got with
  | some got =>
    obtain ⟨page, addr⟩ := got
    obtain ⟨rest, front, stored, rfl⟩ := step
    exact ⟨exact_cache exact rest, .cached rfl front rfl stored⟩
  | none =>
    obtain rfl : b = v := step
    refine page_call_alone trivial fun got c step => ?_
    cases got with
    | none =>
      obtain rfl : c = b := step
      exact ⟨exact, .nothing (show -ENOMEM ≠ 0 by decide) rfl⟩
    | some page =>
      obtain ⟨free, rfl⟩ := step
      have mapped : RxAlone rq (dmaCall (.dmaMapPageAttrs page 0 PAGE_SIZE)) (fun ret c =>
          (ret = DMA_MAPPING_ERROR ∧ c = b.setPage page (some 0)) ∨
            ret ≠ DMA_MAPPING_ERROR ∧ New (b.setPage page (some 0)) ⟨ret, PAGE_SIZE⟩ ∧
              c = withRange (b.setPage page (some 0)) ⟨ret, PAGE_SIZE⟩ (pageToPhys page))
          (b.setPage page (some 0)) := by
        simp only [RxAlone, onDevice, dmaCall, Tree.ask, Tree.interp_call, Tree.interp_done, dmaImpl,
          map_route api, Tree.bind_done]
        exact map_whole_page_alone
      simp only [RxAlone, onDevice, Tree.interp_bind]
      refine Meets.bind mapped ?_
      rintro ret c (⟨rfl, rfl⟩ | ⟨good, new, rfl⟩)
      · simp only [↓reduceIte]
        refine page_call_alone (by simp [Fair, UserView.setPage]) fun _ c step => ?_
        obtain rfl : c = b := step.trans (recycled_unused free)
        exact ⟨exact, .nothing (show -ENOMEM ≠ 0 by decide) rfl⟩
      · simp only [good, ↓reduceIte]
        refine page_call_alone (by simp [Fair, UserView.setPage, withRange, UserView.mapPages])
          fun _ c step => ?_
        obtain rfl := step
        refine ⟨exact_with_page exact new free, .fresh (p := page) rfl free ?_ rfl rfl⟩
        simp only [UserView.setPage, withRange, UserView.mapPages, Function.update_idem]

theorem page_alloc_alone {d : DmaInfo} (exact : Exact v) :
    RxAlone rq (mlx5ePageAlloc rq d) (fun out b => (Exact b ∧ Got rq v out b) ∧ NoPage rq out.2) v := by
  unfold mlx5ePageAlloc
  split
  · simp only [mlx5eXskPageAllocPool, Tree.bind_eq, Tree.pure_eq]
    refine page_call_alone trivial fun got b step => ?_
    obtain rfl : b = v := step
    cases got with
    | none => exact ⟨⟨exact, .nothing (show -ENOMEM ≠ 0 by decide) rfl⟩, fun _ => rfl⟩
    | some got => exact ⟨⟨exact, .xsk rfl rfl⟩, fun _ => rfl⟩
  · rename_i regular
    exact Meets.mono (alloc_pool_alone api exact) fun _ _ both => ⟨both, fun xsk => absurd xsk regular⟩

theorem dma_unmap_alone {p : Page} {a : Nat} (exact : Exact v) (mine : v.page p = some a) :
    RxAlone rq (mlx5ePageDmaUnmap p)
      (fun _ b => b = (withoutRange v ⟨a, PAGE_SIZE⟩).setPage p (some 0)) v := by
  obtain ⟨aligned, _, had, mapped⟩ := exact.page p a mine
  have range : unmapRange a PAGE_SIZE = ⟨a, PAGE_SIZE⟩ := by
    have whole : iovaAlign PAGE_SIZE = PAGE_SIZE := by decide
    simp [unmapRange, iovaOffset, aligned, whole]
  simp only [mlx5ePageDmaUnmap, Tree.bind_eq]
  refine page_call_alone (by simp [Fair, mine]) fun addr b step => ?_
  obtain ⟨stored, rfl⟩ := step
  obtain rfl : a = addr := Option.some.inj (mine.symm.trans stored)
  have unmapped : RxAlone rq (dmaCall (.dmaUnmapPageAttrs a PAGE_SIZE))
      (fun _ c => c = withoutRange b ⟨a, PAGE_SIZE⟩) b := by
    simp only [RxAlone, onDevice, dmaCall, Tree.ask, Tree.interp_call, Tree.interp_done, dmaImpl,
      unmap_route api, Tree.bind_done]
    have size : iovaAlign (PAGE_SIZE + iovaOffset a) = (unmapRange a PAGE_SIZE).size := rfl
    rw [size, ← range]
    refine Meets.mono (unmap_page_alone (range ▸ had)) ?_
    rintro _ c (same | ⟨_, absent⟩)
    · exact same
    · exact absurd (absent _ mapped) (Nat.pos_iff_ne_zero.mp p.pos)
  simp only [RxAlone, onDevice, Tree.interp_bind]
  refine Meets.bind unmapped ?_
  rintro _ _ rfl
  exact page_call_alone (by simp [Fair, withoutRange, mine]) fun _ c step => step

/- Where a page goes when it is released: into the cache, or back to the pool. -/
inductive Left (v : UserView) (p : Page) : UserView → Prop where
  | recycled : Left v p { v with cache := v.cache ++ [p] }
  | returned {b : UserView} (page : b.page = Function.update v.page p none)
      (cache : b.cache = v.cache) : Left v p b

theorem release_dynamic_alone {p : Page} {a : Nat} {recycle : Bool} (exact : Exact v)
    (mine : v.page p = some a) :
    RxAlone rq (mlx5ePageReleaseDynamic p recycle) (fun _ b => Exact b ∧ Left v p b) v := by
  have given : Exact ((withoutRange v ⟨a, PAGE_SIZE⟩).setPage p none) ∧
      Left v p ((withoutRange v ⟨a, PAGE_SIZE⟩).setPage p none) :=
    ⟨exact_without_page exact mine, .returned rfl rfl⟩
  have zero : ∀ c, c = ((withoutRange v ⟨a, PAGE_SIZE⟩).setPage p (some 0)).setPage p none →
      c = (withoutRange v ⟨a, PAGE_SIZE⟩).setPage p none := by
    rintro _ rfl
    simp only [UserView.setPage, Function.update_idem]
  cases recycle with
  | true =>
    simp only [mlx5ePageReleaseDynamic, ↓reduceIte, Tree.bind_eq, Tree.pure_eq]
    refine page_call_alone trivial fun accepted b step => ?_
    cases accepted with
    | true =>
      obtain rfl := step
      exact ⟨exact_cache exact _, .recycled⟩
    | false =>
      obtain rfl : b = v := step
      simp only [Bool.false_eq_true, ↓reduceIte, RxAlone, onDevice, Tree.interp_bind]
      refine Meets.bind (dma_unmap_alone api exact mine) ?_
      rintro _ _ rfl
      refine page_call_alone (by simp [Fair, UserView.setPage]) fun _ c step => ?_
      rw [zero c step]
      exact given
  | false =>
    simp only [mlx5ePageReleaseDynamic, Bool.false_eq_true, ↓reduceIte, Tree.bind_eq, RxAlone, onDevice,
      Tree.interp_bind]
    refine Meets.bind (dma_unmap_alone api exact mine) ?_
    rintro _ _ rfl
    refine page_call_alone (by simp [Fair, UserView.setPage]) fun _ b step => ?_
    obtain rfl := step
    refine page_call_alone (by simp [Fair, UserView.setPage]) fun _ c step => ?_
    rw [zero c step]
    exact given

end

end PageAccounts
