import FastSafeIO.AtomicJobs
import FastSafeIO.UserViews

/- What a user sees, in two parts. The kernel treats one part as it would treat it alone,
   and the other part stays as it is. -/
namespace ViewFrames
open KernelCalls IommuWorld IovaOwnership LocalViews AtomicJobs UserViews

/- v is the part m that is worked on, and the part f that is left alone. -/
structure Beside (m f v : UserView) : Prop where
  page : ∀ p, v.page p = (m.page p).or (f.page p)
  pages : ∀ p, m.page p ≠ none → f.page p = none
  range : ∀ r, v.range r ↔ m.range r ∨ f.range r
  ranges : ∀ r s, m.range r → f.range s → r.Disjoint s
  nonempty : ∀ r, m.range r → 0 < r.size / PAGE_SIZE
  pt : ∀ x, v.pt x = (m.pt x).or (f.pt x)
  entries : ∀ x, f.pt x ≠ none → m.pt x = none
  inside : ∀ x, f.pt x ≠ none → ∃ r, f.range r ∧ r.Has x
  cache : v.cache = m.cache

section
variable {m f v : UserView}

theorem beside_page (apart : Beside m f v) {p : Page} {addr : Nat} (mine : m.page p = some addr) :
    v.page p = some addr := by rw [apart.page, mine]; rfl

theorem beside_pt (apart : Beside m f v) {x frame : Nat} (mine : m.pt x = some frame) :
    v.pt x = some frame := by rw [apart.pt, mine]; rfl

theorem set_page_beside (apart : Beside m f v) {p : Page} (out : f.page p = none)
    (addr : Option Nat) : Beside (m.setPage p addr) f (v.setPage p addr) := by
  refine ⟨fun q => ?_, fun q mine => ?_, apart.range, apart.ranges, apart.nonempty, apart.pt,
    apart.entries, apart.inside, apart.cache⟩
  · by_cases same : q = p
    · subst same
      cases addr <;> simp [UserView.setPage, out]
    · simpa [UserView.setPage, Function.update_of_ne same] using apart.page q
  · by_cases same : q = p
    · rw [same]
      exact out
    · exact apart.pages q (by simpa [UserView.setPage, Function.update_of_ne same] using mine)

theorem set_cache_beside (apart : Beside m f v) (cache : List Page) :
    Beside { m with cache := cache } f { v with cache := cache } :=
  ⟨apart.page, apart.pages, apart.range, apart.ranges, apart.nonempty, apart.pt, apart.entries,
    apart.inside, rfl⟩

theorem beside_empty (apart : Beside m f v) {s : Range} (mine : m.Inside s) {x : Nat}
    (member : s.Has x) : f.pt x = none := by
  obtain ⟨r, had, covers⟩ := mine
  by_contra present
  obtain ⟨t, other, holds⟩ := apart.inside x present
  exact apart.ranges r t had other x (covers x member) holds

theorem inside_beside (apart : Beside m f v) {s : Range} (mine : m.Inside s) : v.Inside s := by
  obtain ⟨r, had, covers⟩ := mine
  exact ⟨r, (apart.range r).mpr (Or.inl had), covers⟩

/- Entries change inside my ranges only. -/
theorem set_pt_beside (apart : Beside m f v) {s : Range} (mine : m.Inside s)
    {before after : Nat → Option Nat} (change : ∀ x, after x = if s.Has x then before x else v.pt x) :
    Beside { m with pt := fun x => if s.Has x then before x else m.pt x } f { v with pt := after } := by
  refine ⟨apart.page, apart.pages, apart.range, apart.ranges, apart.nonempty, fun x => ?_,
    fun x other => ?_, apart.inside, apart.cache⟩
  · dsimp only
    rw [change x]
    split
    · rename_i member
      rw [beside_empty apart mine member]
      simp
    · exact apart.pt x
  · have out : ¬ s.Has x := fun member => other (beside_empty apart mine member)
    simpa only [out, ↓reduceIte] using apart.entries x other

theorem with_range_beside (apart : Beside m f v) {r : Range} (nonempty : 0 < r.size / PAGE_SIZE)
    (new : ∀ s, v.range s → r.Disjoint s) :
    Beside { m with range := fun s => s = r ∨ m.range s } f
      { v with range := fun s => s = r ∨ v.range s } := by
  refine ⟨apart.page, apart.pages, fun s => ?_, ?_, ?_, apart.pt, apart.entries, apart.inside,
    apart.cache⟩
  · simp only [apart.range, or_assoc]
  · rintro s t (rfl | had) other
    · exact new t ((apart.range t).mpr (Or.inr other))
    · exact apart.ranges s t had other
  · rintro s (rfl | had)
    · exact nonempty
    · exact apart.nonempty s had

theorem without_range_beside (apart : Beside m f v) {r : Range} (mine : m.range r) :
    Beside { m with range := fun s => m.range s ∧ s ≠ r } f
      { v with range := fun s => v.range s ∧ s ≠ r } := by
  refine ⟨apart.page, apart.pages, fun s => ?_, fun s t had => apart.ranges s t had.1,
    fun s had => apart.nonempty s had.1, apart.pt, apart.entries, apart.inside, apart.cache⟩
  have distinct : f.range s → s ≠ r := by
    rintro other rfl
    have here := range_inhabited (apart.nonempty s mine)
    exact apart.ranges s s mine other _ here here
  simp only [apart.range]
  constructor
  · rintro ⟨had | other, different⟩
    · exact Or.inl ⟨had, different⟩
    · exact Or.inr other
  · rintro (⟨had, different⟩ | other)
    · exact ⟨Or.inl had, different⟩
    · exact ⟨Or.inr other, distinct other⟩

theorem not_other (apart : Beside m f v) {p : Page} (free : v.page p = none) :
    m.page p = none ∧ f.page p = none := by
  rw [apart.page] at free
  exact Option.or_eq_none_iff.mp free

theorem had_beside (apart : Beside m f v) {p : Page} (mine : m.page p ≠ none) : v.page p ≠ none := by
  obtain ⟨addr, stored⟩ := Option.ne_none_iff_exists'.mp mine
  rw [beside_page apart stored]
  simp

theorem let_go_beside (apart : Beside m f v) {p : Page} (mine : m.page p = some 0) :
    Beside (m.setPage p none) f (v.setPage p none) :=
  set_page_beside apart (apart.pages p (by simp [mine])) none

theorem page_fair_beside (op : PageOp) (apart : Beside m f v) (fair : Fair (.page op) m) :
    Fair (.page op) v := by
  cases op
  case pagePoolGetDmaAddr => exact had_beside apart fair
  case pagePoolSetDmaAddr => exact had_beside apart fair
  case pagePoolRecycleDirect => exact beside_page apart fair
  case pagePoolReleasePage => exact beside_page apart fair
  case putPage => exact beside_page apart fair
  case xdpHandOver => exact beside_page apart fair
  all_goals trivial

/- Entries that I have not made nobody has made. -/
theorem empty_beside (apart : Beside m f v) {s : Range} (mine : m.Inside s)
    (empty : ∀ x, s.Has x → m.pt x = none) : ∀ x, s.Has x → v.pt x = none := by
  intro x member
  rw [apart.pt, empty x member, beside_empty apart mine member]
  rfl

theorem iommu_fair_beside (op : IommuOp) (apart : Beside m f v) (fair : Fair (.iommu op) m) :
    Fair (.iommu op) v := by
  cases op
  case iommuDmaFreeIova iova size gather =>
    have mine : m.Inside ⟨iova, size⟩ := ⟨_, fair.1, fun _ here => here⟩
    exact ⟨(apart.range _).mpr (Or.inl fair.1), empty_beside apart mine fair.2⟩
  case __iommuMap => exact ⟨inside_beside apart fair.1, empty_beside apart fair.1 fair.2⟩
  case iommuUnmapFast => exact inside_beside apart fair
  all_goals trivial

/- A call on my part is the call that I see, and the other part stays. -/
theorem page_step_beside {op : PageOp} {r : op.Ans} {after : UserView} (apart : Beside m f v)
    (fair : Fair (.page op) m) (step : UserStep (.page op) r v after) :
    ∃ n, UserStep (.page op) r m n ∧ Beside n f after := by
  have same : after = v → Beside m f after := fun equal => equal ▸ apart
  cases op
  case rxCacheGet =>
    cases r with
    | none => exact ⟨m, rfl, same step⟩
    | some got =>
      obtain ⟨page, addr⟩ := got
      obtain ⟨rest, front, stored, rfl⟩ := step
      refine ⟨{ m with cache := rest }, ⟨rest, apart.cache.symm.trans front, ?_, rfl⟩,
        set_cache_beside apart rest⟩
      exact fun known had => stored known (beside_page apart had)
  case rxCachePut page =>
    cases r with
    | true =>
      obtain rfl := step
      refine ⟨{ m with cache := m.cache ++ [page] }, rfl, ?_⟩
      rw [← apart.cache]
      exact set_cache_beside apart _
    | false => exact ⟨m, rfl, same step⟩
  case rxCacheEntries =>
    obtain ⟨all, rfl⟩ := step
    exact ⟨{ m with cache := [] }, ⟨all.trans apart.cache, rfl⟩, set_cache_beside apart []⟩
  case pagePoolDevAllocPages =>
    cases r with
    | none => exact ⟨m, rfl, same step⟩
    | some page =>
      obtain ⟨free, rfl⟩ := step
      obtain ⟨first, second⟩ := not_other apart free
      exact ⟨m.setPage page (some 0), ⟨first, rfl⟩, set_page_beside apart second _⟩
  case pagePoolRecycleDirect page =>
    obtain rfl := step
    exact ⟨m.setPage page none, rfl, let_go_beside apart fair⟩
  case putPage page =>
    obtain rfl := step
    exact ⟨m.setPage page none, rfl, let_go_beside apart fair⟩
  case xdpHandOver page =>
    obtain rfl := step
    exact ⟨m.setPage page none, rfl, let_go_beside apart fair⟩
  case pagePoolGetDmaAddr page =>
    obtain ⟨stored, rfl⟩ := step
    refine ⟨m, ⟨?_, rfl⟩, apart⟩
    obtain ⟨addr, had⟩ := Option.ne_none_iff_exists'.mp fair
    rw [had, ← beside_page apart had, stored]
  case pagePoolSetDmaAddr page addr =>
    obtain rfl := step
    exact ⟨m.setPage page (some addr), rfl, set_page_beside apart (apart.pages _ fair) _⟩
  all_goals exact ⟨m, rfl, same step⟩

theorem map_step_beside {iova paddr size : Nat} {r : Int} {after : UserView} (apart : Beside m f v)
    (mine : m.Inside ⟨iova, size⟩) (step : UserStep (.iommu (.__iommuMap iova paddr size)) r v after) :
    ∃ n, UserStep (.iommu (.__iommuMap iova paddr size)) r m n ∧ Beside n f after := by
  by_cases good : r = (0 : Int)
  · refine ⟨m.mapPages ⟨iova, size⟩ paddr, by simp only [IommuStep, UserStep, if_pos good], ?_⟩
    have written : after = v.mapPages ⟨iova, size⟩ paddr := by
      simpa only [UserStep, IommuStep, if_pos good] using step
    rw [written]
    exact set_pt_beside apart mine fun _ => rfl
  · refine ⟨m, by simp only [IommuStep, UserStep, if_neg good], ?_⟩
    have unchanged : after = v := by simpa only [UserStep, IommuStep, if_neg good] using step
    rw [unchanged]
    exact apart

theorem alloc_step_beside {size : Nat} {r : (IommuOp.iommuDmaAllocIova size).Ans} {after : UserView}
    (apart : Beside m f v) (step : UserStep (.iommu (.iommuDmaAllocIova size)) r v after) :
    ∃ n, UserStep (.iommu (.iommuDmaAllocIova size)) r m n ∧ Beside n f after := by
  rcases step with ⟨none, rfl⟩ | ⟨got, aligned, fits, nonempty, new, empty, rfl⟩
  · exact ⟨m, Or.inl ⟨none, rfl⟩, apart⟩
  · refine ⟨_, Or.inr ⟨got, aligned, fits, nonempty, ?_, ?_, rfl⟩,
      with_range_beside apart nonempty new⟩
    · exact fun s had => new s ((apart.range s).mpr (Or.inl had))
    · intro x member
      have here := empty x member
      rw [apart.pt] at here
      exact (Option.or_eq_none_iff.mp here).1

theorem iommu_step_beside {op : IommuOp} {r : op.Ans} {after : UserView} (apart : Beside m f v)
    (fair : Fair (.iommu op) m) (step : UserStep (.iommu op) r v after) :
    ∃ n, UserStep (.iommu op) r m n ∧ Beside n f after := by
  have same : after = v → Beside m f after := fun equal => equal ▸ apart
  cases op
  case iommuDmaAllocIova size => exact alloc_step_beside apart step
  case iommuDmaFreeIova iova size gather =>
    obtain rfl := step
    exact ⟨_, rfl, without_range_beside apart fair.1⟩
  case __iommuMap iova paddr size => exact map_step_beside apart fair.1 step
  case iommuUnmapFast iova size gather =>
    obtain ⟨out, rfl⟩ := step
    exact ⟨{ m with pt := fill m.pt ⟨iova, size⟩ none }, ⟨out, rfl⟩,
      set_pt_beside apart fair fun _ => rfl⟩
  case iommuIovaToPhys iova =>
    obtain ⟨phys, rfl⟩ := step
    exact ⟨m, ⟨fun frame had => phys frame (beside_pt apart had), rfl⟩, apart⟩
  all_goals exact ⟨m, rfl, same step⟩

/-- A call on my part, in what I see as a whole. -/
theorem user_frames : Frames UserStep Fair Beside where
  fine := by
    intro op m f v apart fair
    cases op with
    | page op => exact page_fair_beside op apart fair
    | iommu op => exact iommu_fair_beside op apart fair
  kept := by
    intro op r m f v after apart fair step
    cases op with
    | page op => exact page_step_beside apart fair step
    | iommu op => exact iommu_step_beside apart fair step

end

end ViewFrames
