import FastSafeIO.PageAccounts

/- A queue of the old driver and its pages: where each page is, and that the driver
   functions never lose one. -/
namespace QueueAccounts
open CallTree KernelCalls DmaLayer IommuWorld LocalViews UserViews UserMapping Custody OldRxDriver
  PageAccounts
open RxDriver (Rq Buffer bitmapEmpty MLX5_MPWRQ_PAGES_PER_WQE)

/- A slot of a striding WQE, or the page of a cyclic fragment. -/
inductive Place where
  | slot (ix i : Nat)
  | frag (n : Nat)
  deriving DecidableEq, Repr

/- posted marks the WQEs the device has, fragInUse the fragments that have a page;
   xdpFifo holds the pages on the XDP queue. -/
structure OldRxMem where
  wqe : Nat → MpwInfo
  posted : Nat → Bool
  xdpFifo : List Page
  frag : Nat → DmaInfo
  fragInUse : Nat → Bool

def OldRxMem.initial : OldRxMem :=
  ⟨fun _ => ⟨fun _ => ⟨0, .null⟩, fun _ => false⟩, fun _ => false, [], fun _ => ⟨0, .null⟩,
    fun _ => false⟩

/- The page that the queue itself has in a place; XDP has the pages marked in the bitmap. -/
def OldRxMem.page (mem : OldRxMem) : Place → Option Page
  | .slot ix i =>
    if mem.posted ix = true ∧ i < MLX5_MPWRQ_PAGES_PER_WQE ∧ (mem.wqe ix).xdpXmitBitmap i = false then
      pageIn ((mem.wqe ix).dmaInfo i)
    else none
  | .frag n => if mem.fragInUse n = true then pageIn (mem.frag n) else none

def OldRxMem.addr (mem : OldRxMem) : Place → Nat
  | .slot ix i => ((mem.wqe ix).dmaInfo i).addr
  | .frag n => (mem.frag n).addr

/- Every page is in one place, on the XDP queue or in the cache, and stored in the slot
   with the address it is mapped at. -/
structure Books (page : Place → Option Page) (addr : Place → Nat) (line : List Page) (v : UserView) :
    Prop where
  exact : Exact v
  kept : Kept page (line ++ v.cache) fun p => v.page p ≠ none
  stored : ∀ l p, page l = some p → v.page p = some (addr l)

section
variable {page : Place → Option Page} {addr : Place → Nat} {line : List Page} {v b : UserView}
  {rq : Rq} {out : Int × DmaInfo} {l : Place} {p : Page}

theorem Books.readdress {addr' : Place → Nat} (books : Books page addr line v)
    (same : ∀ l p, page l = some p → addr' l = addr l) : Books page addr' line v :=
  ⟨books.exact, books.kept, fun l p here => by rw [same l p here]; exact books.stored l p here⟩

/- What an allocation got goes into an empty place. -/
theorem Books.got (books : Books page addr line v) (empty : page l = none) (exact : Exact b)
    (got : Got rq v out b) :
    (out.1 ≠ 0 ∧ Books page addr line b) ∨
      (out.1 = 0 ∧
        Books (Function.update page l (pageIn out.2)) (Function.update addr l out.2.addr) line b) := by
  have elsewhere : ∀ {k q}, page k = some q → Function.update addr l out.2.addr k = addr k := by
    intro k q here
    exact Function.update_of_ne (fun same => by rw [same, empty] at here; cases here) _ _
  cases got with
  | nothing failed => exact Or.inl ⟨failed, books⟩
  | @cached p rest done front holds stored =>
    have kept := books.kept
    rw [front] at kept
    have placed := (kept.perm List.perm_middle).place_first empty
    refine Or.inr ⟨done, exact, by rw [holds]; exact placed, fun k q here => ?_⟩
    rw [holds] at here
    rcases update_some here with ⟨rfl, same⟩ | ⟨_, here⟩
    · cases same
      obtain ⟨a, had⟩ := Option.ne_none_iff_exists'.mp (kept.is_loose (p := p) (by simp))
      rw [Function.update_self, stored a had]
      exact had
    · rw [elsewhere here]
      exact books.stored k q here
  | @fresh p b done free pages cache holds =>
    have held : ∀ q, b.page q ≠ none ↔ v.page q ≠ none ∨ q = p := by
      intro q
      rw [pages]
      by_cases same : q = p
      · simp [same]
      · simp [same]
    have taken := (books.kept.take (p := p) empty (by simp [free])).congr held
    refine Or.inr ⟨done, exact, by rw [holds, cache]; exact taken, fun k q here => ?_⟩
    rw [holds] at here
    rcases update_some here with ⟨rfl, same⟩ | ⟨_, here⟩
    · cases same
      simp [pages]
    · have had := books.stored k q here
      have other : q ≠ p := fun same => by rw [same, free] at had; cases had
      rw [elsewhere here, pages, Function.update_of_ne other]
      exact had
  | xsk done none =>
    refine Or.inr ⟨done, ?_⟩
    rw [none, ← empty, Function.update_eq_self]
    exact books.readdress fun k q here => elsewhere here

theorem page_returned {q : Page} (pages : b.page = Function.update v.page p none) :
    b.page q ≠ none ↔ v.page q ≠ none ∧ q ≠ p := by
  rw [pages]
  by_cases same : q = p
  · simp [same]
  · simp [same]

theorem Books.left (books : Books page addr line v) (here : page l = some p) (exact : Exact b)
    (left : Left v p b) : Books (Function.update page l none) addr line b := by
  have before : ∀ {k q}, Function.update page l none k = some q → k ≠ l ∧ page k = some q := by
    intro k q there
    rcases update_some there with ⟨_, impossible⟩ | found
    · cases impossible
    · exact found
  cases left with
  | recycled =>
    refine ⟨exact, ?_, fun k q there => books.stored k q (before there).2⟩
    have loosened := books.kept.loosen here
    rwa [List.append_assoc] at loosened
  | returned pages cache =>
    have dropped : Kept (Function.update page l none) (line ++ b.cache) fun q => b.page q ≠ none := by
      rw [cache]
      exact (books.kept.drop here).congr fun q => page_returned pages
    refine ⟨exact, dropped, fun k q there => ?_⟩
    obtain ⟨distinct, there'⟩ := before there
    have other : q ≠ p := fun same => distinct (books.kept.once k l q there' (same ▸ here))
    rw [pages, Function.update_of_ne other]
    exact books.stored k q there'

theorem Books.line_left {rest : List Page} (books : Books page addr (p :: rest) v) (exact : Exact b)
    (left : Left v p b) : Books page addr rest b := by
  have here : p ∈ p :: rest ++ v.cache := List.mem_cons_self
  have other : ∀ {k q}, page k = some q → q ≠ p :=
    fun there same => books.kept.apart _ _ there (same ▸ here)
  cases left with
  | recycled =>
    refine ⟨exact, ?_, books.stored⟩
    rw [← List.append_assoc]
    exact books.kept.perm (List.perm_append_singleton p (rest ++ v.cache)).symm
  | returned pages cache =>
    refine ⟨exact, ?_, fun k q there => ?_⟩
    · rw [cache]
      exact books.kept.drop_first.congr fun q => page_returned pages
    · rw [pages, Function.update_of_ne (other there)]
      exact books.stored k q there

/- The oldest page of the cache is taken out of it to be released. -/
theorem Books.page_of_line (books : Books page addr line v) (member : p ∈ line ++ v.cache) :
    ∃ a, v.page p = some a := Option.ne_none_iff_exists'.mp (books.kept.is_loose member)

end

section
variable {page : Place → Option Page} {addr : Place → Nat} {line : List Page} {v : UserView}
  {rq : Rq} {l : Place} (api : DmaApi rq.dev)
include api

theorem alloc_books {d : DmaInfo} (books : Books page addr line v) (empty : page l = none) :
    RxAlone rq (mlx5ePageAlloc rq d) (fun out b =>
      ((out.1 ≠ 0 ∧ Books page addr line b) ∨ (out.1 = 0 ∧
        Books (Function.update page l (pageIn out.2)) (Function.update addr l out.2.addr) line b)) ∧
      NoPage rq out.2) v :=
  Meets.mono (page_alloc_alone api books.exact) fun _ _ both =>
    ⟨books.got empty both.1.1 both.1.2, both.2⟩

theorem release_books {d : DmaInfo} {recycle : Bool} (books : Books page addr line v)
    (here : page l = pageIn d) (clean : NoPage rq d) :
    RxAlone rq (mlx5ePageRelease rq d recycle)
      (fun _ b => Books (Function.update page l none) addr line b) v := by
  have nothing : pageIn d = none → Books (Function.update page l none) addr line v := by
    intro empty
    rw [← empty, ← here, Function.update_eq_self]
    exact books
  unfold mlx5ePageRelease
  split
  · rename_i xsk
    split
    · refine page_call_alone trivial fun _ b step => ?_
      obtain rfl : b = v := step
      exact nothing (clean xsk)
    · exact nothing (clean xsk)
  · split
    · rename_i p holds
      have here : page l = some p := here.trans (page_in.mpr holds)
      refine Meets.mono (release_dynamic_alone api books.exact (books.stored l p here)) ?_
      exact fun _ b both => books.left here both.1 both.2
    · rename_i absent
      refine nothing ?_
      cases held : pageIn d with
      | none => rfl
      | some p => exact absurd (page_in.mp held) (absent p)

end

/- The places with the slots of one WQE seen through f. -/
def overlay {β : Type} (place : Place → β) (ix : Nat) (f : Nat → β) : Place → β
  | .slot jx j => if jx = ix then f j else place (.slot jx j)
  | .frag n => place (.frag n)

section
variable {β : Type} {place : Place → β} {ix i : Nat} {f : Nat → β}

theorem overlay_slot : overlay place ix f (.slot ix i) = f i := if_pos rfl

theorem overlay_update (b : β) : Function.update (overlay place ix f) (.slot ix i) b =
    overlay place ix (Function.update f i b) := by
  funext l
  by_cases same : l = .slot ix i
  · subst same
    rw [Function.update_self, overlay_slot, Function.update_self]
  · rw [Function.update_of_ne same]
    cases l with
    | frag n => rfl
    | slot jx j =>
      by_cases here : jx = ix
      · subst here
        have other : j ≠ i := fun equal => same (by rw [equal])
        rw [overlay_slot, overlay_slot, Function.update_of_ne other]
      · simp [overlay, here]

theorem eq_overlay {after : Place → β} (frags : ∀ n, after (.frag n) = place (.frag n))
    (here : ∀ j, after (.slot ix j) = f j)
    (others : ∀ jx, jx ≠ ix → ∀ j, after (.slot jx j) = place (.slot jx j)) :
    after = overlay place ix f := by
  funext l
  cases l with
  | frag n => exact frags n
  | slot jx j =>
    by_cases same : jx = ix
    · subst same
      rw [overlay_slot, here]
    · rw [others jx same j]
      simp [overlay, same]

theorem overlay_same (same : ∀ j, place (.slot ix j) = f j) : overlay place ix f = place :=
  (eq_overlay (fun _ => rfl) same fun _ _ _ => rfl).symm

theorem eq_update_frag {after : Place → β} {n : Nat} {b : β}
    (slots : ∀ jx j, after (.slot jx j) = place (.slot jx j)) (here : after (.frag n) = b)
    (others : ∀ m, m ≠ n → after (.frag m) = place (.frag m)) :
    after = Function.update place (.frag n) b := by
  refine Function.eq_update_iff.mpr ⟨here, fun l other => ?_⟩
  cases l with
  | slot jx j => exact slots jx j
  | frag m => exact others m fun same => other (congrArg Place.frag same)

end

/- The pages of the slots below i, and of the slots from i on that XDP did not take. -/
def filled (dmaInfo : Nat → DmaInfo) (i : Nat) : Nat → Option Page :=
  fun j => if j < i then pageIn (dmaInfo j) else none

def remaining (bitmap : Nat → Bool) (dmaInfo : Nat → DmaInfo) (i : Nat) : Nat → Option Page :=
  fun j => if i ≤ j ∧ j < MLX5_MPWRQ_PAGES_PER_WQE ∧ bitmap j = false then pageIn (dmaInfo j) else none

def slotAddr (dmaInfo : Nat → DmaInfo) : Nat → Nat := fun j => (dmaInfo j).addr

theorem filled_next (dmaInfo : Nat → DmaInfo) (i : Nat) (d : DmaInfo) :
    Function.update (filled dmaInfo i) i (pageIn d) = filled (Function.update dmaInfo i d) (i + 1) := by
  funext j
  by_cases same : j = i
  · subst same
    simp [filled]
  · have bound : j < i + 1 ↔ j < i := by omega
    simp [filled, Function.update_of_ne same, bound]

theorem filled_stop (dmaInfo : Nat → DmaInfo) (i : Nat) (d : DmaInfo) :
    filled (Function.update dmaInfo i d) i = filled dmaInfo i := by
  funext j
  by_cases below : j < i
  · simp [filled, below, Function.update_of_ne (Nat.ne_of_lt below)]
  · simp [filled, below]

theorem filled_back (dmaInfo : Nat → DmaInfo) (i : Nat) :
    Function.update (filled dmaInfo (i + 1)) i none = filled dmaInfo i := by
  have grown := filled_next dmaInfo i (dmaInfo i)
  rw [Function.update_eq_self] at grown
  rw [← grown, Function.update_idem]
  exact Function.update_eq_self_iff.mpr (by simp [filled])

theorem remaining_next {bitmap : Nat → Bool} {dmaInfo : Nat → DmaInfo} {i : Nat} :
    Function.update (remaining bitmap dmaInfo i) i none = remaining bitmap dmaInfo (i + 1) := by
  funext j
  by_cases same : j = i
  · subst same
    simp [remaining]
  · have bound : i ≤ j ↔ i + 1 ≤ j := by omega
    simp [remaining, Function.update_of_ne same, bound]

theorem remaining_skip {bitmap : Nat → Bool} {dmaInfo : Nat → DmaInfo} {i : Nat}
    (taken : bitmap i = true) : remaining bitmap dmaInfo (i + 1) = remaining bitmap dmaInfo i := by
  rw [← remaining_next]
  refine Function.update_eq_self_iff.mpr ?_
  simp [remaining, taken]

section
variable {page : Place → Option Page} {addr : Place → Nat} {line : List Page} {v : UserView}
  {rq : Rq} {ix : Nat} (api : DmaApi rq.dev)

def Clean (rq : Rq) (dmaInfo : Nat → DmaInfo) : Prop := ∀ j, NoPage rq (dmaInfo j)

theorem clean_update {dmaInfo : Nat → DmaInfo} {i : Nat} {d : DmaInfo} (clean : Clean rq dmaInfo)
    (here : NoPage rq d) : Clean rq (Function.update dmaInfo i d) := by
  intro j
  by_cases same : j = i
  · subst same
    simpa using here
  · simpa [Function.update_of_ne same] using clean j

/- The slots visited so far hold the pages that were allocated for them. -/
abbrev Filling (page : Place → Option Page) (addr : Place → Nat) (line : List Page) (ix : Nat)
    (dmaInfo : Nat → DmaInfo) (i : Nat) (v : UserView) : Prop :=
  Books (overlay page ix (filled dmaInfo i)) (overlay addr ix (slotAddr dmaInfo)) line v

include api

theorem alloc_loop_books {left i : Nat} {dmaInfo : Nat → DmaInfo} {mtts : Nat → Nat}
    (fits : i + left = MLX5_MPWRQ_PAGES_PER_WQE) (clean : Clean rq dmaInfo)
    (books : Filling page addr line ix dmaInfo i v) :
    RxAlone rq (allocLoop rq left i dmaInfo mtts) (fun run b =>
      (run.err = 0 → run.count = MLX5_MPWRQ_PAGES_PER_WQE) ∧ Clean rq run.dmaInfo ∧
        Filling page addr line ix run.dmaInfo run.count b) v := by
  induction left generalizing i dmaInfo mtts v with
  | zero => exact ⟨fun _ => fits, clean, books⟩
  | succ left ih =>
    have empty : overlay page ix (filled dmaInfo i) (.slot ix i) = none := by
      simp [overlay_slot, filled]
    unfold allocLoop
    simp only [Tree.bind_eq, Tree.pure_eq, RxAlone, onDevice, Tree.interp_bind]
    refine Meets.bind (alloc_books api books empty) ?_
    rintro ⟨err, di⟩ b ⟨(⟨bad, kept⟩ | ⟨good, more⟩), here⟩
    · dsimp only at bad kept here ⊢
      rw [if_pos bad]
      refine ⟨fun good => absurd good bad, clean_update clean here, ?_⟩
      have addrs : overlay addr ix (slotAddr (Function.update dmaInfo i di)) =
          Function.update (overlay addr ix (slotAddr dmaInfo)) (.slot ix i) di.addr := by
        rw [overlay_update]
        congr 1
        funext j
        by_cases same : j = i
        · simp [slotAddr, same]
        · simp [slotAddr, same]
      dsimp only [Filling]
      rw [filled_stop, addrs]
      refine kept.readdress fun l p there => Function.update_of_ne (fun same => ?_) _ _
      rw [same, empty] at there
      cases there
    · dsimp only at good more here ⊢
      rw [if_neg (not_not.mpr good)]
      refine ih (by omega) (clean_update clean here) ?_
      have addrs : Function.update (slotAddr dmaInfo) i di.addr =
          slotAddr (Function.update dmaInfo i di) := by
        funext j
        by_cases same : j = i
        · simp [slotAddr, same]
        · simp [slotAddr, same]
      rwa [overlay_update, overlay_update, filled_next, addrs] at more

theorem err_unmap_books {count : Nat} {dmaInfo : Nat → DmaInfo} (clean : Clean rq dmaInfo)
    (books : Filling page addr line ix dmaInfo count v) :
    RxAlone rq (errUnmap rq count dmaInfo)
      (fun _ b => Filling page addr line ix dmaInfo 0 b) v := by
  induction count generalizing v with
  | zero => exact books
  | succ i ih =>
    have here : overlay page ix (filled dmaInfo (i + 1)) (.slot ix i) = pageIn (dmaInfo i) := by
      simp [overlay_slot, filled]
    unfold errUnmap
    simp only [Tree.bind_eq, RxAlone, onDevice, Tree.interp_bind]
    refine Meets.bind (release_books api books here (clean i)) fun _ b left => ih ?_
    rwa [overlay_update, filled_back] at left

theorem free_loop_books {left i : Nat} {noXdpXmit recycle : Bool} {bitmap : Nat → Bool}
    {dmaInfo : Nat → DmaInfo} (fits : i + left = MLX5_MPWRQ_PAGES_PER_WQE)
    (none_sent : noXdpXmit = true → ∀ j < MLX5_MPWRQ_PAGES_PER_WQE, bitmap j = false)
    (clean : Clean rq dmaInfo)
    (books : Books (overlay page ix (remaining bitmap dmaInfo i)) addr line v) :
    RxAlone rq (freeLoop rq noXdpXmit bitmap recycle dmaInfo left i)
      (fun _ b => Books (overlay page ix fun _ => none) addr line b) v := by
  induction left generalizing i v with
  | zero =>
    have nothing : remaining bitmap dmaInfo i = fun _ => none := by
      funext j
      exact if_neg fun both => by omega
    rwa [nothing] at books
  | succ left ih =>
    unfold freeLoop
    by_cases sent : bitmap i = true
    · obtain rfl : noXdpXmit = false := by
        cases all : noXdpXmit with
        | false => rfl
        | true =>
          have clear := none_sent all i (by omega)
          rw [sent] at clear
          cases clear
      simp only [sent, Bool.not_true, Bool.or_false, Bool.false_eq_true, ↓reduceIte]
      refine ih (show i + 1 + left = _ by omega) ?_
      rwa [remaining_skip sent]
    · have clear : bitmap i = false := by simpa using sent
      have here : overlay page ix (remaining bitmap dmaInfo i) (.slot ix i) = pageIn (dmaInfo i) := by
        simp only [overlay_slot, remaining, clear, Nat.le_refl, and_true, true_and]
        exact if_pos (by omega)
      simp only [clear, Bool.not_false, Bool.or_true, ↓reduceIte, Tree.bind_eq, RxAlone, onDevice,
        Tree.interp_bind]
      refine Meets.bind (release_books api books here (clean i)) fun _ b left => ih (by omega) ?_
      rwa [overlay_update, remaining_next] at left

end

end QueueAccounts
