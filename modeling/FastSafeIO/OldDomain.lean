import FastSafeIO.ClientRanges
import FastSafeIO.QueueAccounts

/- One domain shared by any number of queues of the old driver and by users of the
   ordinary DMA calls. -/
namespace OldDomain
open CallTree KernelCalls DmaLayer IommuWorld IovaOwnership AgentPool LocalViews UserViews UserMapping
  Custody OldRxDriver PageAccounts QueueAccounts ClientRanges
open RxDriver (Rq Buffer bitmapEmpty MLX5_MPWRQ_PAGES_PER_WQE regularRq regular_rq_api)
set_option linter.style.nameCheck false

inductive OldParty where
  | queue (rq : Rq) (mem : OldRxMem)
  | client (dev : Device) (mapped : Nat → Option (Nat × Nat))

/- What a striding queue, a cyclic queue and XDP do, and the end of a queue. -/
inductive OldJob where
  | allocRxMpwqe (ix : Nat)
  | freeRxMpwqe (ix : Nat) (recycle : Bool)
  | xdpRedirect (ix i : Nat)
  | xdpTx (ix i : Nat)
  | xdpTxComplete (recycle : Bool)
  | getRxFrag (n offset : Nat)
  | putRxFrag (n : Nat) (lastInPage recycle : Bool)
  | freeRq
  | dmaMapPageAttrs (h : Nat) (page : Page) (offset size : Nat)
  | dmaUnmapPageAttrs (h : Nat)

/- The packet handler marks the page it gave to XDP in the bitmap of its WQE. -/
def markXdp (mem : OldRxMem) (ix i : Nat) : OldRxMem :=
  { mem with wqe := Function.update mem.wqe ix { mem.wqe ix with
      xdpXmitBitmap := Function.update (mem.wqe ix).xdpXmitBitmap i true } }

/- A packet is in one page of a posted WQE, and each page is given to XDP once. -/
def XdpReady (mem : OldRxMem) (ix i : Nat) : Prop := ∃ p, mem.page (.slot ix i) = some p

def oldReady : OldJob → OldParty → Prop
  | .allocRxMpwqe ix, .queue _ mem => mem.posted ix = false
  | .freeRxMpwqe ix _, .queue _ mem => mem.posted ix = true
  | .xdpRedirect ix i, .queue _ mem => XdpReady mem ix i
  | .xdpTx ix i, .queue _ mem => XdpReady mem ix i
  | .xdpTxComplete _, .queue _ mem => mem.xdpFifo ≠ []
  | .getRxFrag n offset, .queue _ mem => offset = 0 → mem.fragInUse n = false
  | .putRxFrag n lastInPage _, .queue _ mem => lastInPage = true → mem.fragInUse n = true
  | .freeRq, .queue _ _ => True
  | .dmaMapPageAttrs h _ _ _, .client _ mapped => mapped h = none
  | .dmaUnmapPageAttrs _, .client _ _ => True
  | _, _ => False

def queueBody (rq : Rq) : OldJob → OldRxMem → Kernel OldRxMem
  | .allocRxMpwqe ix, mem => do
    let (err, wi, _) ← onDevice rq.dev (mlx5eAllocRxMpwqe rq (mem.wqe ix))
    pure { mem with
      wqe := Function.update mem.wqe ix wi, posted := Function.update mem.posted ix (err == 0) }
  | .freeRxMpwqe ix recycle, mem => do
    onDevice rq.dev (mlx5eFreeRxMpwqe rq (mem.wqe ix) recycle)
    pure { mem with posted := Function.update mem.posted ix false }
  | .xdpRedirect ix i, mem =>
    match pageIn ((mem.wqe ix).dmaInfo i) with
    | some page => do
      onDevice rq.dev (mlx5eXdpHandle rq page)
      pure (markXdp mem ix i)
    | none => pure mem
  | .xdpTx ix i, mem =>
    match pageIn ((mem.wqe ix).dmaInfo i) with
    | some page => pure { markXdp mem ix i with xdpFifo := mem.xdpFifo ++ [page] }
    | none => pure mem
  | .xdpTxComplete recycle, mem =>
    match mem.xdpFifo with
    | [] => pure mem
    | page :: rest => do
      onDevice rq.dev (mlx5eFreeXdpsqDesc page recycle)
      pure { mem with xdpFifo := rest }
  | .getRxFrag n offset, mem => do
    let (err, di) ← onDevice rq.dev (mlx5eGetRxFrag rq offset (mem.frag n))
    pure { mem with
      frag := Function.update mem.frag n di,
      fragInUse := if offset = 0 then Function.update mem.fragInUse n (err == 0) else mem.fragInUse }
  | .putRxFrag n lastInPage recycle, mem => do
    onDevice rq.dev (mlx5ePutRxFrag rq lastInPage (mem.frag n) recycle)
    pure { mem with
      fragInUse := if lastInPage then Function.update mem.fragInUse n false else mem.fragInUse }
  | .freeRq, mem => do
    onDevice rq.dev mlx5eFreeRq
    pure mem
  | _, mem => pure mem

def oldBody : OldJob → OldParty → Kernel OldParty
  | job, .queue rq mem => do
    let mem ← queueBody rq job mem
    pure (.queue rq mem)
  | .dmaMapPageAttrs h page offset size, .client dev mapped => do
    let addr ← DmaLayer.dmaMapPageAttrs dev page offset size
    if addr = DMA_MAPPING_ERROR then
      pure (.client dev mapped)
    else
      pure (.client dev (Function.update mapped h (some (addr, size))))
  | .dmaUnmapPageAttrs h, .client dev mapped =>
    match mapped h with
    | none => pure (.client dev mapped)
    | some (addr, size) => do
      DmaLayer.dmaUnmapPageAttrs dev addr size
      pure (.client dev (Function.update mapped h none))
  | _, party => pure party

def oldPool : Pool Nat KernelOp KernelOp.Ans World OldParty OldJob where
  exec := exec
  drift := Background
  ready _ := oldReady
  body := oldBody

abbrev OldConfig : Type := Config Nat KernelOp KernelOp.Ans World OldParty OldJob

/- What a queue keeps: its books, and no page in a slot of an AF_XDP queue. -/
structure Accounts (rq : Rq) (mem : OldRxMem) (v : UserView) : Prop where
  api : DmaApi rq.dev
  books : Books mem.page mem.addr mem.xdpFifo v
  slots : ∀ ix, Clean rq (mem.wqe ix).dmaInfo
  frags : Clean rq mem.frag

def PartyKeeps : OldParty → UserView → Prop
  | .queue rq mem, v => Accounts rq mem v
  | .client dev mapped, v => Client dev mapped v

section
variable {mem : OldRxMem} {ix : Nat}

/- The places before and after a WQE changes. -/

theorem page_unposted (down : mem.posted ix = false) {f : Nat → Option Page} (empty : ∀ j, f j = none) :
    overlay mem.page ix f = mem.page :=
  overlay_same fun j => by simp [OldRxMem.page, down, empty]

theorem addr_same : overlay mem.addr ix (slotAddr (mem.wqe ix).dmaInfo) = mem.addr :=
  overlay_same fun _ => rfl

theorem page_set_wqe {wi : MpwInfo} {posted : Bool} :
    OldRxMem.page { mem with
      wqe := Function.update mem.wqe ix wi, posted := Function.update mem.posted ix posted } =
    overlay mem.page ix fun j =>
      if posted = true ∧ j < MLX5_MPWRQ_PAGES_PER_WQE ∧ wi.xdpXmitBitmap j = false then
        pageIn (wi.dmaInfo j) else none :=
  eq_overlay (fun _ => rfl) (fun _ => by simp [OldRxMem.page]) fun _ other _ => by simp [OldRxMem.page, other]

theorem addr_set_wqe {wi : MpwInfo} {posted : Bool} :
    OldRxMem.addr { mem with
      wqe := Function.update mem.wqe ix wi, posted := Function.update mem.posted ix posted } =
    overlay mem.addr ix (slotAddr wi.dmaInfo) :=
  eq_overlay (fun _ => rfl) (fun _ => by simp [OldRxMem.addr, slotAddr]) fun _ other _ => by
    simp [OldRxMem.addr, other]

theorem page_unpost :
    OldRxMem.page { mem with posted := Function.update mem.posted ix false } =
      overlay mem.page ix fun _ => none :=
  eq_overlay (fun _ => rfl) (fun _ => by simp [OldRxMem.page]) fun _ other _ => by simp [OldRxMem.page, other]

theorem page_mark_xdp {i : Nat} :
    OldRxMem.page (markXdp mem ix i) = Function.update mem.page (.slot ix i) none := by
  funext l
  cases l with
  | frag n => rfl
  | slot jx j =>
    by_cases here : jx = ix
    · subst here
      by_cases same : j = i
      · subst same
        simp [OldRxMem.page, markXdp]
      · simp [OldRxMem.page, markXdp, same]
    · simp [OldRxMem.page, markXdp, here]

theorem addr_mark_xdp {i : Nat} : OldRxMem.addr (markXdp mem ix i) = mem.addr := by
  funext l
  cases l with
  | frag n => rfl
  | slot jx j =>
    by_cases here : jx = ix
    · subst here
      simp [OldRxMem.addr, markXdp]
    · simp [OldRxMem.addr, markXdp, here]

theorem page_set_frag {n : Nat} {di : DmaInfo} {inUse : Bool} :
    OldRxMem.page { mem with
      frag := Function.update mem.frag n di, fragInUse := Function.update mem.fragInUse n inUse } =
    Function.update mem.page (.frag n) (if inUse = true then pageIn di else none) :=
  eq_update_frag (fun _ _ => rfl) (by simp [OldRxMem.page]) fun _ other => by simp [OldRxMem.page, other]

theorem page_drop_frag {n : Nat} :
    OldRxMem.page { mem with fragInUse := Function.update mem.fragInUse n false } =
      Function.update mem.page (.frag n) none :=
  eq_update_frag (fun _ _ => rfl) (by simp [OldRxMem.page]) fun _ other => by simp [OldRxMem.page, other]

theorem addr_set_frag {n : Nat} {di : DmaInfo} {inUse : Nat → Bool} :
    OldRxMem.addr { mem with frag := Function.update mem.frag n di, fragInUse := inUse } =
      Function.update mem.addr (.frag n) di.addr :=
  eq_update_frag (fun _ _ => rfl) (by simp [OldRxMem.addr]) fun _ other => by simp [OldRxMem.addr, other]

end

section
variable {rq : Rq} {mem : OldRxMem} {v : UserView} (accounts : Accounts rq mem v)
include accounts

/- The driver functions on the memory of their queue. -/

theorem alloc_wqe_accounts {ix : Nat} (down : mem.posted ix = false) :
    RxAlone rq (mlx5eAllocRxMpwqe rq (mem.wqe ix)) (fun out b => Clean rq out.2.1.dmaInfo ∧
      Books (OldRxMem.page { mem with
          wqe := Function.update mem.wqe ix out.2.1,
          posted := Function.update mem.posted ix (out.1 == 0) })
        (OldRxMem.addr { mem with
          wqe := Function.update mem.wqe ix out.2.1,
          posted := Function.update mem.posted ix (out.1 == 0) }) mem.xdpFifo b) v := by
  simp only [page_set_wqe, addr_set_wqe]
  have unposted : ∀ wi : MpwInfo, (fun j => if false = true ∧ j < MLX5_MPWRQ_PAGES_PER_WQE ∧
      wi.xdpXmitBitmap j = false then pageIn (wi.dmaInfo j) else none) = fun _ => none := by
    intro wi
    funext j
    simp
  have start : Filling mem.page mem.addr mem.xdpFifo ix (mem.wqe ix).dmaInfo 0 v := by
    dsimp only [Filling]
    rw [addr_same, page_unposted down fun j => by simp [filled]]
    exact accounts.books
  have loop : RxAlone rq ((allocLoop rq MLX5_MPWRQ_PAGES_PER_WQE 0 (mem.wqe ix).dmaInfo fun _ => 0).bind
      fun run => if run.err ≠ 0 then
          (errUnmap rq run.count run.dmaInfo).bind fun _ =>
            .done (run.err, { mem.wqe ix with dmaInfo := run.dmaInfo }, run.inlineMtts)
        else .done (0, ⟨run.dmaInfo, fun _ => false⟩, run.inlineMtts))
      (fun out b => Clean rq out.2.1.dmaInfo ∧
        Books (overlay mem.page ix fun j => if (out.1 == 0) = true ∧ j < MLX5_MPWRQ_PAGES_PER_WQE ∧
            out.2.1.xdpXmitBitmap j = false then pageIn (out.2.1.dmaInfo j) else none)
          (overlay mem.addr ix (slotAddr out.2.1.dmaInfo)) mem.xdpFifo b) v := by
    simp only [RxAlone, onDevice, Tree.interp_bind]
    refine Meets.bind (alloc_loop_books accounts.api (Nat.zero_add _) (accounts.slots ix) start) ?_
    rintro run b ⟨all, clean, books⟩
    split
    · rename_i bad
      simp only [Tree.interp_bind]
      refine Meets.bind (err_unmap_books accounts.api clean books) fun _ b books => ⟨clean, ?_⟩
      have failed : (run.err == 0) = false := by simpa using bad
      have nothing : filled run.dmaInfo 0 = fun _ => none := by
        funext j
        simp [filled]
      dsimp only [Filling] at books
      rw [nothing] at books
      simp only [failed]
      exact books
    · rename_i good
      have every : filled run.dmaInfo run.count = fun j => if ((0 : Int) == 0) = true ∧
          j < MLX5_MPWRQ_PAGES_PER_WQE ∧ false = false then pageIn (run.dmaInfo j) else none := by
        funext j
        simp [filled, all (not_not.mp good)]
      refine ⟨clean, ?_⟩
      dsimp only [Filling] at books
      rwa [every] at books
  simp only [mlx5eAllocRxMpwqe, Tree.bind_eq, Tree.pure_eq]
  split
  · refine page_call_alone trivial fun enough b step => ?_
    obtain rfl : b = v := step
    split
    · exact loop
    · refine ⟨accounts.slots ix, ?_⟩
      have failed : ((-RxDriver.ENOMEM : Int) == 0) = false := by decide
      simp only [failed, unposted]
      rw [addr_same, page_unposted down fun _ => rfl]
      exact accounts.books
  · exact loop

theorem free_wqe_accounts {ix : Nat} {recycle : Bool} (up : mem.posted ix = true) :
    RxAlone rq (mlx5eFreeRxMpwqe rq (mem.wqe ix) recycle)
      (fun _ b => Books (OldRxMem.page { mem with posted := Function.update mem.posted ix false })
        mem.addr mem.xdpFifo b) v := by
  have start : overlay mem.page ix (remaining (mem.wqe ix).xdpXmitBitmap (mem.wqe ix).dmaInfo 0) =
      mem.page := overlay_same fun j => by simp [OldRxMem.page, remaining, up]
  have clear : bitmapEmpty (mem.wqe ix).xdpXmitBitmap = true →
      ∀ j < MLX5_MPWRQ_PAGES_PER_WQE, (mem.wqe ix).xdpXmitBitmap j = false := by
    intro all j below
    simpa using List.all_eq_true.mp all j (List.mem_range.mpr below)
  rw [page_unpost]
  refine free_loop_books accounts.api (Nat.zero_add _) clear (accounts.slots ix) ?_
  rw [start]
  exact accounts.books

theorem regular_of_page {ix i : Nat} {p : Page} (here : pageIn ((mem.wqe ix).dmaInfo i) = some p) :
    rq.xskPool = false := by
  rw [← Bool.not_eq_true]
  intro xsk
  have none := accounts.slots ix i xsk
  rw [here] at none
  cases none

theorem xdp_handle_accounts {ix i : Nat} {p : Page} (here : mem.page (.slot ix i) = some p)
    (holds : pageIn ((mem.wqe ix).dmaInfo i) = some p) :
    RxAlone rq (mlx5eXdpHandle rq p) (fun _ b =>
      Books (OldRxMem.page (markXdp mem ix i)) (OldRxMem.addr (markXdp mem ix i)) mem.xdpFifo b) v := by
  have mine := accounts.books.stored _ p here
  have given : Exact ((withoutRange v ⟨mem.addr (.slot ix i), PAGE_SIZE⟩).setPage p none) :=
    exact_without_page accounts.books.exact mine
  simp only [mlx5eXdpHandle, regular_of_page accounts holds, Bool.not_false, ↓reduceIte, Tree.bind_eq,
    RxAlone, onDevice, Tree.interp_bind]
  refine Meets.bind (dma_unmap_alone accounts.api accounts.books.exact mine) ?_
  rintro _ _ rfl
  refine page_call_alone (by simp [Fair, UserView.setPage]) fun _ b step => ?_
  have same : b = (withoutRange v ⟨mem.addr (.slot ix i), PAGE_SIZE⟩).setPage p none := by
    refine step.trans ?_
    simp only [UserView.setPage, Function.update_idem]
  subst same
  rw [page_mark_xdp, addr_mark_xdp]
  exact accounts.books.left here given (.returned rfl rfl)

theorem xdpsq_accounts {p : Page} {rest : List Page} {recycle : Bool} (front : mem.xdpFifo = p :: rest) :
    RxAlone rq (mlx5eFreeXdpsqDesc p recycle) (fun _ b => Books mem.page mem.addr rest b) v := by
  have books := accounts.books
  rw [front] at books
  obtain ⟨a, mine⟩ := books.page_of_line List.mem_cons_self
  exact Meets.mono (release_dynamic_alone accounts.api books.exact mine)
    fun _ b both => books.line_left both.1 both.2

/- The cache is emptied into the pool page by page. -/
theorem drain_accounts {pages : List Page} {w : UserView}
    (books : Books mem.page mem.addr (pages ++ mem.xdpFifo) w) :
    RxAlone rq (drainPages pages) (fun _ b => Books mem.page mem.addr mem.xdpFifo b) w := by
  induction pages generalizing w with
  | nil => exact books
  | cons page rest ih =>
    obtain ⟨a, mine⟩ := books.page_of_line List.mem_cons_self
    simp only [drainPages, Tree.bind_eq, RxAlone, onDevice, Tree.interp_bind]
    refine Meets.bind (release_dynamic_alone accounts.api books.exact mine) fun _ b both => ?_
    exact ih (books.line_left both.1 both.2)

theorem free_rq_accounts :
    RxAlone rq mlx5eFreeRq (fun _ b => Books mem.page mem.addr mem.xdpFifo b) v := by
  simp only [mlx5eFreeRq, Tree.bind_eq]
  refine page_call_alone trivial fun pages b step => ?_
  obtain ⟨rfl, rfl⟩ := step
  have books := accounts.books
  refine drain_accounts accounts ⟨exact_cache books.exact [], ?_, books.stored⟩
  rw [List.append_nil]
  exact books.kept.perm List.perm_append_comm

theorem get_frag_accounts {n offset : Nat} (free : offset = 0 → mem.fragInUse n = false) :
    RxAlone rq (mlx5eGetRxFrag rq offset (mem.frag n)) (fun out b =>
      Accounts rq { mem with
        frag := Function.update mem.frag n out.2,
        fragInUse := if offset = 0 then Function.update mem.fragInUse n (out.1 == 0)
          else mem.fragInUse } b) v := by
  have fine : ∀ (di : DmaInfo) (inUse : Nat → Bool) (b : UserView), NoPage rq di →
      Books (OldRxMem.page { mem with frag := Function.update mem.frag n di, fragInUse := inUse })
        (Function.update mem.addr (.frag n) di.addr) mem.xdpFifo b →
      Accounts rq { mem with frag := Function.update mem.frag n di, fragInUse := inUse } b := by
    intro di inUse b clean books
    refine ⟨accounts.api, ?_, accounts.slots, clean_update accounts.frags clean⟩
    rw [addr_set_frag]
    exact books
  unfold mlx5eGetRxFrag
  split
  · rename_i first
    have empty : mem.page (.frag n) = none := by
      simp [OldRxMem.page, free first]
    refine Meets.mono (alloc_books accounts.api accounts.books empty) ?_
    rintro ⟨err, di⟩ b ⟨(⟨bad, books⟩ | ⟨good, books⟩), clean⟩
    · have failed : (err == 0) = false := by simpa using bad
      simp only [failed]
      refine fine di _ b clean ?_
      rw [page_set_frag]
      have same : Function.update mem.page (.frag n) (if false = true then pageIn di else none) =
          mem.page := by simp [← empty]
      rw [same]
      refine books.readdress fun l p here => Function.update_of_ne (fun equal => ?_) _ _
      rw [equal, empty] at here
      cases here
    · have done : (err == 0) = true := by simpa using good
      simp only [done]
      refine fine di _ b clean ?_
      rw [page_set_frag]
      exact books
  · rename_i later
    have same : Function.update mem.frag n (mem.frag n) = mem.frag := Function.update_eq_self _ _
    show Accounts rq { mem with frag := Function.update mem.frag n (mem.frag n), fragInUse := mem.fragInUse } v
    rw [same]
    exact accounts

theorem put_frag_accounts {n : Nat} {lastInPage recycle : Bool}
    (used : lastInPage = true → mem.fragInUse n = true) :
    RxAlone rq (mlx5ePutRxFrag rq lastInPage (mem.frag n) recycle) (fun _ b =>
      Accounts rq { mem with
        fragInUse := if lastInPage = true then Function.update mem.fragInUse n false
          else mem.fragInUse } b) v := by
  cases lastInPage with
  | false => exact accounts
  | true =>
    have here : mem.page (.frag n) = pageIn (mem.frag n) := by
      simp [OldRxMem.page, used rfl]
    simp only [mlx5ePutRxFrag, ↓reduceIte]
    refine Meets.mono (release_books accounts.api accounts.books here (accounts.frags n)) fun _ b books => ?_
    refine ⟨accounts.api, ?_, accounts.slots, accounts.frags⟩
    simp only [page_drop_frag]
    exact books

end

end OldDomain
