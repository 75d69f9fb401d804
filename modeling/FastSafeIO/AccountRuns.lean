import FastSafeIO.OldDomain

/- Every run of a domain whose queues run the old driver: who owns what, and what each
   queue has when it is at rest. -/
namespace AccountRuns
open CallTree KernelCalls DmaLayer IommuWorld IovaOwnership AgentPool LocalViews UserViews UserMapping
  Custody OldRxDriver PageAccounts QueueAccounts ClientRanges OldDomain
open RxDriver (Rq Buffer regularRq regular_rq_api)

section
variable {rq : Rq} {mem : OldRxMem} {v : UserView}

theorem slots_with {wi : MpwInfo} {ix : Nat} (slots : ∀ ix, Clean rq (mem.wqe ix).dmaInfo)
    (here : Clean rq wi.dmaInfo) (j : Nat) : Clean rq (Function.update mem.wqe ix wi j).dmaInfo := by
  by_cases same : j = ix
  · subst same
    simpa using here
  · simpa [Function.update_of_ne same] using slots j

/- What XDP may take is a page of a posted WQE. -/
theorem xdp_ready_page {ix i : Nat} {p : Page} (here : mem.page (.slot ix i) = some p) :
    pageIn ((mem.wqe ix).dmaInfo i) = some p := by
  simp only [OldRxMem.page] at here
  split at here
  · exact here
  · cases here

theorem marked_accounts {ix i : Nat} {line : List Page} {b : UserView} (accounts : Accounts rq mem v)
    (books : Books (OldRxMem.page (markXdp mem ix i)) (OldRxMem.addr (markXdp mem ix i)) line b) :
    Accounts rq { markXdp mem ix i with xdpFifo := line } b :=
  ⟨accounts.api, books, slots_with accounts.slots (accounts.slots ix), accounts.frags⟩

theorem queue_job_keeps {job : OldJob} (accounts : Accounts rq mem v)
    (can : oldReady job (.queue rq mem)) :
    Alone (oldBody job (.queue rq mem)) PartyKeeps v := by
  cases job with
  | allocRxMpwqe ix =>
    simp only [oldBody, queueBody, Tree.bind_eq, Tree.pure_eq, Tree.bind_assoc, Tree.done_bind]
    refine Meets.bind (alloc_wqe_accounts accounts can) ?_
    rintro ⟨err, wi, mtts⟩ b ⟨clean, books⟩
    exact ⟨accounts.api, books, slots_with accounts.slots clean, accounts.frags⟩
  | freeRxMpwqe ix recycle =>
    simp only [oldBody, queueBody, Tree.bind_eq, Tree.pure_eq, Tree.bind_assoc, Tree.done_bind]
    refine Meets.bind (free_wqe_accounts accounts can) fun _ b books => ?_
    exact ⟨accounts.api, books, accounts.slots, accounts.frags⟩
  | xdpRedirect ix i =>
    obtain ⟨p, here⟩ := can
    have holds := xdp_ready_page here
    simp only [oldBody, queueBody, holds, Tree.bind_eq, Tree.pure_eq, Tree.bind_assoc, Tree.done_bind]
    refine Meets.bind (xdp_handle_accounts accounts here holds) fun _ b books => ?_
    exact marked_accounts accounts books
  | xdpTx ix i =>
    obtain ⟨p, here⟩ := can
    have holds := xdp_ready_page here
    simp only [oldBody, queueBody, holds, Tree.bind_eq, Tree.pure_eq, Tree.done_bind]
    refine marked_accounts accounts ⟨accounts.books.exact, ?_, ?_⟩
    · -- the page goes to the end of the XDP queue, in front of the cache
      rw [page_mark_xdp]
      have loosened := accounts.books.kept.loosen here
      refine loosened.perm ?_
      rw [List.append_assoc, List.append_assoc]
      exact List.Perm.append_left _ List.perm_append_comm
    · rw [page_mark_xdp, addr_mark_xdp]
      intro l q there
      rcases update_some there with ⟨_, impossible⟩ | ⟨_, found⟩
      · cases impossible
      · exact accounts.books.stored l q found
  | xdpTxComplete recycle =>
    cases front : mem.xdpFifo with
    | nil => exact absurd front can
    | cons p rest =>
      simp only [oldBody, queueBody, front, Tree.bind_eq, Tree.pure_eq, Tree.bind_assoc, Tree.done_bind]
      refine Meets.bind (xdpsq_accounts accounts front) fun _ b books => ?_
      exact ⟨accounts.api, books, accounts.slots, accounts.frags⟩
  | getRxFrag n offset =>
    simp only [oldBody, queueBody, Tree.bind_eq, Tree.pure_eq, Tree.bind_assoc, Tree.done_bind]
    exact Meets.bind (get_frag_accounts accounts can) fun _ b kept => kept
  | putRxFrag n lastInPage recycle =>
    simp only [oldBody, queueBody, Tree.bind_eq, Tree.pure_eq, Tree.bind_assoc, Tree.done_bind]
    exact Meets.bind (put_frag_accounts accounts can) fun _ b kept => kept
  | freeRq =>
    simp only [oldBody, queueBody, Tree.bind_eq, Tree.pure_eq, Tree.bind_assoc, Tree.done_bind]
    refine Meets.bind (free_rq_accounts accounts) fun _ b books => ?_
    exact ⟨accounts.api, books, accounts.slots, accounts.frags⟩
  | dmaMapPageAttrs => exact absurd can id
  | dmaUnmapPageAttrs => exact absurd can id

end

section
variable {dev : Device} {mapped : Nat → Option (Nat × Nat)} {v : UserView}

theorem client_job_keeps {job : OldJob} (ranges : Client dev mapped v)
    (can : oldReady job (.client dev mapped)) :
    Alone (oldBody job (.client dev mapped)) PartyKeeps v := by
  cases job with
  | dmaMapPageAttrs h page offset size =>
    simp only [oldBody, Tree.bind_eq, Tree.pure_eq]
    refine Meets.bind (client_map_alone ranges) fun ret b both => ?_
    split
    · exact both.1
    · rename_i good
      exact both.2 good h
  | dmaUnmapPageAttrs h =>
    simp only [oldBody]
    split
    · exact ranges
    · rename_i addr size here
      simp only [Tree.bind_eq, Tree.pure_eq]
      exact Meets.bind (client_unmap_alone ranges here) fun _ b kept => kept
  | allocRxMpwqe => exact absurd can id
  | freeRxMpwqe => exact absurd can id
  | xdpRedirect => exact absurd can id
  | xdpTx => exact absurd can id
  | xdpTxComplete => exact absurd can id
  | getRxFrag => exact absurd can id
  | putRxFrag => exact absurd can id
  | freeRq => exact absurd can id

end

/- A queue or a client that has done nothing yet. -/
def NewParty : OldParty → Prop
  | .queue rq mem => DmaApi rq.dev ∧ mem = .initial
  | .client dev mapped => DmaApi dev ∧ mapped = fun _ => none

def startOld (fq : Bool) (party : Nat → OldParty) : OldConfig :=
  ⟨fun u => .idle (party u), startWorld fq⟩

theorem new_party_keeps {party : OldParty} (new : NewParty party) : PartyKeeps party nothingSeen := by
  cases party with
  | queue rq mem =>
    obtain ⟨api, rfl⟩ := new
    have nowhere : ∀ l, OldRxMem.initial.page l = none := by
      intro l
      cases l <;> rfl
    have exact : Exact nothingSeen := by
      refine ⟨fun p a stored => ?_, fun r had => absurd had id, fun x f present => ?_⟩
      · simp [nothingSeen] at stored
      · simp [nothingSeen] at present
    refine ⟨api, ⟨exact, kept_nothing nowhere fun p => by simp [nothingSeen], fun l p here => ?_⟩,
      fun _ _ _ => rfl, fun _ _ => rfl⟩
    rw [nowhere l] at here
    cases here
  | client dev mapped =>
    obtain ⟨api, rfl⟩ := new
    refine ⟨api, fun _ _ _ _ entry => by simp at entry, ?_⟩
    rintro r ⟨h, e, entry, _⟩
    simp at entry

/- What the users of this domain see, with the holders of the pages written down. -/
abbrev oldViews : Views (noting oldPool noteHolder) UserView := userViews oldPool rfl rfl

abbrev anyRules : Rules Nat KernelOp KernelOp.Ans UserView OldParty OldJob := .any

theorem party_job_keeps (u : Nat) (job : OldJob) (party : OldParty) (v : UserView)
    (can : (noting oldPool noteHolder).ready u job party) (_ : anyRules.start u job party v)
    (keeps : PartyKeeps party v) :
    Meets (oldViews.ruled anyRules u job party) oldViews.ok PartyKeeps
      ((noting oldPool noteHolder).body job party) v := by
  have alone : Alone (oldBody job party) PartyKeeps v := by
    cases party with
    | queue rq mem => exact queue_job_keeps keeps can
    | client dev mapped => exact client_job_keeps keeps can
  exact alone.among fun _ _ _ _ here => here.1

abbrev noLimits : Limits Nat KernelOp KernelOp.Ans World OldParty OldJob := .unlimited

/- h says of every page which user got it and has not given it up, at the end of a run to d. -/
def HoldersAlong (fq : Bool) (party : Nat → OldParty) (d : OldConfig) (h : Holders) : Prop :=
  Reaches (noting oldPool noteHolder) (notingLimits noLimits)
    ⟨(startOld fq party).phase, (startWorld fq, fun _ => none)⟩ ⟨d.phase, (d.world, h)⟩

section
variable {fq : Bool} {party : Nat → OldParty} {d : OldConfig}

theorem start_fine (fq : Bool) (new : ∀ u, NewParty (party u)) :
    oldViews.Fine PartyKeeps ⟨(startOld fq party).phase, (startWorld fq, fun _ => none)⟩ := by
  refine ⟨start_settled fq, fun u => ⟨party u, rfl, ?_⟩⟩
  rw [show oldViews.see u _ = nothingSeen from start_seen fq u]
  exact new_party_keeps (new u)

theorem holders_along_run (run : Reaches oldPool noLimits (startOld fq party) d) :
    ∃ h, HoldersAlong fq party d h :=
  run_noted noteHolder run fun _ => none

theorem nothing_ruled_out : oldViews.Follows anyRules (notingLimits noLimits) :=
  ⟨fun _ _ _ _ _ => trivial, fun _ _ _ _ _ _ _ => trivial⟩

/- What is known of the last state of a run, and of the calls that are next there. -/
theorem run_with_holders (new : ∀ u, NewParty (party u)) {h : Holders}
    (along : HoldersAlong fq party d h) :
    Settled (d.world, h) ∧
      (∀ u mem, d.phase u = .idle mem → PartyKeeps mem (seen u (d.world, h))) ∧
      ∀ u job mem op rest, d.phase u = .busy job mem (.call op rest) → Fair op (seen u (d.world, h)) :=
  oldViews.run_keeps PartyKeeps party_job_keeps nothing_ruled_out (start_fine fq new) along

theorem run_to_each (new : ∀ u, NewParty (party u)) {h : Holders} (along : HoldersAlong fq party d h)
    (u : Nat) : LocalReaches (noting oldPool noteHolder) oldViews anyRules u
      (.idle (party u), nothingSeen) (d.phase u, seen u (d.world, h)) := by
  have alone := oldViews.run_is_local PartyKeeps party_job_keeps nothing_ruled_out (start_fine fq new) along u
  rwa [show oldViews.partOf u ⟨(startOld fq party).phase, (startWorld fq, fun _ => none)⟩ =
    (.idle (party u), nothingSeen) from congrArg (Prod.mk _) (start_seen fq u)] at alone

end

/- A call that gives a page up, or hands it over. -/
def givesBack : KernelOp → Option Page
  | .page (.pagePoolRecycleDirect page) => some page
  | .page (.pagePoolReleasePage page) => some page
  | .page (.putPage page) => some page
  | .page (.xdpHandOver page) => some page
  | _ => none

/- Ranges are apart and every PTE lies in exactly one; users map, unmap and give back
   only what they own, and no page is given back that is still mapped somewhere. -/
structure Orderly (d : OldConfig) : Prop where
  disjoint : d.world.live.Pairwise fun e f => e.2.Disjoint f.2
  inside : ∀ x frame, d.world.pt x = some frame → ∃! e, e ∈ d.world.live ∧ e.2.Has x
  entitled : ∀ u job mem op rest, d.phase u = .busy job mem (.call op rest) → Entitled u op d.world
  cleared : ∀ u job mem op rest page, d.phase u = .busy job mem (.call op rest) →
    givesBack op = some page → d.world.held page = true ∧ d.world.dmaAddr page = 0

theorem old_domain_is_orderly (fq : Bool) (party : Nat → OldParty) (new : ∀ u, NewParty (party u))
    (d : OldConfig) (run : Reaches oldPool noLimits (startOld fq party) d) : Orderly d := by
  obtain ⟨h, along⟩ := holders_along_run run
  obtain ⟨settled, _, fair⟩ := run_with_holders new along
  refine ⟨settled.owned.apart, fun _ _ present => mapped_in_one settled.owned present, ?_, ?_⟩
  · intro u job mem op rest busy
    cases op with
    | page op => trivial
    | iommu op => exact fair_entitled settled (fair u job mem _ rest busy)
  · intro u job mem op rest page busy gives
    have allowed := fair u job mem op rest busy
    have mine : (seen u (d.world, h)).page page = some 0 := by
      cases op with
      | iommu op => cases gives
      | page op =>
        cases op
        case pagePoolRecycleDirect q => cases gives; exact allowed
        case pagePoolReleasePage q => cases gives; exact allowed
        case putPage q => cases gives; exact allowed
        case xdpHandOver q => cases gives; exact allowed
        all_goals cases gives
    obtain ⟨holder, address⟩ := seen_page.mp mine
    refine ⟨?_, address⟩
    rw [settled.held page, holder]
    rfl

/- Two queues that have done nothing yet. -/
def freshQueue : OldParty := .queue regularRq .initial

theorem fresh_queue_new : NewParty freshQueue := ⟨regular_rq_api, rfl⟩

/- The page table takes nothing. -/
def refusing : Choices := { plentiful with mapFails := fun _ => true }

def freshClient : OldParty := .client regularRq.dev fun _ => none

def queueBesideClient (u : Nat) : OldParty := if u = 0 then freshQueue else freshClient

theorem queue_beside_client_new (u : Nat) : NewParty (queueBesideClient u) := by
  unfold queueBesideClient
  split
  · exact fresh_queue_new
  · exact ⟨regular_rq_api, rfl⟩

/- A queue has got a page, a client is given a range, and then the page cannot be mapped: the range
   it was given goes back. -/
theorem refused_page_is_orderly : ∃ (d : OldConfig) (rest : Unit → Kernel OldParty),
    d.phase 0 = .busy (.getRxFrag 0 0) freshQueue
      (.call (.iommu (.iommuDmaFreeIova 0x200000 4096 none)) rest) ∧
    d.world.live = [(0, ⟨0x200000, 4096⟩), (1, ⟨0x100000, 4096⟩)] ∧ Orderly d := by
  have out : ∃ left w asked mid rest last,
      advance (exec 0) refusing.answer 2 (oldBody (.getRxFrag 0 0) freshQueue) (startWorld false) =
        some (left, w) ∧
      advance (exec 1) refusing.answer 2 (oldBody (.dmaMapPageAttrs 0 samplePage 0 4096) freshClient) w =
        some (asked, mid) ∧
      advance (exec 0) refusing.answer 3 left mid =
        some (.call (.iommu (.iommuDmaFreeIova 0x200000 4096 none)) rest, last) ∧
      last.live = [(0, ⟨0x200000, 4096⟩), (1, ⟨0x100000, 4096⟩)] :=
    ⟨_, _, _, _, _, _, rfl, rfl, rfl, rfl⟩
  obtain ⟨left, w, asked, mid, rest, last, gotPage, asks, refused, live⟩ := out
  have first := start_advance_reaches (P := oldPool) (L := noLimits) (u := 0)
    (c := startOld false queueBesideClient) (.getRxFrag 0 0) freshQueue rfl (fun _ => rfl) trivial
    (fun _ _ _ _ same => ⟨trivial, same⟩) gotPage
  have second := first.trans (start_advance_reaches (u := 1) (OldJob.dmaMapPageAttrs 0 samplePage 0 4096)
    freshClient rfl rfl trivial (fun _ _ _ _ same => ⟨trivial, same⟩) asks)
  have run := second.trans (advance_reaches (u := 0) (OldJob.getRxFrag 0 0) freshQueue
    (fun _ _ _ _ same => ⟨trivial, same⟩) rfl refused)
  exact ⟨_, rest, rfl, live, old_domain_is_orderly false _ queue_beside_client_new _ run⟩

/- The pages a queue has at rest: in its slots, on its XDP queue, in its cache. -/
def InHand (mem : OldRxMem) (cache : List Page) (p : Page) : Prop :=
  (∃ l, mem.page l = some p) ∨ p ∈ mem.xdpFifo ++ cache

/- The pages that went to the queue are the ones in its hand, each of them once, and no other page
   but those that went to some user is out of the pool. Each page in hand has one range, in which
   it alone is mapped, and slots name the address; the queue has no other range. -/
structure Balanced (u : Nat) (mem : OldRxMem) (w : World) (h : Holders) : Prop where
  once : ∀ l k p, mem.page l = some p → mem.page k = some p → l = k
  line : (mem.xdpFifo ++ w.cache u).Nodup
  apart : ∀ l p, mem.page l = some p → p ∉ mem.xdpFifo ++ w.cache u
  named : ∀ l p, mem.page l = some p → w.dmaAddr p = mem.addr l
  pages : ∀ p, h p = some u ↔ InHand mem (w.cache u) p
  out : ∀ p, w.held p = true ↔ ∃ v, h p = some v
  mapped : ∀ p, InHand mem (w.cache u) p → w.pt (w.dmaAddr p / PAGE_SIZE) = some p.pfn
  ranges : ∀ r, (u, r) ∈ w.live ↔ ∃ p, InHand mem (w.cache u) p ∧ r = ⟨w.dmaAddr p, PAGE_SIZE⟩

theorem accounts_balanced {u : Nat} {rq : Rq} {mem : OldRxMem} {w : World} {h : Holders}
    (settled : Settled (w, h)) (accounts : Accounts rq mem (seen u (w, h))) : Balanced u mem w h := by
  have books := accounts.books
  have hand : ∀ p, h p = some u ↔ InHand mem (w.cache u) p :=
    fun p => seen_not_page.symm.trans (books.kept.exact p)
  have stored : ∀ p, InHand mem (w.cache u) p → (seen u (w, h)).page p = some (w.dmaAddr p) :=
    fun p inHand => seen_page.mpr ⟨(hand p).mpr inHand, rfl⟩
  refine ⟨books.kept.once, books.kept.nodup, books.kept.apart, fun l p here => ?_, hand, fun p => ?_,
    fun p inHand => ?_, fun r => ⟨fun mine => ?_, ?_⟩⟩
  · exact (seen_page.mp (books.stored l p here)).2
  · rw [settled.held p, Option.isSome_iff_exists]
  · exact seen_entry (books.exact.page p _ (stored p inHand)).2.2.2
  · obtain ⟨p, a, had, rfl⟩ := books.exact.range r mine
    refine ⟨p, (books.kept.exact p).mp (by rw [had]; simp), ?_⟩
    rw [(seen_page.mp had).2]
  · rintro ⟨p, inHand, rfl⟩
    exact (books.exact.page p _ (stored p inHand)).2.2.1

/-- Between its jobs a queue has exactly the pages that went to it, with exactly their ranges and
    mappings, and shares none of them with another queue. -/
theorem old_queue_is_balanced (fq : Bool) (party : Nat → OldParty) (new : ∀ u, NewParty (party u))
    (d : OldConfig) (run : Reaches oldPool noLimits (startOld fq party) d) :
    (∃ h, HoldersAlong fq party d h) ∧ ∀ h, HoldersAlong fq party d h →
      ∀ u rq mem, d.phase u = .idle (.queue rq mem) → Balanced u mem d.world h ∧
        ∀ v rq' mem', v ≠ u → d.phase v = .idle (.queue rq' mem') →
          ∀ p, InHand mem (d.world.cache u) p → ¬ InHand mem' (d.world.cache v) p := by
  refine ⟨holders_along_run run, fun h along u rq mem idle => ?_⟩
  obtain ⟨settled, keeps, _⟩ := run_with_holders new along
  have mine : Accounts rq mem (seen u (d.world, h)) := keeps u _ idle
  refine ⟨accounts_balanced settled mine, fun v rq' mem' other idle' p here there => ?_⟩
  have theirs : Accounts rq' mem' (seen v (d.world, h)) := keeps v _ idle'
  have first := seen_not_page.mp ((mine.books.kept.exact p).mpr here)
  have second := seen_not_page.mp ((theirs.books.kept.exact p).mpr there)
  exact other (Option.some.inj (second.symm.trans first))

/- Two queues get a page for their first fragment, the second while the first has its page but no
   range yet. -/
theorem first_fragments_run : ∃ (d : OldConfig) (mem mem' : OldRxMem),
    Reaches oldPool noLimits (startOld false fun _ => freshQueue) d ∧
      d.phase 0 = .idle (.queue regularRq mem) ∧ mem.page (.frag 0) = some ⟨1, Nat.one_pos⟩ ∧
      d.phase 1 = .idle (.queue regularRq mem') ∧ mem'.page (.frag 0) = some ⟨2, Nat.two_pos⟩ := by
  have out : ∃ left w mem' mid mem last,
      advance (exec 0) plentiful.answer 2 (oldBody (.getRxFrag 0 0) freshQueue) (startWorld false) =
        some (left, w) ∧
      advance (exec 1) plentiful.answer 6 (oldBody (.getRxFrag 0 0) freshQueue) w =
        some (.done (.queue regularRq mem'), mid) ∧
      advance (exec 0) plentiful.answer 4 left mid = some (.done (.queue regularRq mem), last) ∧
      mem.page (.frag 0) = some ⟨1, Nat.one_pos⟩ ∧ mem'.page (.frag 0) = some ⟨2, Nat.two_pos⟩ :=
    ⟨_, _, _, _, _, _, rfl, rfl, rfl, rfl, rfl⟩
  obtain ⟨left, w, mem', mid, mem, last, gotPage, other, rest, page, page'⟩ := out
  have first := start_advance_reaches (P := oldPool) (L := noLimits) (u := 0)
    (c := startOld false fun _ => freshQueue) (.getRxFrag 0 0) freshQueue rfl (fun _ => rfl) trivial
    (fun _ _ _ _ same => ⟨trivial, same⟩) gotPage
  have second := first.trans (job_run_reaches (u := 1) (OldJob.getRxFrag 0 0) freshQueue rfl
    (fun _ => rfl) trivial (fun _ _ _ _ same => ⟨trivial, same⟩) other)
  have run := second.trans (advance_ends (u := 0) (OldJob.getRxFrag 0 0) freshQueue
    (fun _ _ _ _ same => ⟨trivial, same⟩) rfl rest)
  exact ⟨_, mem, mem', run, rfl, page, rfl, page'⟩

theorem first_fragments_are_balanced : ∃ (d : OldConfig) (mem mem' : OldRxMem) (h : Holders),
    mem.page (.frag 0) = some ⟨1, Nat.one_pos⟩ ∧ mem'.page (.frag 0) = some ⟨2, Nat.two_pos⟩ ∧
      Balanced 0 mem d.world h ∧ Balanced 1 mem' d.world h := by
  obtain ⟨d, mem, mem', run, idle, page, idle', page'⟩ := first_fragments_run
  obtain ⟨⟨h, along⟩, balanced⟩ :=
    old_queue_is_balanced false _ (fun _ => fresh_queue_new) d run
  exact ⟨d, mem, mem', h, page, page', (balanced h along 0 regularRq mem idle).1,
    (balanced h along 1 regularRq mem' idle').1⟩

/-- To a queue or a client, a run among the others is a run by itself on what it sees. -/
theorem old_party_runs_alone (fq : Bool) (party : Nat → OldParty) (new : ∀ u, NewParty (party u))
    (d : OldConfig) (run : Reaches oldPool noLimits (startOld fq party) d) :
    (∃ h, HoldersAlong fq party d h) ∧ ∀ h, HoldersAlong fq party d h →
      ∀ u, LocalReaches (noting oldPool noteHolder) oldViews anyRules u
        (.idle (party u), nothingSeen) (d.phase u, seen u (d.world, h)) :=
  ⟨holders_along_run run, fun _ along => run_to_each new along⟩

theorem first_fragments_run_alone : ∃ (d : OldConfig) (mem mem' : OldRxMem) (h : Holders),
    mem.page (.frag 0) = some ⟨1, Nat.one_pos⟩ ∧ mem'.page (.frag 0) = some ⟨2, Nat.two_pos⟩ ∧
      LocalReaches (noting oldPool noteHolder) oldViews anyRules 0 (.idle freshQueue, nothingSeen)
        (.idle (.queue regularRq mem), seen 0 (d.world, h)) ∧
      LocalReaches (noting oldPool noteHolder) oldViews anyRules 1 (.idle freshQueue, nothingSeen)
        (.idle (.queue regularRq mem'), seen 1 (d.world, h)) := by
  obtain ⟨d, mem, mem', run, idle, page, idle', page'⟩ := first_fragments_run
  obtain ⟨⟨h, along⟩, alone⟩ := old_party_runs_alone false _ (fun _ => fresh_queue_new) d run
  have here := alone h along 0
  have there := alone h along 1
  rw [idle] at here
  rw [idle'] at there
  exact ⟨d, mem, mem', h, page, page', here, there⟩

end AccountRuns
