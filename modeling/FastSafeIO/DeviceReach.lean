import FastSafeIO.AccountRuns
import FastSafeIO.AtomicRuns
import FastSafeIO.TlbCoherence

/- What the device gets at in strict mode, in a domain of the old driver and in one of the
   patched driver in which nothing is refused. -/
namespace DeviceReach
open CallTree KernelCalls DmaLayer IommuWorld IovaOwnership AgentPool LocalViews AtomicJobs UserViews
  StalePages TlbCoherence

/- The device translates x to this frame, or may still do. -/
def Reached (w : World) (x frame : Nat) : Prop := w.pt x = some frame ∨ (x, frame) ∈ w.tlb

/- Only a page of a user in the middle of a job is in the IOTLB other than as it is mapped.
   Nobody maps over what is translated, gives back a range in which something is, or calls
   the page pool while a page of its own is translated that is no longer mapped. -/
structure TlbKept {Mem Job : Type} (d : Config Nat KernelOp KernelOp.Ans World Mem Job) : Prop where
  mapped : ∀ x frame, (x, frame) ∈ d.world.tlb → d.world.pt x = some frame ∨
    ∃ u job mem t, d.world.owner x = .user u ∧ d.phase u = .busy job mem t
  mapping : ∀ u job mem iova paddr size rest,
    d.phase u = .busy job mem (.call (.iommu (.__iommuMap iova paddr size)) rest) →
      ∀ x, (⟨iova, size⟩ : Range).Has x → Gone x d.world
  freeing : ∀ u job mem iova size gather rest,
    d.phase u = .busy job mem (.call (.iommu (.iommuDmaFreeIova iova size gather)) rest) →
      ∀ x, (⟨iova, size⟩ : Range).Has x → Gone x d.world
  paging : ∀ u job mem op rest, d.phase u = .busy job mem (.call (.page op) rest) →
    ∀ x frame, d.world.owner x = .user u → (x, frame) ∈ d.world.tlb → d.world.pt x = some frame

section
variable {Mem Job : Type} {P : Pool Nat KernelOp KernelOp.Ans World Mem Job}
  {L : Limits Nat KernelOp KernelOp.Ans World Mem Job} {R : Rules Nat KernelOp KernelOp.Ans UserView Mem Job}
  {memOk : Mem → UserView → Prop} {party : Nat → Mem} {d : Config Nat KernelOp KernelOp.Ans World Mem Job}
  (calls : P.exec = exec) (drifts : P.drift = Background)

def withStale (R : Rules Nat KernelOp KernelOp.Ans UserView Mem Job) :
    Rules Nat KernelOp KernelOp.Ans (UserView × (Nat → Prop)) Mem Job where
  start u job mem v := R.start u job mem v.1
  call u job mem op r v := R.call u job mem op r v.1

/-- In strict mode, jobs that keep to their own and invalidate what they unmap. -/
theorem strict_run_keeps (follows : (userViews P calls drifts).Follows R (notingLimits L))
    (tidy : ∀ job mem, Tidy (P.body job mem))
    (jobs : ∀ u job mem v, P.ready u job mem → R.start u job mem v → memOk mem v →
      Meets ((userViews P calls drifts).ruled R u job mem) Fair memOk (P.body job mem) v)
    (new : ∀ u, memOk (party u) nothingSeen)
    (run : Reaches P L ⟨fun u => .idle (party u), startWorld false⟩ d) :
    TlbKept d ∧ ∃ h, Settled (d.world, h) ∧ ∀ u mem, d.phase u = .idle mem →
      memOk mem (seen u (d.world, h)) ∧ ∀ x frame, d.world.owner x = .user u →
        (x, frame) ∈ d.world.tlb → d.world.pt x = some frame := by
  obtain ⟨h, noted⟩ := run_noted noteHolder run fun _ => none
  obtain ⟨s, twice⟩ := run_noted noteStale noted fun _ => noStale
  have start : (staleViews calls drifts).Fine (fun mem v => memOk mem v.1 ∧ v.2 = noStale)
      ⟨fun u => .idle (party u), ((startWorld false, fun _ => none), fun _ => noStale)⟩ := by
    refine ⟨⟨start_settled false, rfl, fun _ _ cached => absurd cached List.not_mem_nil⟩, fun u => ?_⟩
    refine ⟨party u, rfl, ?_, rfl⟩
    have here : memOk (party u) (seen u (startWorld false, fun _ => none)) := by
      rw [start_seen false u]
      exact new u
    exact here
  have both : ∀ u job mem v, P.ready u job mem → (withStale R).start u job mem v →
      (memOk mem v.1 ∧ v.2 = noStale) → Meets ((staleViews calls drifts).ruled (withStale R) u job mem)
        (staleViews calls drifts).ok (fun mem v => memOk mem v.1 ∧ v.2 = noStale) (P.body job mem) v := by
    rintro u job mem ⟨v, stale⟩ ready begun ⟨holds, rfl⟩
    refine ((jobs u job mem v ready begun holds).both (tidy job mem)).among ?_
    rintro op r a b ⟨⟨step, more⟩, ruled⟩
    exact ⟨⟨step, ruled⟩, more⟩
  obtain ⟨⟨settled, coherent⟩, idle, busy⟩ := (staleViews calls drifts).run_keeps (R := withStale R) _ both
    ⟨fun u job mem w may => follows.start u job mem w.1 may,
      fun u job mem op r w may => follows.call u job mem op r w.1 may⟩ start twice
  dsimp only at settled coherent
  refine ⟨⟨fun x frame cached => ?_, ?_, ?_, ?_⟩, h, settled, fun u mem resting => ?_⟩
  · rcases coherent.entries x frame cached with present | ⟨u, mine, stale⟩
    · exact Or.inl present
    · cases phase : d.phase u with
      | idle mem =>
        have none : s u = noStale := (idle u mem phase).2
        rw [none] at stale
        exact absurd stale id
      | busy job mem t => exact Or.inr ⟨u, job, mem, t, mine, phase⟩
  · intro u job mem iova paddr size rest phase x member
    obtain ⟨fair, fresh⟩ := busy u job mem _ rest phase
    exact coherent_gone settled coherent fair.1 fair.2 fresh member
  · intro u job mem iova size gather rest phase x member
    obtain ⟨fair, fresh⟩ := busy u job mem _ rest phase
    exact coherent_gone settled coherent ⟨_, fair.1, fun _ inside => inside⟩ fair.2 fresh member
  · intro u job mem op rest phase x frame mine cached
    obtain ⟨_, fresh⟩ := busy u job mem _ rest phase
    exact coherent_own coherent mine (fresh x) cached
  · obtain ⟨holds, none⟩ := idle u mem resting
    refine ⟨holds, fun x frame mine cached => coherent_own coherent mine ?_ cached⟩
    rw [show s u = noStale from none]
    exact id

end

section
open OldRxDriver PageAccounts QueueAccounts OldDomain
open RxDriver (Rq regularRq)

theorem old_body_tidy (job : OldJob) (party : OldParty) : Tidy (oldBody job party) := by
  have onQueue : ∀ rq job mem, Tidy (queueBody rq job mem) := by
    intro rq job mem
    cases job with
    | xdpRedirect ix i =>
      simp only [queueBody]
      split
      · exact tidy_bind (on_device_tidy _ _) fun _ => rfl
      · exact rfl
    | xdpTx ix i =>
      simp only [queueBody]
      split <;> exact rfl
    | xdpTxComplete recycle =>
      simp only [queueBody]
      split
      · exact rfl
      · exact tidy_bind (on_device_tidy _ _) fun _ => rfl
    | dmaMapPageAttrs => exact rfl
    | dmaUnmapPageAttrs => exact rfl
    | _ => exact tidy_bind (on_device_tidy _ _) fun _ => rfl
  cases party with
  | queue rq mem => exact tidy_bind (onQueue rq job mem) fun _ => rfl
  | client dev mapped =>
    cases job with
    | dmaMapPageAttrs h page offset size =>
      refine tidy_bind (impl_tidy dev (.dma (.dmaMapPageAttrs page offset size))) fun ret => ?_
      split <;> exact rfl
    | dmaUnmapPageAttrs h =>
      simp only [oldBody]
      split
      · exact rfl
      · exact tidy_bind (impl_unmap_tidy dev _ _) fun _ => rfl
    | _ => exact rfl

/-- What the device reaches through the ranges of a queue at rest is the queue's pages, each
    at its address. -/
theorem old_device_reaches_pages (party : Nat → OldParty) (new : ∀ u, AccountRuns.NewParty (party u))
    (d : OldConfig)
    (run : AgentPool.Reaches oldPool AccountRuns.noLimits (AccountRuns.startOld false party) d) :
    TlbKept d ∧ ∀ u rq mem, d.phase u = .idle (.queue rq mem) → ∀ x frame, d.world.owner x = .user u →
      (Reached d.world x frame ↔ ∃ p, AccountRuns.InHand mem (d.world.cache u) p ∧
        x = d.world.dmaAddr p / PAGE_SIZE ∧ frame = p.pfn) := by
  obtain ⟨kept, h, settled, idle⟩ := strict_run_keeps rfl rfl AccountRuns.nothing_ruled_out old_body_tidy
    AccountRuns.party_job_keeps (fun u => AccountRuns.new_party_keeps (new u)) run
  refine ⟨kept, fun u rq mem resting x frame mine => ?_⟩
  obtain ⟨accounts, coherent⟩ := idle u _ resting
  have books : Books mem.page mem.addr mem.xdpFifo (seen u (d.world, h)) := accounts.books
  constructor
  · intro reached
    have present : d.world.pt x = some frame := reached.elim id (coherent x frame mine)
    obtain ⟨p, rfl, had⟩ := books.exact.pt x frame (by rw [← present]; exact if_pos mine)
    refine ⟨p, (books.kept.exact p).mp (by rw [had]; simp), ?_, rfl⟩
    rw [(seen_page.mp had).2, PAGE_SIZE, Nat.mul_div_cancel x (by norm_num)]
  · rintro ⟨p, inHand, rfl, rfl⟩
    obtain ⟨a, had⟩ := Option.ne_none_iff_exists'.mp ((books.kept.exact p).mpr inHand)
    rw [(seen_page.mp had).2]
    exact Or.inl (seen_entry (books.exact.page p a had).2.2.2)

theorem first_fragment_is_reached : ∃ (d : OldConfig) (mem : OldRxMem),
    d.phase 0 = .idle (.queue regularRq mem) ∧ mem.page (.frag 0) = some ⟨1, Nat.one_pos⟩ ∧ TlbKept d ∧
      ∀ x frame, d.world.owner x = .user 0 → (Reached d.world x frame ↔
        ∃ p, AccountRuns.InHand mem (d.world.cache 0) p ∧ x = d.world.dmaAddr p / PAGE_SIZE ∧
          frame = p.pfn) := by
  obtain ⟨d, mem, _, run, idle, page, _⟩ := AccountRuns.first_fragments_run
  obtain ⟨kept, reached⟩ := old_device_reaches_pages _ (fun _ => AccountRuns.fresh_queue_new) d run
  exact ⟨d, mem, idle, page, kept, reached 0 regularRq mem idle⟩

end

section
open RxDriver SharedDomain RxQueue BatchTable BatchedJobs AtomicRuns

theorem domain_body_tidy (job : DomainJob) (party : Party) : Tidy (domainBody job party) := by
  have onQueue : ∀ rq job mem, Tidy (body rq job mem) := by
    intro rq job mem
    cases job with
    | xdpRedirect ix i =>
      simp only [body]
      split
      · exact tidy_bind (on_device_tidy _ _) fun _ => rfl
      · exact rfl
    | xdpTx ix i =>
      simp only [body]
      split <;> exact rfl
    | xdpTxComplete recycle =>
      simp only [body]
      split
      · exact rfl
      · exact tidy_bind (on_device_tidy _ _) fun _ => rfl
    | _ => exact tidy_bind (on_device_tidy _ _) fun _ => rfl
  cases job with
  | queue job =>
    cases party with
    | queue rq mem => exact tidy_bind (onQueue rq job mem) fun _ => rfl
    | client dev mapped => exact rfl
  | dmaMapPageAttrs h page offset size =>
    cases party with
    | queue rq mem => exact rfl
    | client dev mapped =>
      refine tidy_bind (impl_tidy dev (.dma (.dmaMapPageAttrs page offset size))) fun ret => ?_
      split <;> exact rfl
  | dmaUnmapPageAttrs h =>
    cases party with
    | queue rq mem => exact rfl
    | client dev mapped =>
      simp only [domainBody]
      split
      · exact rfl
      · exact tidy_bind (impl_unmap_tidy dev _ _) fun _ => rfl

def KeepsSome (party : Party) (v : UserView) : Prop := ∃ t, Within t v ∧ BatchKeeps t party v

theorem clean_job_keeps (u : Nat) (job : DomainJob) (party : Party) (v : UserView)
    (ready : domainPool.ready u job party) (begun : cleanRules.start u job party v)
    (keeps : KeepsSome party v) :
    Meets (domainViews.ruled cleanRules u job party) Fair KeepsSome (domainPool.body job party) v := by
  obtain ⟨t, within, keeps⟩ := keeps
  obtain ⟨early, _, _, under⟩ := clean_jobs u job party v t ready begun within keeps
  refine (meets_allowing under fun _ _ fine => fine.1).mono ?_
  rintro out b ⟨_, late, _, inside, kept⟩
  exact ⟨late, inside, kept⟩

/-- In the patched driver too, as long as nothing is refused: what the device reaches through
    the ranges of a queue at rest is the pages of its posted WQEs, each at the address posted. -/
theorem clean_device_reaches_batches (party : Nat → Party) (new : ∀ u, AtomicRuns.NewParty (party u))
    (d : DomainConfig) (run : AgentPool.Reaches domainPool cleanRuns (startClean false party) d) :
    TlbKept d ∧ ∀ u rq mem, d.phase u = .idle (.queue rq mem) →
      (∀ ix i, mem.posted ix = true → i < MLX5_MPWRQ_PAGES_PER_WQE →
        mem.inlineMtts ix i = ((mem.wqe ix).dmaInfo i).addr ||| MLX5_EN_WR) ∧
      ∀ x frame, d.world.owner x = .user u →
        (Reached d.world x frame ↔ ∃ ix i page, mem.posted ix = true ∧ i < MLX5_MPWRQ_PAGES_PER_WQE ∧
          ((mem.wqe ix).dmaInfo i).buffer = .page page ∧
          x = ((mem.wqe ix).dmaInfo i).addr / PAGE_SIZE ∧ frame = page.pfn) := by
  have start : ∀ u, KeepsSome (party u) nothingSeen := fun u =>
    ⟨fun _ => none, new_party_stands (u := u) (new u)⟩
  obtain ⟨kept, h, settled, idle⟩ :=
    strict_run_keeps rfl rfl clean_follows domain_body_tidy clean_job_keeps start run
  refine ⟨kept, fun u rq mem resting => ?_⟩
  obtain ⟨⟨t, _, _, lists, shown, empty⟩, coherent⟩ := idle u _ resting
  have entry : ∀ ix, mem.posted ix = true →
      ∃ b, t ix = some b ∧ Posted b (mem.wqe ix) (mem.inlineMtts ix) := by
    intro ix up
    obtain ⟨b, here⟩ := Option.isSome_iff_exists.mp ((lists.posted ix).symm.trans up)
    exact ⟨b, here, lists.slots ix b here⟩
  refine ⟨fun ix i up below => ?_, fun x frame mine => ?_⟩
  · obtain ⟨b, _, posted⟩ := entry ix up
    rw [posted.entry i below, posted.addr i below]
  have entries := (shows_realizes lists shown empty).entries x frame mine
  have present : Reached d.world x frame ↔ d.world.pt x = some frame :=
    ⟨fun reached => reached.elim id (coherent x frame mine), Or.inl⟩
  rw [present, entries]
  constructor
  · rintro ⟨ix, b, i, here, below, rfl, rfl⟩
    have posted := lists.slots ix b here
    refine ⟨ix, i, b.page i, ?_, below, posted.buffer i below, ?_, rfl⟩
    · rw [lists.posted, here]
      rfl
    · rw [posted.addr i below]
  · rintro ⟨ix, i, page, up, below, buffer, rfl, rfl⟩
    obtain ⟨b, here, posted⟩ := entry ix up
    rw [posted.buffer i below] at buffer
    cases buffer
    exact ⟨ix, b, i, here, below, by rw [posted.addr i below], rfl⟩

theorem first_batch_is_reached : ∃ (d : DomainConfig) (mem : RxMem), mem.posted 0 = true ∧ TlbKept d ∧
    mem.inlineMtts 0 63 = ((mem.wqe 0).dmaInfo 63).addr ||| MLX5_EN_WR ∧
    ∀ x frame, d.world.owner x = .user 0 →
      (Reached d.world x frame ↔ ∃ ix i page, mem.posted ix = true ∧ i < MLX5_MPWRQ_PAGES_PER_WQE ∧
        ((mem.wqe ix).dmaInfo i).buffer = .page page ∧
        x = ((mem.wqe ix).dmaInfo i).addr / PAGE_SIZE ∧ frame = page.pfn) := by
  obtain ⟨d, rq, mem, _, _, run, idle, posted, _⟩ := first_alloc_run
  obtain ⟨kept, queues⟩ := clean_device_reaches_batches _ AtomicRuns.queue_beside_client_new d run
  obtain ⟨written, reached⟩ := queues 0 rq mem idle
  exact ⟨d, mem, posted, kept, written 0 63 posted (by decide), reached⟩

end

end DeviceReach
