import FastSafeIO.BatchedJobs
import FastSafeIO.ClientRanges

/- Runs of the patched driver in which nothing is refused. Between them, the queues of a
   domain do what a table of whole batches does. -/
namespace AtomicRuns
open CallTree KernelCalls DmaLayer RxDriver IommuWorld IovaOwnership AgentPool RxQueue LocalViews
  AtomicJobs UserViews UserMapping ViewFrames SharedDomain BatchTable BatchedJobs ClientRanges

/- Queues allocate and free WQEs, the others map and unmap pages. -/
def cleanJob : DomainJob → Prop
  | .queue (.allocRxMpwqe _) => True
  | .queue (.freeRxMpwqe _ _) => True
  | .queue _ => False
  | _ => True

def cleanRuns : DomainLimits where
  start _ job _ _ := cleanJob job
  call _ job _ op r _ := cleanCall job op r

abbrev cleanRules : Rules Nat KernelOp KernelOp.Ans UserView Party DomainJob where
  start _ job _ _ := cleanJob job
  call _ job _ op r _ := cleanCall job op r

/- What the users of this domain see, with the holders of the pages written down. -/
abbrev domainViews : Views (noting domainPool noteHolder) UserView := userViews domainPool rfl rfl

theorem clean_follows : domainViews.Follows cleanRules (notingLimits cleanRuns) :=
  ⟨fun _ _ _ _ allowed => allowed, fun _ _ _ _ _ _ allowed => allowed⟩

theorem clean_frames (job : DomainJob) : Frames (cleanStep job) Fair Beside where
  fine := user_frames.fine
  kept := by
    intro op r m f v after apart fair here
    obtain ⟨mine, step, still⟩ := user_frames.kept op r m f v after apart fair here.1
    exact ⟨mine, ⟨step, here.2⟩, still⟩

/- What the queue's memory says of its table. -/
structure Lists (t : Table) (mem : RxMem) : Prop where
  posted : ∀ ix, mem.posted ix = (t ix).isSome
  slots : ∀ ix b, t ix = some b → Posted b (mem.wqe ix) (mem.inlineMtts ix)

/- Where a job that frees a WQE begins, its batch leaves the table. -/
def Retires : DomainJob → Party → Table → Table → Prop
  | .queue (.freeRxMpwqe ix _), .queue _ mem, s, t =>
    ∃ b, s ix = some b ∧ Posted b (mem.wqe ix) (mem.inlineMtts ix) ∧ t = s.set ix none
  | _, _, s, t => t = s

/- Where a job that fills a WQE ends, the batch it posted enters the table. -/
def Posts : DomainJob → Party → Table → Table → Prop
  | .queue (.allocRxMpwqe ix), .queue _ out, s, t =>
    ∃ b, s ix = none ∧ Posted b (out.wqe ix) (out.inlineMtts ix) ∧ t = s.set ix (some b)
  | _, _, s, t => t = s

theorem table_changes {job : DomainJob} {party : Party} {s t : Table}
    (changed : Retires job party s t ∨ Posts job party s t) :
    t = s ∨ (∃ ix, t = s.set ix none) ∨ ∃ ix b, s ix = none ∧ t = s.set ix (some b) := by
  rcases changed with retired | posted
  · unfold Retires at retired
    split at retired
    · obtain ⟨_, _, _, same⟩ := retired
      exact Or.inr (Or.inl ⟨_, same⟩)
    · exact Or.inl retired
  · unfold Posts at posted
    split at posted
    · obtain ⟨b, free, _, same⟩ := posted
      exact Or.inr (Or.inr ⟨_, b, free, same⟩)
    · exact Or.inl posted

theorem users_apart {u v ix jx : Nat} {w : World × Holders} {s t : Table} {b c : Batch} (settled : Settled w)
    (mine : Within s (seen u w)) (other : Within t (seen v w)) (distinct : u ≠ v) (here : s ix = some b)
    (there : t jx = some c) : b.Apart c := by
  refine ⟨?_, fun i below j under same => distinct ?_⟩
  · have first : (u, b.range) ∈ w.1.live := mine.range ix b here
    have second : (v, c.range) ∈ w.1.live := other.range jx c there
    exact live_disjoint settled.owned first second fun same => distinct (Prod.mk.inj same).1
  · have first := (seen_page.mp (mine.page ix b i here below)).1
    have second := (seen_page.mp (other.page jx c j there under)).1
    rw [same, second] at first
    exact (Option.some.inj first).symm

def batchAbstraction : Abstraction domainViews Table where
  within := Within
  begins := Retires
  ends := Posts
  step := TableStep
  joins := by
    intro w tables u job party s settled within changed inside
    rcases table_changes changed with rfl | ⟨ix, rfl⟩ | ⟨ix, b, free, rfl⟩
    · rw [Function.update_eq_self]
    · exact .single .retire
    · refine .single (.post free fun v jx c there => ?_)
      have here : (tables u).set ix (some b) ix = some b := by simp [Table.set]
      by_cases same : v = u
      · subst same
        have different : ix ≠ jx := by
          rintro rfl
          rw [free] at there
          cases there
        refine inside.apart ix jx b c here ?_ different
        simpa [Table.set, Function.update_of_ne (Ne.symm different)] using there
      · exact users_apart settled inside (within v) (Ne.symm same) here there

def BatchKeeps : Table → Party → UserView → Prop
  | t, .queue rq mem, v =>
    (DmaApi rq.dev ∧ rq.xskPool = false) ∧ Lists t mem ∧ Shows t v ∧ v.cache = []
  | t, .client dev mapped, v => t = (fun _ => none) ∧ Client dev mapped v

section
variable {rq : Rq} {mem : RxMem} {t : Table} {b : Batch} {ix : Nat}

theorem lists_posted {wi : MpwInfo} {mtts : Nat → Nat} (lists : Lists t mem) (posted : Posted b wi mtts) :
    Lists (t.set ix (some b))
      { mem.setWqe ix wi true with inlineMtts := Function.update mem.inlineMtts ix mtts } := by
  refine ⟨fun jx => ?_, fun jx c there => ?_⟩
  · by_cases same : jx = ix
    · subst same
      simp [RxMem.setWqe, Table.set]
    · simpa [RxMem.setWqe, Table.set, Function.update_of_ne same] using lists.posted jx
  · rcases set_some there with ⟨rfl, new⟩ | ⟨other, old⟩
    · cases new
      simpa [RxMem.setWqe] using posted
    · simpa [RxMem.setWqe, Function.update_of_ne other] using lists.slots jx c old

theorem lists_retired {wi : MpwInfo} (lists : Lists t mem) :
    Lists (t.set ix none) (mem.setWqe ix wi false) := by
  refine ⟨fun jx => ?_, fun jx c there => ?_⟩
  · by_cases same : jx = ix
    · subst same
      simp [RxMem.setWqe, Table.set]
    · simpa [RxMem.setWqe, Table.set, Function.update_of_ne same] using lists.posted jx
  · rcases set_some there with ⟨_, impossible⟩ | ⟨other, old⟩
    · cases impossible
    · simpa [RxMem.setWqe, Function.update_of_ne other] using lists.slots jx c old

end

/- The rest of a job, in a view of which a table says something. -/
abbrev UnderTable (u : Nat) (job : DomainJob) (party : Party) (t : Table) (p : Kernel Party)
    (v : UserView) : Prop := Under batchAbstraction cleanRules BatchKeeps u job party t p v

/- A program on its own part, beside a table. -/
theorem beside_table {α : Type} {job : DomainJob} {p : Kernel α} {post : α → UserView → Prop}
    {t : Table} {m f v : UserView} (meets : Meets (cleanStep job) Fair post p m) (apart : Beside m f v)
    (seen : Shows t f) :
    Meets (cleanStep job) (fun op v => Fair op v ∧ Within t v)
      (fun a v => ∃ m, Beside m f v ∧ post a m) p v := by
  refine meets_allowing (meets_framed (clean_frames job) meets apart) ?_
  rintro op v ⟨fair, m, still⟩
  exact ⟨fair, beside_within still seen⟩

section
variable {rq : Rq} {mem : RxMem} {t : Table} {v : UserView} {u ix : Nat}

theorem alloc_under (route : DmaApi rq.dev ∧ rq.xskPool = false) (lists : Lists t mem) (seen : Shows t v)
    (empty : v.cache = []) (free : t ix = none) :
    UnderTable u (.queue (.allocRxMpwqe ix)) (.queue rq mem) t
      (domainBody (.queue (.allocRxMpwqe ix)) (.queue rq mem)) v := by
  have alone : Allocates ix (onDevice rq.dev (mlx5eAllocRxMpwqe rq (mem.wqe ix))) _ nothingSeen :=
    alloc_allocates route.1 route.2
  simp only [domainBody, RxQueue.body, Tree.bind_eq, Tree.pure_eq, Tree.bind_assoc, Tree.done_bind]
  refine Meets.bind (beside_table alone (nothing_beside seen empty) seen) ?_
  rintro ⟨err, wi, mtts⟩ after ⟨m, apart, good, b, whole, posted⟩
  dsimp only at good
  subst good
  have now := whole_joins apart whole seen free
  have bare : after.cache = [] := apart.cache.trans whole.cache
  have after : Lists (t.set ix (some b)) _ := lists_posted lists posted
  exact ⟨beside_within apart seen, t.set ix (some b),
    ⟨b, free, after.slots ix b (by simp [Table.set]), rfl⟩, shows_within now bare, route, after, now, bare⟩

theorem free_under {recycle : Bool} {b : Batch} (route : DmaApi rq.dev ∧ rq.xskPool = false)
    (lists : Lists t mem) (seen : Shows t v) (empty : v.cache = []) (here : t ix = some b) :
    UnderTable u (.queue (.freeRxMpwqe ix recycle)) (.queue rq mem) (t.set ix none)
      (domainBody (.queue (.freeRxMpwqe ix recycle)) (.queue rq mem)) v := by
  have others := others_shows seen here
  have alone : Meets (cleanStep (.queue (.freeRxMpwqe ix recycle))) Fair (fun _ b => b = nothingSeen)
      (onDevice rq.dev (mlx5eFreeRxMpwqe rq (mem.wqe ix) recycle)) (b.part v) :=
    Meets.among (free_wqe_alone route.1 route.2 (part_whole seen here) (lists.slots ix b here))
      fun _ _ _ _ step => step.1
  simp only [domainBody, RxQueue.body, Tree.bind_eq, Tree.pure_eq, Tree.bind_assoc, Tree.done_bind]
  refine Meets.bind (beside_table alone (part_beside seen empty here) others) ?_
  rintro wi after ⟨m, apart, rfl⟩
  obtain ⟨now, bare⟩ := nothing_left apart others
  exact ⟨shows_within now bare, t.set ix none, rfl, shows_within now bare, route,
    lists_retired lists, now, bare⟩

end

theorem client_changes_nothing (job : DomainJob) {dev : Device} {mapped : Nat → Option (Nat × Nat)}
    (t : Table) : Retires job (.client dev mapped) t t ∧ Posts job (.client dev mapped) t t := by
  cases job with
  | queue job => cases job <;> exact ⟨rfl, rfl⟩
  | dmaMapPageAttrs => exact ⟨rfl, rfl⟩
  | dmaUnmapPageAttrs => exact ⟨rfl, rfl⟩

theorem client_under {u : Nat} {job : DomainJob} {dev : Device} {mapped : Nat → Option (Nat × Nat)}
    {v : UserView} (client : Client dev mapped v) (ready : domainReady job (.client dev mapped)) :
    UnderTable u job (.client dev mapped) (fun _ => none) (domainBody job (.client dev mapped)) v := by
  have nothing : ∀ v, Within (fun _ => none) v := by
    intro v
    refine ⟨fun _ _ here => ?_, fun _ _ _ here => ?_, fun _ _ _ here => ?_, fun _ _ _ _ here => ?_⟩ <;>
      cases here
  have keep : ∀ {dev mapped v}, Client dev mapped v → ∃ late,
      Posts job (.client dev mapped) (fun _ => none) late ∧ Within late v ∧
        BatchKeeps late (.client dev mapped) v :=
    fun client => ⟨fun _ => none, (client_changes_nothing job _).2, nothing _, rfl, client⟩
  have alone : Alone (domainBody job (.client dev mapped)) (fun out v => Within (fun _ => none) v ∧
      ∃ late, Posts job out (fun _ => none) late ∧ Within late v ∧ BatchKeeps late out v) v := by
    cases job with
    | queue job => exact absurd ready id
    | dmaMapPageAttrs h page offset size =>
      simp only [domainBody, Tree.bind_eq, Tree.pure_eq]
      refine Meets.bind (client_map_alone client) fun ret b both => ?_
      split
      · exact ⟨nothing b, keep both.1⟩
      · rename_i good
        exact ⟨nothing b, keep (both.2 good h)⟩
    | dmaUnmapPageAttrs h =>
      simp only [domainBody]
      split
      · exact ⟨nothing v, keep client⟩
      · rename_i addr size here
        simp only [Tree.bind_eq, Tree.pure_eq]
        exact Meets.bind (client_unmap_alone client here) fun _ b kept => ⟨nothing b, keep kept⟩
  exact meets_allowing (Meets.among alone fun _ _ _ _ step => step.1) fun _ v fair => ⟨fair, nothing v⟩

theorem clean_jobs : Atomic batchAbstraction cleanRules BatchKeeps := by
  intro u job party v t ready begun inside keeps
  cases party with
  | client dev mapped =>
    obtain ⟨rfl, client⟩ := keeps
    exact ⟨_, (client_changes_nothing job _).1, inside, client_under client ready⟩
  | queue rq mem =>
    obtain ⟨route, lists, seen, empty⟩ := keeps
    cases job with
    | dmaMapPageAttrs => exact absurd ready id
    | dmaUnmapPageAttrs => exact absurd ready id
    | queue job =>
      cases job with
      | allocRxMpwqe ix =>
        have free : t ix = none := by
          have down : mem.posted ix = false := ready.2
          rw [lists.posted] at down
          simpa using down
        exact ⟨t, rfl, inside, alloc_under route lists seen empty free⟩
      | freeRxMpwqe ix recycle =>
        have posted : (t ix).isSome = true := (lists.posted ix).symm.trans ready.2
        obtain ⟨b, here⟩ := Option.isSome_iff_exists.mp posted
        refine ⟨t.set ix none, ⟨b, here, lists.slots ix b here, rfl⟩, ?_,
          free_under route lists seen empty here⟩
        exact beside_within (part_beside seen empty here) (others_shows seen here)
      | xdpRedirect => exact absurd begun id
      | xdpTx => exact absurd begun id
      | xdpTxComplete => exact absurd begun id
      | freeRq => exact absurd begun id
      | buildShampoHdUmr => exact absurd begun id
      | shampoDeallocHd => exact absurd begun id
      | freeRxShampoHdEntry => exact absurd begun id

/- A queue without an AF_XDP pool or a client, and nothing done yet. -/
def NewParty : Party → Prop
  | .queue rq mem => (DmaApi rq.dev ∧ rq.xskPool = false) ∧ mem = .initial
  | .client dev mapped => DmaApi dev ∧ mapped = fun _ => none

theorem nothing_shows : Shows (fun _ => none) nothingSeen := by
  refine ⟨fun p a => ?_, fun r => ?_, fun x frame => ?_, fun _ _ _ _ here => ?_⟩
  · simp [nothingSeen]
  · simp [nothingSeen]
  · simp [nothingSeen]
  · cases here

theorem new_party_stands {u : Nat} {party : Party} (new : NewParty party) :
    Standing batchAbstraction cleanRules BatchKeeps u (fun _ => none) nothingSeen
      (.idle party : Phase KernelOp KernelOp.Ans Party DomainJob) := by
  refine ⟨shows_within nothing_shows rfl, ?_⟩
  cases party with
  | queue rq mem =>
    obtain ⟨route, rfl⟩ := new
    exact ⟨route, ⟨fun _ => rfl, fun _ _ here => absurd here (by simp)⟩, nothing_shows, rfl⟩
  | client dev mapped =>
    obtain ⟨api, rfl⟩ := new
    refine ⟨rfl, api, fun _ _ _ _ entry => by simp at entry, ?_⟩
    rintro r ⟨h, e, entry, _⟩
    simp at entry

def startClean (fq : Bool) (party : Nat → Party) : DomainConfig :=
  ⟨fun u => .idle (party u), startWorld fq⟩

/- A posted batch as the IOMMU and the pool have it. -/
structure Intact (u : Nat) (b : Batch) (w : World) : Prop where
  live : (u, b.range) ∈ w.live
  held : ∀ i < 64, w.held (b.page i) = true
  stored : ∀ i < 64, w.dmaAddr (b.page i) = b.addr i
  mapped : ∀ i < 64, w.pt (b.addr i / PAGE_SIZE) = some (b.page i).pfn

/- The queue's memory, its ranges and what is mapped for it are the table, and nothing
   else. -/
structure Realizes (u : Nat) (mem : RxMem) (t : Table) (w : World) : Prop where
  lists : Lists t mem
  ranges : ∀ r, (u, r) ∈ w.live ↔ ∃ ix b, t ix = some b ∧ r = b.range
  entries : ∀ x frame, w.owner x = .user u → (w.pt x = some frame ↔
    ∃ ix b i, t ix = some b ∧ i < 64 ∧ x = b.addr i / PAGE_SIZE ∧ frame = (b.page i).pfn)
  cache : w.cache u = []

theorem addr_page (b : Batch) (i : Nat) : b.addr i / PAGE_SIZE = b.base / PAGE_SIZE + i := by
  have aligned := b.aligned
  simp only [Batch.addr, PAGE_SIZE] at aligned ⊢
  omega

theorem within_intact {u ix : Nat} {t : Table} {b : Batch} {w : World} {h : Holders}
    (settled : Settled (w, h)) (within : Within t (seen u (w, h))) (here : t ix = some b) :
    Intact u b w := by
  have page : ∀ i < 64, h (b.page i) = some u ∧ w.dmaAddr (b.page i) = b.addr i :=
    fun i below => seen_page.mp (within.page ix b i here below)
  refine ⟨within.range ix b here, fun i below => ?_, fun i below => (page i below).2, fun i below => ?_⟩
  · refine (settled.held _).trans ?_
    rw [show (w, h).2 (b.page i) = some u from (page i below).1]
    rfl
  · rw [addr_page]
    exact seen_entry (within.entry ix b i here below)

theorem shows_realizes {u : Nat} {t : Table} {mem : RxMem} {w : World} {h : Holders}
    (lists : Lists t mem) (shown : Shows t (seen u (w, h))) (empty : (seen u (w, h)).cache = []) :
    Realizes u mem t w := by
  refine ⟨lists, shown.range, fun x frame mine => ?_, empty⟩
  have entry : (seen u (w, h)).pt x = w.pt x := if_pos mine
  simp only [addr_page]
  rw [← entry]
  exact shown.pt x frame

/- The table of a queue or a client, by what it is doing: while a WQE is being filled it is not in
   the table yet, and while one is being freed it is no longer. -/
def Suits (u : Nat) (t : Table) (w : World) : Phase KernelOp KernelOp.Ans Party DomainJob → Prop
  | .idle (.queue _ mem) => Realizes u mem t w
  | .busy (.queue (.freeRxMpwqe ix _)) (.queue _ mem) _ => t ix = none ∧ ∃ b, Lists (t.set ix (some b)) mem
  | .busy _ (.queue _ mem) _ => Lists t mem
  | .idle (.client _ _) => t = fun _ => none
  | .busy _ (.client _ _) _ => t = fun _ => none

structure Matched (d : DomainConfig) (tables : Nat → Table) : Prop where
  apart : AllApart tables
  intact : ∀ u ix b, tables u ix = some b → Intact u b d.world
  suits : ∀ u, Suits u (tables u) d.world (d.phase u)

theorem begun_suits {u : Nat} {job : DomainJob} {party : Party} {before s : Table} {v : UserView}
    (keeps : BatchKeeps before party v) (begun : Retires job party before s) (w : World)
    (rest : Kernel Party) : Suits u s w (.busy job party rest) := by
  cases party with
  | client dev mapped =>
    obtain ⟨rfl, _⟩ := keeps
    cases job with
    | queue job => cases job <;> exact begun
    | dmaMapPageAttrs => exact begun
    | dmaUnmapPageAttrs => exact begun
  | queue rq mem =>
    obtain ⟨_, lists, _, _⟩ := keeps
    have unchanged : s = before → Lists s mem := fun same => same ▸ lists
    cases job with
    | dmaMapPageAttrs => exact unchanged begun
    | dmaUnmapPageAttrs => exact unchanged begun
    | queue job =>
      cases job with
      | freeRxMpwqe ix recycle =>
        obtain ⟨b, here, _, rfl⟩ := begun
        refine ⟨by simp [Table.set], b, ?_⟩
        rwa [Table.set, Table.set, Function.update_idem, ← here, Function.update_eq_self]
      | _ => exact unchanged begun

theorem standing_suits {u : Nat} {t : Table} {w : World} {h : Holders}
    {phase : Phase KernelOp KernelOp.Ans Party DomainJob}
    (stands : Standing batchAbstraction cleanRules BatchKeeps u t (seen u (w, h)) phase) :
    Suits u t w phase := by
  cases phase with
  | idle party =>
    cases party with
    | queue rq mem =>
      obtain ⟨_, _, lists, shown, empty⟩ := stands
      exact shows_realizes lists shown empty
    | client dev mapped => exact stands.2.1
  | busy job party rest =>
    obtain ⟨⟨before, v, keeps, begun⟩, _⟩ := stands
    exact begun_suits keeps begun w rest

theorem steps_along {s : Nat → Nat → Table} (steps : ∀ n, Relation.ReflGen TableStep (s n) (s (n + 1)))
    (n : Nat) : Relation.ReflTransGen TableStep (s 0) (s n) := by
  induction n with
  | zero => exact .refl
  | succ n ih => exact ih.trans (steps n).to_reflTransGen

/- A step of the domain and what the tables do beside it. -/
abbrev TableMove : DomainConfig × (Nat → Table) → DomainConfig × (Nat → Table) → Prop :=
  Joint domainPool cleanRuns Retires Posts

/-- Beside every run in which nothing is refused there is a run of the tables, matched at every
    moment: a job that frees a WQE retires its batch where it begins, one that fills a WQE posts
    a batch where it ends, and nothing else changes a table. -/
theorem clean_domain_is_atomic (fq : Bool) (party : Nat → Party) (new : ∀ u, NewParty (party u))
    (c : Nat → DomainConfig) (start : c 0 = startClean fq party)
    (run : ∀ n, Relation.ReflGen (Step domainPool cleanRuns) (c n) (c (n + 1))) :
    ∃ tables : Nat → Nat → Table, tables 0 = noBatches ∧ ∀ n,
      Relation.ReflGen TableMove (c n, tables n) (c (n + 1), tables (n + 1)) ∧
      Relation.ReflGen TableStep (tables n) (tables (n + 1)) ∧ Matched (c n) (tables n) := by
  have standing : ∀ u, Standing batchAbstraction cleanRules BatchKeeps u (noBatches u)
      (seen u ((c 0).world, fun _ => none)) ((c 0).phase u) := by
    intro u
    rw [start, show seen u ((startClean fq party).world, fun _ => none) = nothingSeen from start_seen fq u]
    exact new_party_stands (new u)
  have settled : Settled ((c 0).world, fun _ => none) := by
    rw [start]
    exact start_settled fq
  obtain ⟨tables, first, all⟩ := run_is_atomic clean_jobs clean_follows settled standing run
  refine ⟨tables, first, fun n => ⟨(all n).1, (all n).2.1, ?_⟩⟩
  obtain ⟨_, _, h, settled, stands⟩ := all n
  have steps := steps_along (fun n => (all n).2.1) n
  rw [first] at steps
  exact ⟨posted_apart steps, fun u ix b here => within_intact settled (standing_within (stands u)) here,
    fun u => standing_suits (stands u)⟩

def freshQueue : Party := .queue regularRq .initial

theorem fresh_queue_new : NewParty freshQueue := ⟨⟨regular_rq_api, rfl⟩, rfl⟩

/- The answers of a clean run. -/
def cleanAnswer : (op : KernelOp) → op.Ans → Bool
  | .page .pagePoolDevAllocPages, page => page.isSome
  | .iommu .iommuDeferredAttach, failed => !failed
  | .iommu (.iommuDmaAllocIova _), base => base != (0 : Nat)
  | .iommu (.__iommuMap _ _ _), ret => ret == (0 : Int)
  | _, _ => true

theorem clean_answer {ix : Nat} {op : KernelOp} {r : op.Ans} (good : cleanAnswer op r = true) :
    cleanCall (.queue (.allocRxMpwqe ix)) op r := by
  cases op with
  | page op =>
    cases op
    case pagePoolDevAllocPages =>
      cases r with
      | none => cases good
      | some page => exact Option.some_ne_none page
    all_goals trivial
  | iommu op =>
    cases op
    case iommuDeferredAttach => simpa [cleanAnswer, cleanCall] using good
    case iommuDmaAllocIova => simpa [cleanAnswer, cleanCall] using good
    case __iommuMap => simpa [cleanAnswer, cleanCall] using good
    all_goals trivial

def freshClient : Party := .client regularRq.dev fun _ => none

def clientPage : Page := ⟨1000, by decide⟩

def queueBesideClient (u : Nat) : Party := if u = 0 then freshQueue else freshClient

theorem queue_beside_client_new (u : Nat) : NewParty (queueBesideClient u) := by
  unfold queueBesideClient
  split
  · exact fresh_queue_new
  · exact ⟨regular_rq_api, rfl⟩

/- A queue fills a WQE; a client of the same domain maps a page meanwhile. -/

def fillsWqe (n : Nat) (t : Kernel Party) (w : World) : Option (Kernel Party × World) :=
  advance (limited cleanAnswer (exec 0)) plentiful.answer n t w

def clientMaps (w : World) : Option (Kernel Party × World) :=
  advance (exec 1) plentiful.answer 3 (domainBody (.dmaMapPageAttrs 0 clientPage 0 4096) freshClient) w

def filled : Kernel Party → Option RxMem
  | .done (.queue _ mem) => some mem
  | _ => none

theorem filled_done {t : Kernel Party} {mem : RxMem} (done : filled t = some mem) :
    ∃ rq, t = .done (.queue rq mem) := by
  unfold filled at done
  split at done
  · cases done
    exact ⟨_, rfl⟩
  · cases done

def mappedBy : Kernel Party → Option (Nat → Option (Nat × Nat))
  | .done (.client _ mapped) => some mapped
  | _ => none

theorem mapped_done {t : Kernel Party} {mapped : Nat → Option (Nat × Nat)} (done : mappedBy t = some mapped) :
    ∃ dev, t = .done (.client dev mapped) := by
  unfold mappedBy at done
  split at done
  · cases done
    exact ⟨_, rfl⟩
  · cases done

theorem first_alloc_runs : ((fillsWqe 100 (domainBody (.queue (.allocRxMpwqe 0)) freshQueue)
    (startWorld false)).bind fun half => (clientMaps half.2).bind fun mid =>
      (fillsWqe 221 half.1 mid.2).map fun out =>
        ((filled out.1).map fun mem => mem.posted 0, (mappedBy mid.1).map fun mapped => mapped 0)) =
    some (some true, some (some (0x200000, 4096))) := by
  decide +kernel

/- The client has its mapping, and the queue has posted its first WQE. -/
theorem first_alloc_run : ∃ (d : DomainConfig) (rq : Rq) (mem : RxMem) (dev : Device)
    (mapped : Nat → Option (Nat × Nat)), Reaches domainPool cleanRuns (startClean false queueBesideClient) d ∧
      d.phase 0 = .idle (.queue rq mem) ∧ mem.posted 0 = true ∧
      d.phase 1 = .idle (.client dev mapped) ∧ mapped 0 = some (0x200000, 4096) := by
  obtain ⟨⟨half, w⟩, begins, rest⟩ := Option.bind_eq_some_iff.mp first_alloc_runs
  obtain ⟨⟨asked, mid⟩, maps, rest⟩ := Option.bind_eq_some_iff.mp rest
  obtain ⟨⟨left, last⟩, fills, facts⟩ := Option.map_eq_some_iff.mp rest
  obtain ⟨full, both⟩ := Prod.mk.inj facts
  obtain ⟨mem, full, posted⟩ := Option.map_eq_some_iff.mp full
  obtain ⟨mapped, both, mapping⟩ := Option.map_eq_some_iff.mp both
  obtain ⟨rq, rfl⟩ := filled_done full
  obtain ⟨dev, rfl⟩ := mapped_done both
  have clean : ∀ op r a b, limited cleanAnswer (exec 0) op r a = some b →
      cleanRuns.call 0 (.queue (.allocRxMpwqe 0)) freshQueue op r a ∧ domainPool.exec 0 op r a = some b :=
    fun _ _ _ _ here => ⟨clean_answer (limited_some.mp here).1, (limited_some.mp here).2⟩
  have first := start_advance_reaches (P := domainPool) (L := cleanRuns) (u := 0)
    (c := startClean false queueBesideClient) (.queue (.allocRxMpwqe 0)) freshQueue rfl ⟨trivial, rfl⟩ trivial
    clean begins
  have second := first.trans (job_run_reaches (u := 1) (DomainJob.dmaMapPageAttrs 0 clientPage 0 4096)
    freshClient rfl rfl trivial (fun _ _ _ _ same => ⟨trivial, same⟩) maps)
  have run := second.trans (advance_ends (u := 0) (DomainJob.queue (.allocRxMpwqe 0)) freshQueue clean rfl
    fills)
  exact ⟨_, rq, mem, dev, mapped, run, rfl, posted, rfl, mapping⟩

/- The table has its batch, and the IOMMU too. -/
theorem first_alloc_is_atomic : ∃ (c : Nat → DomainConfig) (tables : Nat → Nat → Table) (n : Nat) (b : Batch),
    c 0 = startClean false queueBesideClient ∧ tables 0 = noBatches ∧
      (∀ n, Relation.ReflGen TableMove (c n, tables n) (c (n + 1), tables (n + 1))) ∧
      tables n 0 0 = some b ∧ Intact 0 b (c n).world := by
  obtain ⟨d, _, mem, _, _, reached, idle, posted, _⟩ := first_alloc_run
  obtain ⟨c, start, run, n, rfl⟩ := run_along reached
  obtain ⟨tables, first, all⟩ := clean_domain_is_atomic false _ queue_beside_client_new c start run
  have suits := (all n).2.2.suits 0
  rw [idle] at suits
  obtain ⟨b, here⟩ := Option.isSome_iff_exists.mp ((suits.lists.posted 0).symm.trans posted)
  exact ⟨c, tables, n, b, start, first, fun n => (all n).1, here, (all n).2.2.intact 0 0 b here⟩

end AtomicRuns
