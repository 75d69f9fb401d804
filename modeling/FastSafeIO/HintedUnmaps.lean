import FastSafeIO.WalkCoherence

/- Every interleaving of maps, unmaps and walks: once an unmap has returned, no walk gets
   to a table it removed and none of its translations is left. -/
namespace HintedUnmaps
open CallTree KernelCalls DmaLayer DmaCalls AgentPool RadixWalk WalkCache WalkCoherence
open IommuWorld (Range)

/-- Neither an unmap nor the sync after one. -/
def Quiet : KernelOp → Prop
  | .iommu (.iommuUnmapFast _ _ _) => False
  | .iommu (.iommuIotlbSync _) => False
  | _ => True

section
variable (u : Nat) {a b : State}

theorem exec_fq_domain {queued : Bool} (run : exec u (.iommu .fqDomain) queued a = some b) :
    queued = false ∧ b = a := by
  have guarded : (if queued = false then some a else none) = some b := run
  obtain ⟨strict, same⟩ := Option.ite_none_right_eq_some.mp guarded
  exact ⟨strict, (Option.some.inj same).symm⟩

theorem exec_unmap_fast {iova size : Nat} {gather : IotlbGather} {out : Nat × IotlbGather}
    (run : exec u (.iommu (.iommuUnmapFast iova size gather)) out a = some b) :
    (out.2.queued = gather.queued ∧ out.2.range = some (iova, size) ∧
      CanTakeOut a.mem out.2.freelist (Range.mk iova size).Has) ∧
    b = a.takeOut u ⟨iova, size⟩ out.2.freelist := by
  classical
  have guarded : (if out.2.queued = gather.queued ∧ out.2.range = some (iova, size) ∧
      CanTakeOut a.mem out.2.freelist (Range.mk iova size).Has then
      some (a.takeOut u ⟨iova, size⟩ out.2.freelist) else none) = some b := by
    rw [← run]
    simp only [exec, execIommu]
  obtain ⟨can, same⟩ := Option.ite_none_right_eq_some.mp guarded
  exact ⟨can, (Option.some.inj same).symm⟩

theorem exec_sync {iova size : Nat} {gather : IotlbGather}
    (ans : (KernelOp.iommu (IommuOp.iommuIotlbSync gather)).Ans)
    (range : gather.range = some (iova, size))
    (run : exec u (.iommu (.iommuIotlbSync gather)) ans a = some b) :
    b = a.sync u ⟨iova, size⟩ gather.freelist
      (qiFlushIotlb (syncAddress iova gather.freelist)) := by
  simp only [exec, execIommu, range, Option.some.injEq] at run
  exact run.symm

/-- A map enters its pages or fails; no other call but the unmaps' own does anything. -/
theorem exec_quiet {op : KernelOp} {r : op.Ans} (quiet : Quiet op)
    (run : exec u op r a = some b) : b = a ∨ ∃ range paddr, b = a.enter range paddr := by
  cases op with
  | page op => exact Or.inl (Option.some.inj run).symm
  | iommu op =>
    cases op
    case iommuUnmapFast => exact quiet.elim
    case iommuIotlbSync => exact quiet.elim
    case fqDomain => exact Or.inl (exec_fq_domain u run).2
    case __iommuMap iova paddr size =>
      simp only [exec, execIommu] at run
      split at run
      · split at run
        · exact Or.inr ⟨⟨iova, size⟩, paddr, (Option.some.inj run).symm⟩
        · cases run
      · exact Or.inl (Option.some.inj run).symm
    all_goals exact Or.inl (Option.some.inj run).symm

end

/-- The unmap that agent u is in the middle of is left alone. -/
def Undisturbed (u : Nat) (a b : State) : Prop :=
  b.current u = a.current u ∧ ∀ s, a.current u = some s →
    b.unmaps s = a.unmaps s ∧ ∀ t, b.taker t = some s ↔ a.taker t = some s

theorem undisturbed_refl (u : Nat) (a : State) : Undisturbed u a a :=
  ⟨rfl, fun _ _ => ⟨rfl, fun _ => Iff.rfl⟩⟩

theorem undisturbed_trans (u : Nat) (a b c : State) (first : Undisturbed u a b)
    (second : Undisturbed u b c) : Undisturbed u a c := by
  refine ⟨second.1.trans first.1, fun s busy => ?_⟩
  obtain ⟨same, tables⟩ := first.2 s busy
  obtain ⟨again, more⟩ := second.2 s (first.1.trans busy)
  exact ⟨again.trans same, fun t => (more t).trans (tables t)⟩

theorem background_undisturbed {a b : State} (moved : Background a b) (u : Nat) :
    Undisturbed u a b := by
  cases moved <;> exact undisturbed_refl u a

theorem take_out_undisturbed {u v : Nat} {a : State} {r : Range} {out : List Nat}
    (fine : Coherent a) (can : CanTakeOut a.mem out r.Has) (other : v ≠ u) :
    Undisturbed v a (a.takeOut u r out) := by
  refine ⟨Function.update_of_ne other _ _, fun s busy => ?_⟩
  have old := (fine.record.current v s busy).1
  refine ⟨unmaps_kept old, fun t => ?_⟩
  by_cases gone : t ∈ out
  · rw [taker_out gone, fine.memory.free t (can.attached t gone)]
    constructor
    · intro new
      cases new
      exact absurd old (Nat.lt_irrefl _)
    · intro impossible
      cases impossible
  · rw [taker_kept gone]

theorem sync_undisturbed {u v ih : Nat} {a : State} {r : Range} {out : List Nat}
    (other : v ≠ u) : Undisturbed v a (a.sync u r out ih) :=
  ⟨Function.update_of_ne other _ _, fun _ _ => ⟨rfl, fun _ => Iff.rfl⟩⟩

/-- Every agent is between two unmaps when a job ends. -/
noncomputable def hinted : Discipline pool where
  inv := Coherent
  rely := Undisturbed
  ok := fun _ _ _ _ _ => True
  result := fun u _ _ _ w => w.current u = none
  rely_refl := undisturbed_refl
  rely_trans := undisturbed_trans
  drift_kept := fun _ _ moved fine =>
    ⟨background_coherent moved fine, background_undisturbed moved⟩

/-- Agents start what they like when they like, and calls get any answer. -/
abbrev anyJobs : Limits Nat KernelOp KernelOp.Ans State Unit Job := .unlimited

/-- Between two unmaps. -/
def Free (u : Nat) (w : State) : Prop := w.current u = none

/-- Agent u has cleared the range and taken out these tables. -/
def Cleared (u : Nat) (r : Range) (out : List Nat) (w : State) : Prop :=
  ∃ s, w.current u = some s ∧ (w.unmaps s).range = r ∧ ∀ t, w.taker t = some s ↔ t ∈ out

theorem free_stable {u : Nat} {a b : State} (free : Free u a) (moved : Undisturbed u a b) :
    Free u b := moved.1.trans free

theorem cleared_stable {u : Nat} {r : Range} {out : List Nat} {a b : State}
    (cleared : Cleared u r out a) (moved : Undisturbed u a b) : Cleared u r out b := by
  obtain ⟨s, busy, range, tables⟩ := cleared
  obtain ⟨same, kept⟩ := moved.2 s busy
  exact ⟨s, moved.1.trans busy, same ▸ range, fun t => (kept t).trans (tables t)⟩

section
variable {u : Nat} {job : Job} {mem : Unit} {α : Type}

/-- What is left of a job leaves agent u between two unmaps. -/
def EndsFree (u : Nat) (job : Job) (mem : Unit) (t : Kernel α) (w : State) : Prop :=
  Safe hinted anyJobs u job mem (fun _ now => Free u now) t w

theorem quiet_ends_free {t : Kernel α} (calls : t.Calls Quiet) {w : State} (free : Free u w) :
    EndsFree u job mem t w := by
  induction t generalizing w with
  | done a => exact fun now _ moved => free_stable free moved
  | call op rest ih =>
    refine safe_call (Free u) free (fun _ _ here _ moved => free_stable here moved) ?_
    intro a fine here
    refine ⟨trivial, fun r b _ run => ?_⟩
    rcases exec_quiet u calls.1 run with rfl | ⟨range, paddr, rfl⟩
    · exact ⟨fine, fun v _ => undisturbed_refl v _, ih r (calls.2 r) here⟩
    · exact ⟨enter_coherent fine range paddr,
        fun v _ => ⟨rfl, fun _ _ => ⟨rfl, fun _ => Iff.rfl⟩⟩, ih r (calls.2 r) here⟩

theorem give_back_quiet (iova iovaSize : Nat) (freeIova : Bool) (gather : IotlbGather) :
    (giveBack iova iovaSize freeIova gather).Calls Quiet := by
  unfold giveBack
  split
  · exact ⟨trivial, fun _ => trivial⟩
  · trivial

theorem unmap_iova_eq (dmaAddr size iovaSize : Nat) (freeIova : Bool) :
    __iommuDmaUnmapIova dmaAddr size iovaSize freeIova =
      .call (.iommu .fqDomain) fun queued =>
        .call (.iommu (.iommuUnmapFast (dmaAddr - iovaOffset dmaAddr)
            (iovaAlign (size + iovaOffset dmaAddr)) (.init queued))) fun out =>
          if out.2.queued then giveBack (dmaAddr - iovaOffset dmaAddr) iovaSize freeIova out.2
          else .call (.iommu (.iommuIotlbSync out.2)) fun _ =>
            giveBack (dmaAddr - iovaOffset dmaAddr) iovaSize freeIova out.2 := by
  unfold __iommuDmaUnmapIova
  simp only [iommuCall, Tree.bind_eq, Tree.ask_bind, Tree.pure_eq, giveBack]
  congr 1
  funext queued
  congr 1
  funext out
  cases out.2.queued <;> rfl

theorem page_start_aligned (addr : Nat) : iovaOffset (addr - iovaOffset addr) = 0 := by
  unfold iovaOffset PAGE_SIZE
  omega

theorem unmap_ends_free (dmaAddr size iovaSize : Nat) (freeIova : Bool) {w : State}
    (free : Free u w) :
    EndsFree u job mem (__iommuDmaUnmapIova dmaAddr size iovaSize freeIova) w := by
  rw [unmap_iova_eq]
  have aligned := page_start_aligned dmaAddr
  generalize dmaAddr - iovaOffset dmaAddr = iova at aligned ⊢
  generalize iovaAlign (size + iovaOffset dmaAddr) = length
  refine safe_call (Free u) free (fun _ _ here _ moved => free_stable here moved) ?_
  intro a fine here
  refine ⟨trivial, fun queued b _ run => ?_⟩
  obtain ⟨strict, rfl⟩ := exec_fq_domain u run
  refine ⟨fine, fun v _ => undisturbed_refl v _, ?_⟩
  refine safe_call (Free u) here (fun _ _ here _ moved => free_stable here moved) ?_
  intro a fine here
  refine ⟨trivial, fun out b _ run => ?_⟩
  obtain ⟨⟨same, range, can⟩, rfl⟩ := exec_unmap_fast u run
  refine ⟨take_out_coherent fine can here, fun v other => take_out_undisturbed fine can other, ?_⟩
  have unqueued : out.2.queued = false := same.trans strict
  rw [unqueued, if_neg Bool.false_ne_true]
  have cleared : Cleared u ⟨iova, length⟩ out.2.freelist
      (a.takeOut u ⟨iova, length⟩ out.2.freelist) := by
    refine ⟨a.made, current_new, ?_, fun t => ⟨fun taken => ?_, taker_out⟩⟩
    · rw [unmaps_new]
    · by_contra stays
      rw [taker_kept stays] at taken
      exact absurd (fine.record.taker t _ taken) (Nat.lt_irrefl _)
  refine safe_call (Cleared u ⟨iova, length⟩ out.2.freelist) cleared
    (fun _ _ here _ moved => cleared_stable here moved) ?_
  intro b fine here
  refine ⟨trivial, fun ans c _ run => ?_⟩
  obtain rfl := exec_sync u ans range run
  obtain ⟨s, busy, whole, tables⟩ := here
  exact ⟨sync_coherent fine busy whole tables (hint_iff aligned),
    fun v other => sync_undisturbed other,
    quiet_ends_free (give_back_quiet iova iovaSize freeIova out.2) (Function.update_self ..)⟩

theorem map_call_quiet {firstIova : Bool} {size : Nat} {op : KernelOp}
    (made : MapCall firstIova size op) : Quiet op := by
  cases op with
  | page op => trivial
  | iommu op =>
    cases op
    case iommuUnmapFast => exact made.elim
    case iommuIotlbSync => exact made.elim
    all_goals trivial

theorem job_ends_free {w : State} (free : Free u w) : EndsFree u job mem job.body w := by
  cases job with
  | map dev phys iovaAddr firstIova size =>
    have calls := (dma_map_calls dev firstIova size phys iovaAddr).mono
      fun op made => map_call_quiet made
    exact quiet_ends_free (calls.bind fun _ => Tree.calls_done) free
  | unmap dmaAddr size =>
    simp only [Job.body, unmap_is_unmap_iova]
    exact unmap_ends_free dmaAddr size _ true free
  | unmapIova dmaAddr size iovaSize freeIova =>
    exact unmap_ends_free dmaAddr size iovaSize freeIova free

end

/-- Agents without a memory are between two unmaps when they are idle. -/
theorem jobs_safe (u : Nat) (job : Job) (mem : Unit) (w : State) (free : Free u w) :
    Safe hinted anyJobs u job mem (Ended hinted (fun u _ w => Free u w) u job mem)
      (pool.body job mem) w :=
  Safe.mono (job_ends_free free) fun _ _ _ here => ⟨here, here⟩

/-- All agents idle on a domain with only a root table. -/
def startConfig (levels : Nat) : Config Nat KernelOp KernelOp.Ans State Unit Job :=
  ⟨fun _ => .idle (), startState levels⟩

theorem start_fine (levels : Nat) :
    ConfigOk hinted anyJobs (fun u _ w => Free u w) (startConfig levels) :=
  ⟨start_coherent levels, fun _ => rfl⟩

/-- The range that a job unmaps. -/
def unmapped : Job → Option Range
  | .map _ _ _ _ _ => none
  | .unmap dmaAddr size => some (IommuWorld.unmapRange dmaAddr size)
  | .unmapIova dmaAddr size _ _ => some (IommuWorld.unmapRange dmaAddr size)

/-- One leaf table below the root, and page 1 mapped through it. -/
def grown : State := { startState 2 with mem := (startState 2).mem.attach 0 0 }

noncomputable def mapped : State := grown.enter ⟨4096, 4096⟩ (7 * 4096)

end HintedUnmaps
