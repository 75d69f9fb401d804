import FastSafeIO.AgentPool
import FastSafeIO.IommuWorld
import FastSafeIO.RadixWalk
import Mathlib.Data.Nat.Bitwise

/-! The paging-structure caches under the invalidation hint: agents map and unmap in
    strict mode while the device walks the tables and caches what it reads. -/
namespace WalkCache
open CallTree KernelCalls DmaLayer AgentPool RadixWalk
open IommuWorld (Range)

/-- The invalidation hint that qi_flush_iotlb takes from the address passed in. -/
def qiFlushIotlb (addr : Nat) : Nat := if addr &&& (1 <<< 6) ≠ 0 then 1 else 0

/-- What the sync after an unmap passes to it. -/
def syncAddress (iova : Nat) (freelist : List Nat) : Nat :=
  iova ||| (if freelist = [] then 1 <<< 6 else 0)

theorem page_aligned_bit {iova : Nat} (aligned : iovaOffset iova = 0) : iova.testBit 6 = false := by
  have even : iova / 2 ^ 6 % 2 = 0 := by
    unfold iovaOffset PAGE_SIZE at aligned
    omega
  rw [Nat.testBit_eq_decide_div_mod_eq, even]
  rfl

theorem hint_is_bit (addr : Nat) : qiFlushIotlb addr = (addr.testBit 6).toNat := by
  have mask : addr &&& (1 <<< 6) = (addr.testBit 6).toNat * 2 ^ 6 := Nat.and_two_pow addr 6
  unfold qiFlushIotlb
  rw [mask]
  cases addr.testBit 6 <;> rfl

/-- The non-leaf entries are kept exactly when no table was removed. -/
theorem hint_iff {iova : Nat} {freelist : List Nat} (aligned : iovaOffset iova = 0) :
    qiFlushIotlb (syncAddress iova freelist) = if freelist = [] then 1 else 0 := by
  rw [hint_is_bit]
  unfold syncAddress
  rw [Nat.testBit_or, page_aligned_bit aligned]
  split <;> rfl

/-- An unmap that was made: by whom, of which range, and the first stamp not yet used. -/
structure Unmap where
  agent : Nat
  range : Range
  since : Nat

/-- The tables and the caches of the device. Of every table and mapping it is recorded
    which unmap took it, and of every agent which unmap it is in the middle of. -/
structure State where
  mem : Tables
  cached : List Nat
  iotlb : List (Nat × Mapping)
  given : List Nat
  stamps : Nat
  made : Nat
  unmaps : Nat → Unmap
  taker : Nat → Option Nat
  clearer : Nat → Mapping → Option Nat
  current : Nat → Option Nat

/-- A domain with nothing but its root table. -/
def startState (levels : Nat) : State where
  mem :=
    { root := 0, used := 1, level := fun _ => levels, index := fun _ => 0,
      child := fun _ _ => none, leaf := fun _ _ => none }
  cached := []
  iotlb := []
  given := []
  stamps := 0
  made := 0
  unmaps := fun _ => ⟨0, ⟨0, 0⟩, 0⟩
  taker := fun _ => none
  clearer := fun _ _ => none
  current := fun _ => none

noncomputable def State.enter (w : State) (r : Range) (paddr : Nat) : State :=
  { w with
    mem := w.mem.enter r.Has (fun x => paddr / PAGE_SIZE + (x - r.base / PAGE_SIZE)) w.stamps
    stamps := w.stamps + 1 }

open Classical in
noncomputable def State.takeOut (w : State) (u : Nat) (r : Range) (out : List Nat) : State :=
  { w with
    mem := w.mem.takeOut out r.Has
    made := w.made + 1
    unmaps := Function.update w.unmaps w.made ⟨u, r, w.stamps⟩
    taker := fun t => if t ∈ out then some w.made else w.taker t
    clearer := fun x e => if Live w.mem x e ∧ r.Has x then some w.made else w.clearer x e
    current := Function.update w.current u (some w.made) }

open Classical in
/-- The flush drops the translations of the range, and without the hint also the cached
    pointers to tables that translate a part of it. The removed tables are freed next. -/
noncomputable def State.sync (w : State) (u : Nat) (r : Range) (out : List Nat) (ih : Nat) : State :=
  { w with
    cached := w.cached.filter fun t => decide ¬ (ih = 0 ∧ ∃ x, w.mem.Span t x ∧ r.Has x)
    iotlb := w.iotlb.filter fun entry => decide ¬ r.Has entry.1
    given := out ++ w.given
    current := Function.update w.current u none }

section
variable {w : State} {u ih : Nat} {r : Range} {out : List Nat}

theorem cached_sync {t : Nat} : t ∈ (w.sync u r out ih).cached ↔
    t ∈ w.cached ∧ ¬ (ih = 0 ∧ ∃ x, w.mem.Span t x ∧ r.Has x) := by
  classical
  simp only [State.sync, List.mem_filter, decide_eq_true_eq]

theorem iotlb_sync {x : Nat} {e : Mapping} :
    (x, e) ∈ (w.sync u r out ih).iotlb ↔ (x, e) ∈ w.iotlb ∧ ¬ r.Has x := by
  classical
  simp only [State.sync, List.mem_filter, decide_eq_true_eq]

end

/-- The leaf tables of the range are there. -/
def Covered (w : State) (r : Range) : Prop :=
  ∀ x, r.Has x → ∃ t, Attached w.mem t ∧ w.mem.level t = 1 ∧ w.mem.Span t x

open Classical in
/-- A map that succeeds has found or added the tables it needs (the additions are steps of
    their own, below). An unmap answers with the removed tables in the gather. -/
noncomputable def execIommu (u : Nat) : (op : IommuOp) → op.Ans → State → Option State
  | .fqDomain, queued, w => if queued = false then some w else none
  | .__iommuMap iova paddr size, ret, w =>
    if ret = (0 : Int) then
      if Covered w ⟨iova, size⟩ then some (w.enter ⟨iova, size⟩ paddr) else none
    else some w
  | .iommuUnmapFast iova size gather, out, w =>
    if out.2.queued = gather.queued ∧ out.2.range = some (iova, size) ∧
        CanTakeOut w.mem out.2.freelist (Range.mk iova size).Has then
      some (w.takeOut u ⟨iova, size⟩ out.2.freelist)
    else none
  | .iommuIotlbSync gather, _, w =>
    some (match gather.range with
      | none => w
      | some (iova, size) =>
        w.sync u ⟨iova, size⟩ gather.freelist (qiFlushIotlb (syncAddress iova gather.freelist)))
  | _, _, w => some w

noncomputable def exec (u : Nat) : (op : KernelOp) → op.Ans → State → Option State
  | .page _, _, w => some w
  | .iommu op, ans, w => execIommu u op ans w

/-- Where a walk of the device can go on from. -/
def Entrance (w : State) (p : Nat) : Prop := p = w.mem.root ∨ p ∈ w.cached

/-- A missing table is added below the tree; the device reads a link or a leaf entry and
    caches it, or forgets what it has cached; a freed table is overwritten. -/
inductive Background : State → State → Prop where
  | allocate {w : State} {p i : Nat} (below : Attached w.mem p) (inner : 2 ≤ w.mem.level p)
      (slot : i / 512 = w.mem.index p) (vacant : w.mem.child p i = none) :
      Background w { w with mem := w.mem.attach p i }
  | hop {w : State} {p i t : Nat} (start : Entrance w p) (link : w.mem.child p i = some t) :
      Background w { w with cached := t :: w.cached }
  | fill {w : State} {p x : Nat} {e : Mapping} (start : Entrance w p)
      (entry : w.mem.leaf p x = some e) : Background w { w with iotlb := (x, e) :: w.iotlb }
  | evict {w : State} {cached : List Nat} {iotlb : List (Nat × Mapping)}
      (fewer : cached ⊆ w.cached) (less : iotlb ⊆ w.iotlb) :
      Background w { w with cached := cached, iotlb := iotlb }
  | reuse {w : State} {t : Nat} {child : Nat → Option Nat} {leaf : Nat → Option Mapping}
      (given : t ∈ w.given) :
      Background w { w with mem := w.mem.overwrite t child leaf }

inductive Job where
  | map (dev : Device) (phys iovaAddr : Nat) (firstIova : Bool) (size : Nat)
  | unmap (dmaAddr size : Nat)
  | unmapIova (dmaAddr size iovaSize : Nat) (freeIova : Bool)
  deriving DecidableEq, Repr

def Job.body : Job → Kernel Unit
  | .map dev phys iovaAddr firstIova size =>
    (__iommuDmaMap dev phys iovaAddr firstIova size).bind fun _ => .done ()
  | .unmap dmaAddr size => __iommuDmaUnmap dmaAddr size
  | .unmapIova dmaAddr size iovaSize freeIova =>
    __iommuDmaUnmapIova dmaAddr size iovaSize freeIova

/-- Any number of agents, each with any jobs in any order. -/
noncomputable def pool : Pool Nat KernelOp KernelOp.Ans State Unit Job where
  exec := exec
  drift := Background
  ready := fun _ _ _ => True
  body := fun job _ => job.body

end WalkCache
