import FastSafeIO.KernelCalls
import Mathlib.Data.Nat.Log
import Mathlib.Data.Multiset.Count
import Mathlib.Data.Multiset.AddSub

/-! drivers/iommu/iova.c: a tree of IOVA ranges with a cache of freed ones in front of it, one
class for each logarithm of the size. Sizes are in pages; cacheMax stands for the constant
IOVA_RANGE_CACHE_MAX_SIZE, which the patch raised from 6. -/
namespace RangeCache
open CallTree KernelCalls
set_option linter.style.nameCheck false

def orderBase2 (n : Nat) : Nat := Nat.clog 2 n

/-- The kernel leaves the value for 0 open. -/
def roundupPowOfTwo (n : Nat) : Nat := 2 ^ Nat.clog 2 n

/-- The page frames from pfn on. -/
structure Span where
  pfn : Nat
  pages : Nat
  deriving DecidableEq, Repr

def Span.Has (r : Span) (x : Nat) : Prop := r.pfn ≤ x ∧ x < r.pfn + r.pages

instance (r : Span) (x : Nat) : Decidable (r.Has x) := inferInstanceAs (Decidable (_ ∧ _))

/-- One of the two ends before the other begins. -/
def Span.Apart (r s : Span) : Prop := r.pfn + r.pages ≤ s.pfn ∨ s.pfn + s.pages ≤ r.pfn

instance (r s : Span) : Decidable (r.Apart s) := inferInstanceAs (Decidable (_ ∨ _))

/-- What the two functions of the fast path call. -/
inductive IovaOp where
  | rcacheGet (logSize limitPfn : Nat)
  | rcacheInsert (logSize pfn : Nat)
  | allocIova (size limitPfn : Nat)
  | freeIova (pfn : Nat)
  | freeCachedIovas
  deriving DecidableEq, Repr

@[reducible] def IovaOp.Ans : IovaOp → Type
  | .rcacheGet _ _ => Nat
  | .rcacheInsert _ _ => Bool
  | .allocIova _ _ => Option Nat
  | .freeIova _ => Unit
  | .freeCachedIovas => Unit

abbrev Fast (α : Type) : Type := Tree IovaOp IovaOp.Ans α

abbrev IovaEvent : Type := Event IovaOp.Ans

section
variable (cacheMax : Nat)

def iovaRcacheInsert (pfn size : Nat) : Fast Bool :=
  let logSize := orderBase2 size
  if logSize ≥ cacheMax then pure false else Tree.ask (IovaOp.rcacheInsert logSize pfn)

def iovaRcacheGet (size limitPfn : Nat) : Fast Nat :=
  let logSize := orderBase2 size
  if logSize ≥ cacheMax then pure 0 else Tree.ask (IovaOp.rcacheGet logSize (sub64 limitPfn size))

/-- The size that a request of this size takes up. -/
def nodePages (size : Nat) : Nat :=
  if size < 2 ^ (cacheMax - 1) then roundupPowOfTwo size else size

/-- The allocation at the label retry. -/
def allocRetry (size limitPfn : Nat) (failed : Fast Nat) : Fast Nat := do
  match ← Tree.ask (IovaOp.allocIova size limitPfn) with
  | some pfnLo => pure pfnLo
  | none => failed

/-- The second time round flush_rcache is false. -/
def allocIovaFast (size limitPfn : Nat) (flushRcache : Bool) : Fast Nat := do
  let size := nodePages cacheMax size
  let iovaPfn ← iovaRcacheGet cacheMax size (limitPfn + 1)
  if iovaPfn ≠ 0 then
    pure iovaPfn
  else
    allocRetry size limitPfn <|
      if flushRcache then do
        Tree.ask IovaOp.freeCachedIovas
        allocRetry size limitPfn (pure 0)
      else
        pure 0

def freeIovaFast (pfn size : Nat) : Fast Unit := do
  if ← iovaRcacheInsert cacheMax pfn size then
    pure ()
  else
    Tree.ask (IovaOp.freeIova pfn)

end

/-- The tree holds what was not given back to it, cached ranges included. -/
structure Iovad where
  tree : List Span
  rcaches : Nat → Multiset Nat

def Iovad.insertNode (w : Iovad) (r : Span) : Iovad := { w with tree := r :: w.tree }

def Iovad.removeNode (w : Iovad) (pfn : Nat) : Iovad :=
  { w with tree := w.tree.filter fun r => ¬ r.Has pfn }

def Iovad.put (w : Iovad) (logSize pfn : Nat) : Iovad :=
  { w with rcaches := Function.update w.rcaches logSize (pfn ::ₘ w.rcaches logSize) }

def Iovad.take (w : Iovad) (logSize pfn : Nat) : Iovad :=
  { w with rcaches := Function.update w.rcaches logSize ((w.rcaches logSize).erase pfn) }

/-- Every cached range goes back to the tree. -/
def Iovad.flush (cacheMax : Nat) (w : Iovad) : Iovad where
  tree := w.tree.filter fun r => ∀ c < cacheMax, ∀ pfn ∈ w.rcaches c, ¬ r.Has pfn
  rcaches c := if c < cacheMax then 0 else w.rcaches c

/-- With sure, the cache takes what it is offered and comes back empty-handed only when no
    range of the class lies low enough; without, it may do either at any time. -/
def exec (cacheMax : Nat) (sure : Bool) : (op : IovaOp) → op.Ans → Iovad → Option Iovad
  | .rcacheGet logSize limitPfn, pfn, w =>
    if pfn = (0 : Nat) then
      if sure = false ∨ ∀ p ∈ w.rcaches logSize, limitPfn < p then some w else none
    else if pfn ∈ w.rcaches logSize ∧ pfn ≤ limitPfn then some (w.take logSize pfn) else none
  | .rcacheInsert logSize pfn, taken, w =>
    if taken = true then some (w.put logSize pfn) else if sure then none else some w
  | .allocIova _ _, none, w => some w
  | .allocIova size limitPfn, some pfn, w =>
    if pfn + size ≤ limitPfn + 1 ∧ ∀ r ∈ w.tree, Span.Apart ⟨pfn, size⟩ r then
      some (w.insertNode ⟨pfn, size⟩)
    else none
  | .freeIova pfn, _, w => some (w.removeNode pfn)
  | .freeCachedIovas, _, w => some (w.flush cacheMax)

/- The callers: a range is live from the call that returned it, under the size asked for,
   until it is freed with just that base and size. -/

structure State where
  iovad : Iovad
  live : List Span

def start : State := ⟨⟨[], fun _ => 0⟩, []⟩

inductive Call where
  | alloc (size limitPfn : Nat) (flushRcache : Bool)
  | free (r : Span)
  deriving DecidableEq, Repr

/-- A call that has returned; a free returns nothing, which is 0 here. -/
structure Done where
  call : Call
  trace : List IovaEvent
  pfn : Nat

inductive Step (cacheMax : Nat) (sure : Bool) : State → Done → State → Prop where
  | alloc {s : State} {size limitPfn pfn : Nat} {flushRcache : Bool} {trace : List IovaEvent} {w : Iovad}
      (ran : Exec (exec cacheMax sure) (allocIovaFast cacheMax size limitPfn flushRcache) s.iovad trace pfn w) :
      Step cacheMax sure s ⟨.alloc size limitPfn flushRcache, trace, pfn⟩
        ⟨w, if pfn = 0 then s.live else ⟨pfn, size⟩ :: s.live⟩
  | free {s : State} {r : Span} {trace : List IovaEvent} {w : Iovad} (mine : r ∈ s.live)
      (ran : Exec (exec cacheMax sure) (freeIovaFast cacheMax r.pfn r.pages) s.iovad trace () w) :
      Step cacheMax sure s ⟨.free r, trace, 0⟩ ⟨w, s.live.erase r⟩

section
variable {cacheMax : Nat} {sure : Bool} {w last : Iovad}

@[simp] theorem exec_free_iova {pfn : Nat} {ans : Unit} :
    exec cacheMax sure (.freeIova pfn) ans w = some last ↔ last = w.removeNode pfn := by
  change some (w.removeNode pfn) = some last ↔ _
  rw [Option.some.injEq, eq_comm]

end

end RangeCache
