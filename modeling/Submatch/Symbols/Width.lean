import Submatch.Symbols.RangeSet

/-!
# Bounds of limited width

Bounds are stored in 32 bits. `mergeAll` and `collectGaps` go over the ranges of a list one by
one, as `normalize` and `complement` do, and mind the width of every bound that they compute:
where ranges are merged, the bound behind the largest one is the largest one again; where
gaps are collected, it is a fault, and so are a bound in front of zero and a gap that descends.
-/

namespace Submatch.RangeSet

/-- The largest bound that can be stored. -/
def lastBound : Nat := 0xffffffff

/-- Every bound can be stored. -/
def InWidth (rs : List SymbolRange) : Prop := ∀ r ∈ rs, r.hi ≤ lastBound

instance (rs : List SymbolRange) : Decidable (InWidth rs) :=
  inferInstanceAs (Decidable (∀ r ∈ rs, r.hi ≤ lastBound))

/-- Add a range to those that have been merged, newest first: it is joined to the newest one
if it overlaps or touches that one. -/
def absorb (merged : List SymbolRange) (r : SymbolRange) : List SymbolRange :=
  match merged with
  | [] => [r]
  | last :: before =>
    if r.lo ≤ min (last.hi + 1) lastBound then last.extendTo r.hi :: before
    else r :: last :: before

/-- Sort the ranges and add them one by one. -/
def mergeAll (rs : List SymbolRange) : List SymbolRange :=
  ((rs.mergeSort SymbolRange.le).foldl absorb []).reverse

/-- The bound in front of another one. -/
def boundBefore (bound : Nat) : Except Fault Nat :=
  if bound = 0 then .error .boundBelowZero else .ok (bound - 1)

/-- The bound behind another one. -/
def boundAfter (bound : Nat) : Except Fault Nat :=
  if bound < lastBound then .ok (bound + 1) else .error .boundAboveWidth

/-- The gap from the symbol `next` on up to a range, if there is one. -/
def gapBefore (next : Nat) (r : SymbolRange) : Except Fault (List SymbolRange) :=
  if next < r.lo then do
    return [← SymbolRange.ofBounds next (← boundBefore r.lo)]
  else return []

/-- Collect the gaps of the domain from the symbol `next` on. -/
def collectGapsFrom (next : Nat) : List SymbolRange → Except Fault (List SymbolRange)
  | [] => do return [← SymbolRange.ofBounds next lastSymbol]
  | r :: rs => do
    let gap ← gapBefore next r
    if r.hi = lastSymbol then return gap
    else return gap ++ (← collectGapsFrom (← boundAfter r.hi) rs)

/-- Collect the gaps that a normalized list leaves in the domain. -/
def collectGaps (rs : List SymbolRange) : Except Fault (List SymbolRange) := collectGapsFrom 0 rs

end Submatch.RangeSet
