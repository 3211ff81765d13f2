import Submatch.Symbols.Range

/-!
# Sets of symbols as lists of ranges

A list of ranges denotes the union of its members. `normalize` brings a list into
the form in which the ranges ascend and do not touch, and `complement` lists the gaps
that a list in that form leaves in the input domain.

* `covers_append`: the union of two lists is their concatenation;
* `complement?_eq_ok`: a list within the domain has a complement there.
-/

namespace Submatch.RangeSet

/-- Whether some range of the list contains the symbol. -/
def covers (rs : List SymbolRange) (symbol : Nat) : Bool := rs.any (·.contains symbol)

/-- Merge `current` with the ranges that overlap or touch it, in a list sorted by
lower bound, and go on with the first range that lies apart. -/
def joinFrom (current : SymbolRange) : List SymbolRange → List SymbolRange
  | [] => [current]
  | r :: rs =>
    if r.lo ≤ current.hi + 1 then joinFrom (current.extendTo r.hi) rs
    else current :: joinFrom r rs

/-- Merge the ranges of a sorted list that overlap or touch. -/
def join : List SymbolRange → List SymbolRange
  | [] => []
  | r :: rs => joinFrom r rs

/-- Sort the ranges and merge the ones that overlap or touch. -/
def normalize (rs : List SymbolRange) : List SymbolRange := join (rs.mergeSort SymbolRange.le)

/-- The gaps of the domain from the symbol `next` on, up to the first range that ends
with the domain. -/
def gapsFrom (next : Nat) : List SymbolRange → List SymbolRange
  | [] => if h : next ≤ lastSymbol then [⟨next, lastSymbol, h⟩] else []
  | r :: rs =>
    let gap := if h : next < r.lo then [⟨next, r.lo - 1, by omega⟩] else []
    if r.hi = lastSymbol then gap else gap ++ gapsFrom (r.hi + 1) rs

/-- The symbols of the domain that no range of a normalized list contains. -/
def complement (rs : List SymbolRange) : List SymbolRange := gapsFrom 0 rs

/-- The complement of a list that must not run past the domain: the gap behind a last
range that ends later would descend. -/
def complement? (rs : List SymbolRange) : Except Fault (List SymbolRange) :=
  match rs.getLast? with
  | none => .ok (complement rs)
  | some r =>
    if lastSymbol < r.hi && rs.all (·.hi != lastSymbol) then
      .error (.descendingRange (r.hi + 1) lastSymbol)
    else .ok (complement rs)

/-- Every range ends within the input domain. -/
def InDomain (rs : List SymbolRange) : Prop := ∀ r ∈ rs, r.hi ≤ lastSymbol

instance (rs : List SymbolRange) : Decidable (InDomain rs) :=
  inferInstanceAs (Decidable (∀ r ∈ rs, r.hi ≤ lastSymbol))

/-- The ranges ascend, with at least one symbol missing between neighbours. -/
def Separated (rs : List SymbolRange) : Prop := rs.Pairwise fun r s => r.hi + 1 < s.lo

instance (rs : List SymbolRange) : Decidable (Separated rs) :=
  inferInstanceAs (Decidable (rs.Pairwise fun r s => r.hi + 1 < s.lo))

@[simp] theorem covers_nil (symbol : Nat) : covers [] symbol = false := rfl

@[simp] theorem covers_cons (r : SymbolRange) (rs : List SymbolRange) (symbol : Nat) :
    covers (r :: rs) symbol = (r.contains symbol || covers rs symbol) := rfl

@[simp] theorem covers_append (rs ss : List SymbolRange) (symbol : Nat) :
    covers (rs ++ ss) symbol = (covers rs symbol || covers ss symbol) := by
  simp [covers]

theorem complement?_eq_ok {rs : List SymbolRange} (h : InDomain rs) :
    complement? rs = .ok (complement rs) := by
  unfold complement?
  split
  · rfl
  next r hr =>
    have := h r (List.mem_of_getLast? hr)
    simp [Nat.not_lt.2 this]

end Submatch.RangeSet
