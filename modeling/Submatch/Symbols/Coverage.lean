import Std.Data.TreeMap
import Submatch.Symbols.Alphabet

/-!
# Sweeping over the coverage

One more range covers the symbols from its first one on, and one less those behind its last
one. `Coverage.changes` adds this up by place, `Coverage.depths` goes over the places in
ascending order with the number of ranges that cover what comes next, and `Coverage.sweep`
makes a range between two places wherever that number is not zero.
-/

namespace Submatch.Coverage

/-- By place, how the number of ranges that cover a symbol changes there. -/
abbrev Changes := Std.TreeMap Nat Int

/-- One more change at a place, on top of the ones that are there. -/
def Changes.add (changes : Changes) (place : Nat) (change : Int) : Changes :=
  changes.insert place (changes.getD place 0 + change)

/-- The changes at the first symbol of a range and at the first one behind it. -/
def Changes.addRange (changes : Changes) (r : SymbolRange) : Changes :=
  (changes.add r.lo 1).add (r.hi + 1) (-1)

/-- The changes that a list of ranges makes. Where ranges end and start at one place they
may cancel, and the place is kept. -/
def changes (rs : List SymbolRange) : Changes := rs.foldl Changes.addRange ∅

/-- The totals of changes up to each place, on top of a given one. -/
def totals (depth : Int) : List (Nat × Int) → List (Nat × Int)
  | [] => []
  | (place, change) :: rest => (place, depth + change) :: totals (depth + change) rest

/-- The places where the coverage may change, ascending, each with the number of ranges
that cover the symbols from there up to the next place. -/
def depths (rs : List SymbolRange) : List (Nat × Int) := totals 0 (changes rs).toList

/-- The range between two places, if the ranges cover it. -/
def pieceBetween : (Nat × Int) × (Nat × Int) → Except Fault (Option SymbolRange)
  | ((lo, depth), (stop, _)) =>
    if 0 < depth then return some (← SymbolRange.ofBounds lo (stop - 1)) else return none

/-- The alphabet of a list of ranges by a sweep over the places where the coverage changes. -/
def sweep (rs : List SymbolRange) : Except Fault Alphabet := do
  let depths := depths rs
  return ⟨(← (depths.zip depths.tail).filterMapM pieceBetween).toArray⟩

end Submatch.Coverage
