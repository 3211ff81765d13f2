import Submatch.Symbols.RangeSet
import Submatch.Order.Bisection

/-!
# The effective alphabet of a list of ranges

The bounds of the ranges cut the domain into pieces whose symbols the ranges cannot
tell apart. `Alphabet.ofRanges` keeps the pieces that some range covers, in ascending
order, and `Alphabet.classify` finds the piece of a symbol by bisection.
-/

namespace Submatch

/-- The classes of symbols that a list of ranges tells apart, ascending. -/
structure Alphabet where
  /-- The classes in ascending order. -/
  classes : Array SymbolRange
  deriving DecidableEq

namespace Alphabet

/-- The number of classes. -/
def size (A : Alphabet) : Nat := A.classes.size

/-- The class with the given index. -/
def getClass (A : Alphabet) (index : Nat) : Except Fault SymbolRange :=
  match A.classes[index]? with
  | some r => .ok r
  | none => .error (.unknownClass index)

/-- The index of the class that contains the symbol, if one does. -/
def classify (A : Alphabet) (symbol : Nat) : Option Nat :=
  let index := Order.partitionPoint A.classes (·.hi < symbol)
  match A.classes[index]? with
  | some r => if r.contains symbol then some index else none
  | none => none

/-- The first symbol of every range and the first symbol behind it, ascending and
each once: the places where the covering changes. -/
def cuts (rs : List SymbolRange) : List Nat :=
  ((rs.flatMap fun r => [r.lo, r.hi + 1]).mergeSort).eraseReps

/-- The piece between two cuts, if the classes of `union` cover it. -/
def piece? (union : Alphabet) (lo stop : Nat) : Option SymbolRange :=
  if h : lo < stop ∧ (union.classify lo).isSome then some ⟨lo, stop - 1, by omega⟩ else none

/-- The alphabet that a list of ranges induces: the pieces between neighbouring cuts that
the union of the ranges covers. -/
def ofRanges (rs : List SymbolRange) : Alphabet :=
  let union : Alphabet := ⟨(RangeSet.normalize rs).toArray⟩
  let cuts := cuts rs
  ⟨((cuts.zip cuts.tail).filterMap fun (lo, stop) => union.piece? lo stop).toArray⟩

end Alphabet

end Submatch
