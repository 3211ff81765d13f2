import Submatch.Text.Basic

/-!
# Failed checks

A `Fault` is a check inside the engine that did not hold: a range whose bounds
descend, an index past the end, boundaries of a group that cannot be paired.
Each cause is a constructor, and `Fault.message` is the one place that words it.
-/

namespace Submatch

/-- The ways in which a check of the engine can fail. -/
inductive Fault where
  /-- A range was asked for with its lower bound above its upper one. -/
  | descendingRange (lo hi : Nat)
  /-- One was taken from a bound of zero. -/
  | boundBelowZero
  /-- One was added to the largest bound that can be stored. -/
  | boundAboveWidth
  /-- An array of the given length has no such index. -/
  | indexOutOfBounds (index length : Nat)
  /-- The output bank has no register for the tag. -/
  | tagOutsideBank (tag : Nat)
  /-- The working bank, of the given size, has no such register. -/
  | registerOutsideBank (register size : Nat)
  /-- A group was opened and closed a different number of times. -/
  | unbalancedGroup (opens closes : List Nat)
  /-- The automaton has no such node. -/
  | unknownNode (node : Nat)
  /-- No state has been given that number. -/
  | unknownState (state : Nat)
  /-- The alphabet has no such class. -/
  | unknownClass (index : Nat)
  /-- A node of the automaton was laid as a placeholder and never linked. -/
  | unlinkedNode
  deriving DecidableEq, Repr

namespace Fault

/-- The wording of a fault. -/
def message : Fault → String
  | descendingRange lo hi => "descending range " ++ Text.hex lo ++ "-" ++ Text.hex hi
  | boundBelowZero => "attempt to subtract with overflow"
  | boundAboveWidth => "attempt to add with overflow"
  | indexOutOfBounds index length =>
    "index " ++ Nat.repr index ++ " out of bounds for length " ++ Nat.repr length
  | tagOutsideBank tag => "tag " ++ Nat.repr tag ++ " outside the output bank"
  | registerOutsideBank register size =>
    "register " ++ Nat.repr register ++ " outside the working bank of " ++ Nat.repr size
  | unbalancedGroup opens closes =>
    "unbalanced group boundaries " ++ Text.bracketed [Text.numbers opens, Text.numbers closes]
  | unknownNode node => "node " ++ Nat.repr node ++ " outside the automaton"
  | unknownState state => "state " ++ Nat.repr state ++ " has not been built"
  | unknownClass index => "class " ++ Nat.repr index ++ " outside the alphabet"
  | unlinkedNode => "unlinked split state in TNFA"

end Fault

end Submatch
