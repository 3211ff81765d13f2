/-!
# Settings

The limits on what a pattern may ask for, and when the transition table is packed.
-/

namespace Submatch

/-- The limits that a pattern has to respect. -/
structure Limits where
  /-- How deep groups may be nested. -/
  maxNesting : Nat := 250
  /-- The largest count that a counted repetition may name. The automaton holds a copy
  of the body for every repetition, so this bounds its size. -/
  maxRepetition : Nat := 1000
  deriving DecidableEq, Repr

/-- The settings under which a pattern is compiled and run. -/
structure Config extends Limits where
  /-- How many runs in a row must find every transition in the table before the table
  is packed. Zero leaves it unpacked for good. -/
  freezeAfter : Nat := 4
  deriving DecidableEq, Repr

end Submatch
