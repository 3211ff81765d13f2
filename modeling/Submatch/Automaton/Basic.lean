import Submatch.Symbols.RangeSet

/-!
# Tagged automata

A tagged automaton is an arena of nodes that refer to each other by index. A node
consumes a character, marks a group boundary, forks with a preference, or accepts.
-/

namespace Submatch

/-- The two boundaries of a group. -/
inductive Boundary where
  | opening
  | closing
  deriving DecidableEq, Repr

/-- The event that a group is opened or closed. -/
structure Tag where
  /-- The number of the group. -/
  group : Nat
  /-- Which of its boundaries is passed. -/
  boundary : Boundary
  deriving DecidableEq, Repr

/-- The index of a tag: twice the number of the group, and one more for its end. -/
def Tag.index (t : Tag) : Nat :=
  match t.boundary with
  | .opening => 2 * t.group
  | .closing => 2 * t.group + 1

/-- A node of an automaton. -/
inductive Node where
  /-- Read one character that some range contains, and move on. -/
  | consume (ranges : List SymbolRange) (next : Nat)
  /-- Pass a group boundary without reading. -/
  | mark (tag : Tag) (next : Nat)
  /-- Go on at either of two nodes without reading, and prefer the first. -/
  | fork (first second : Nat)
  /-- Accept what has been read. -/
  | accept
  deriving DecidableEq

namespace Node

/-- The ranges that label the node. -/
def ranges : Node → List SymbolRange
  | consume rs _ => rs
  | _ => []

/-- Whether threads come to rest on the node, waiting for a character or accepting. -/
def isResting : Node → Bool
  | consume .. | accept => true
  | mark .. | fork .. => false

end Node

/-- The automaton of a pattern. -/
structure Automaton where
  /-- The arena. -/
  nodes : Array Node
  /-- The index of the node where threads start. -/
  start : Nat
  /-- The number of capturing groups, without group zero. -/
  groupCount : Nat
  /-- For every group the number of the innermost group around it. -/
  parents : Array Nat

namespace Automaton

/-- The index of the accepting node, which comes first in the arena. -/
def final : Nat := 0

/-- The number of tags, with the two of group zero. -/
def tagCount (A : Automaton) : Nat := 2 * (A.groupCount + 1)

/-- The node with the given index. -/
def getNode (A : Automaton) (index : Nat) : Except Fault Node :=
  match A.nodes[index]? with
  | some node => .ok node
  | none => .error (.unknownNode index)

/-- Every range that labels a node. -/
def ranges (A : Automaton) : List SymbolRange := A.nodes.toList.flatMap Node.ranges

/-- The number of nodes on which a thread can come to rest. -/
def restingCount (A : Automaton) : Nat := A.nodes.countP Node.isResting

end Automaton

end Submatch
