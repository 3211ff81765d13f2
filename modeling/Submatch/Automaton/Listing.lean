import Submatch.Automaton.Basic

/-!
# The listing of an automaton

One line per node: a star at the start node, the index, and what the node does.
-/

namespace Submatch

/-- The name of a boundary in a listing. -/
def Boundary.text : Boundary → String
  | opening => "Open"
  | closing => "Close"

/-- What a node does, in words. -/
def Node.text : Node → String
  | consume ranges next => String.join (ranges.map SymbolRange.text) ++ " -> " ++ Nat.repr next
  | mark tag next =>
    "split " ++ tag.boundary.text ++ Nat.repr tag.group ++ "->" ++ Nat.repr next
  | fork first second => "split ->" ++ Nat.repr first ++ " | ->" ++ Nat.repr second
  | accept => "final"

/-- The line of a node with the given index. -/
def Automaton.line (A : Automaton) (index : Nat) (node : Node) : String :=
  (if index = A.start then "*" else " ") ++ Text.rightAligned 4 index ++ ": " ++ node.text ++ "\n"

/-- The listing of an automaton. -/
def Automaton.text (A : Automaton) : String :=
  String.join (A.nodes.toList.zipIdx.map fun (node, index) => A.line index node)

end Submatch
