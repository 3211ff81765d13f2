import Submatch.Dfa.Frontier
import Submatch.Automaton.Fragment

/-!
# Building the deterministic automaton

A `Machine` is what is fixed about a pattern: its automaton, its alphabet and the layout
of its registers. A `StateStore` numbers the frontiers met so far. `StateStore.start` and
`StateStore.expand` take one step of the deterministic automaton and number the frontier
reached, so that equal frontiers share a number.
-/

namespace Submatch

/-- What the deterministic automaton reads: characters by their class, and the end. -/
inductive InputSymbol where
  /-- A character of the class with the given index. -/
  | letter (index : Nat)
  /-- The end of the text. -/
  | ending
  deriving DecidableEq, Hashable, Repr

/-- Where a transition leads. -/
inductive Target where
  /-- Nowhere: no thread is left. -/
  | dead
  /-- To the state of the given number. -/
  | state (id : Nat) (acceptance : Acceptance)
  deriving DecidableEq, Repr

/-- A transition of the deterministic automaton. -/
structure Transition where
  /-- Where it leads. -/
  target : Target
  /-- How it updates the registers. -/
  program : List Instruction
  deriving DecidableEq, Repr

/-- The transition that leads nowhere. -/
def Transition.dead : Transition := ⟨.dead, []⟩

/-- What is fixed about a pattern. -/
structure Machine where
  /-- The tagged automaton. -/
  automaton : Automaton
  /-- The classes of characters that it tells apart. -/
  alphabet : Alphabet
  /-- The layout of its registers. -/
  layout : Layout

/-- The machine of an automaton. -/
def Machine.ofAutomaton (A : Automaton) : Machine := ⟨A, .ofRanges A.ranges, .ofAutomaton A⟩

/-- The machine of a pattern. -/
def Machine.ofPattern (n : NumberedPattern) : Machine := ofAutomaton (.ofPattern n)

/-- The frontiers met so far; the number of a frontier is its state. -/
abbrev StateStore := Numbering Frontier

namespace StateStore

/-- The frontier with a number. -/
def getFrontier (s : StateStore) (id : Nat) : Except Fault Frontier :=
  match s.items[id]? with
  | some f => .ok f
  | none => .error (.unknownState id)

/-- The transition of a step, once the frontier that it reaches has a number. -/
def record (s : StateStore) : Expansion → Transition × StateStore
  | .dead => (.dead, s)
  | .reach frontier program =>
    let (id, s) := s.add frontier
    (⟨.state id frontier.acceptance, program⟩, s)

/-- The transition to the frontier before the first character. -/
def start (M : Machine) (s : StateStore) : Except Fault (Transition × StateStore) :=
  return s.record (← Frontier.initial M.automaton M.layout)

/-- The transition from a state on a symbol. At the end of the text an accepting state
keeps its number, and only the registers are brought to the output bank. -/
def expand (M : Machine) (s : StateStore) (source : Nat) (symbol : InputSymbol) :
    Except Fault (Transition × StateStore) := do
  let f ← s.getFrontier source
  match symbol with
  | .letter index =>
    -- the ranges of the automaton do not tell the symbols of a class apart
    let representative := (← M.alphabet.getClass index).lo
    return s.record (← f.advance M.automaton M.layout representative)
  | .ending =>
    match ← f.flush M.layout with
    | some program => return (⟨.state source f.acceptance, program⟩, s)
    | none => return (.dead, s)

end StateStore

end Submatch
