import Submatch.Dfa.Machine

/-!
# Exploring the deterministic automaton

`Machine.explore` expands every state in the order of the numbers, on every class and at
the end of the text, until nothing is left or a number of steps has been taken.
-/

namespace Submatch

/-- A transition found, with the state and the symbol that it belongs to. -/
structure Discovery where
  /-- The state that is left. -/
  source : Nat
  /-- The symbol read. -/
  symbol : InputSymbol
  /-- The transition. -/
  transition : Transition
  deriving DecidableEq, Repr

/-- What an exploration finds. -/
structure Exploration where
  /-- The transition to the first state. -/
  start : Transition
  /-- The transitions in the order in which they are found. -/
  found : List Discovery
  /-- The states met. -/
  states : StateStore
  /-- Every state has been expanded on every symbol. -/
  isComplete : Bool

namespace Machine

/-- The symbol with a given place: the classes in order, and then the end. -/
def symbolAt (M : Machine) (place : Nat) : InputSymbol :=
  if place < M.alphabet.size then .letter place else .ending

/-- The number of symbols on which every state is expanded. -/
def symbolCount (M : Machine) : Nat := M.alphabet.size + 1

/-- Whether the first `taken` steps have expanded every state. -/
def isExhausted (M : Machine) (states : StateStore) (taken : Nat) : Bool :=
  states.size ≤ taken / M.symbolCount

/-- Go on after the first `taken` steps, which have found the given transitions, newest
first, with at most `budget` more. -/
def exploreFrom (M : Machine) : (budget taken : Nat) → (found : List Discovery) → StateStore →
    Except Fault (List Discovery × StateStore × Bool)
  | 0, taken, found, states => return (found, states, M.isExhausted states taken)
  | budget + 1, taken, found, states =>
    if M.isExhausted states taken then return (found, states, true)
    else do
      let source := taken / M.symbolCount
      let symbol := M.symbolAt (taken % M.symbolCount)
      let (transition, states) ← states.expand M source symbol
      exploreFrom M budget (taken + 1) (⟨source, symbol, transition⟩ :: found) states

/-- Explore from the first state, in at most `budget` steps. -/
def explore (M : Machine) (budget : Nat) : Except Fault Exploration := do
  let (start, states) ← StateStore.start M .empty
  let (found, states, isComplete) ← exploreFrom M budget 0 [] states
  return ⟨start, found.reverse, states, isComplete⟩

end Machine

end Submatch
