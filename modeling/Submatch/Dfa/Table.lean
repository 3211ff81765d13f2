import Submatch.Dfa.Machine
import Submatch.Order.Bisection

/-!
# The transition table

Transitions found lately lie in a hash map. Packing the table merges them into an array
sorted by state and symbol, which is searched by bisection.

* `StepKey.le_trans`, `StepKey.le_total`: keys can be sorted.
-/

namespace Submatch

/-- Classes are ordered by their index, and the end of the text comes after them. -/
def InputSymbol.le : InputSymbol → InputSymbol → Bool
  | letter i, letter j => i ≤ j
  | letter _, ending => true
  | ending, letter _ => false
  | ending, ending => true

/-- A state and a symbol read in it. -/
structure StepKey where
  /-- The state. -/
  state : Nat
  /-- The symbol. -/
  symbol : InputSymbol
  deriving DecidableEq, Hashable, Repr

/-- Keys are ordered by state, then by symbol. -/
def StepKey.le (a b : StepKey) : Bool :=
  a.state < b.state || (a.state == b.state && a.symbol.le b.symbol)

theorem InputSymbol.le_trans {a b c : InputSymbol} (h₁ : a.le b = true) (h₂ : b.le c = true) :
    a.le c = true := by
  cases a <;> cases b <;> cases c <;> grind [InputSymbol.le]

theorem InputSymbol.le_total (a b : InputSymbol) : (a.le b || b.le a) = true := by
  cases a <;> cases b <;> grind [InputSymbol.le]

theorem InputSymbol.le_antisymm {a b : InputSymbol} (h₁ : a.le b = true) (h₂ : b.le a = true) :
    a = b := by
  cases a <;> cases b <;> grind [InputSymbol.le]

theorem StepKey.le_trans {a b c : StepKey} (h₁ : a.le b = true) (h₂ : b.le c = true) :
    a.le c = true := by
  simp only [StepKey.le, Bool.or_eq_true, Bool.and_eq_true, decide_eq_true_eq, beq_iff_eq] at *
  rcases h₁ with h₁ | ⟨h₁, h₁'⟩ <;> rcases h₂ with h₂ | ⟨h₂, h₂'⟩
  · exact .inl (by omega)
  · exact .inl (by omega)
  · exact .inl (by omega)
  · exact .inr ⟨by omega, InputSymbol.le_trans h₁' h₂'⟩

theorem StepKey.le_total (a b : StepKey) : (a.le b || b.le a) = true := by
  have h := InputSymbol.le_total a.symbol b.symbol
  simp only [StepKey.le, Bool.or_eq_true, Bool.and_eq_true, decide_eq_true_eq, beq_iff_eq] at *
  rcases Nat.lt_trichotomy a.state b.state with hs | hs | hs
  · exact .inl (.inl hs)
  · rcases h with h | h
    · exact .inl (.inr ⟨hs, h⟩)
    · exact .inr (.inr ⟨hs.symm, h⟩)
  · exact .inr (.inl hs)

/-- The transitions found so far, of any type of transition. -/
structure TransitionTable (τ : Type) where
  /-- The packed transitions, sorted by key. -/
  packed : Array (StepKey × τ)
  /-- The transitions found since the table was packed. -/
  recent : Std.HashMap StepKey τ

namespace TransitionTable

variable {τ : Type}

/-- No transition has been found. -/
def empty : TransitionTable τ := ⟨#[], {}⟩

/-- The packed transition with a key. -/
def lookupPacked (packed : Array (StepKey × τ)) (key : StepKey) : Option τ :=
  match packed[Order.partitionPoint packed fun entry => !key.le entry.1]? with
  | some entry => if entry.1 = key then some entry.2 else none
  | none => none

/-- The transition with a key. -/
def lookup (t : TransitionTable τ) (key : StepKey) : Option τ :=
  match lookupPacked t.packed key with
  | some transition => some transition
  | none => t.recent[key]?

/-- Add a transition. -/
def insert (t : TransitionTable τ) (key : StepKey) (transition : τ) : TransitionTable τ :=
  { t with recent := t.recent.insert key transition }

/-- Every transition is packed. -/
def isPacked (t : TransitionTable τ) : Bool := t.recent.isEmpty

/-- Merge what was found lately into the sorted array. -/
def pack (t : TransitionTable τ) : TransitionTable τ :=
  if t.isPacked then t
  else
    let entries := t.packed.toList ++ t.recent.toList
    let sorted := entries.mergeSort fun a b => a.1.le b.1
    ⟨(sorted.eraseRepsBy fun a b => a.1 == b.1).toArray, {}⟩

/-- The number of transitions. -/
def size (t : TransitionTable τ) : Nat := t.packed.size + t.recent.size

end TransitionTable

end Submatch
