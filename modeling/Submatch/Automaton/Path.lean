import Submatch.Automaton.Basic

/-!
# Paths through an automaton

A path is a list of moves: a character read, a boundary passed, or a branch of a fork
taken. `Automaton.Path` relates two nodes by the moves that lead from one to the other.

* `Path.append`: paths can be put together;
* `path_cons_iff`: a path is a step and then a path.
-/

namespace Submatch

/-- One move of a thread. -/
inductive Motion where
  /-- Read a character. -/
  | read (c : Char)
  /-- Pass a group boundary. -/
  | pass (tag : Tag)
  /-- Take the first or the second branch of a fork. -/
  | choose (isFirst : Bool)
  deriving DecidableEq, Repr

namespace Motion

/-- The character read, if one is. -/
def char? : Motion → Option Char
  | read c => some c
  | _ => none

/-- The boundary passed, if one is. -/
def tag? : Motion → Option Tag
  | pass tag => some tag
  | _ => none

end Motion

namespace Automaton

/-- A single move from one node to another. -/
inductive Step (A : Automaton) : Nat → Motion → Nat → Prop where
  | read {i : Nat} {ranges : List SymbolRange} {next : Nat} {c : Char}
      (node : A.nodes[i]? = some (.consume ranges next))
      (covered : RangeSet.covers ranges c.toNat = true) : Step A i (.read c) next
  | pass {i : Nat} {tag : Tag} {next : Nat} (node : A.nodes[i]? = some (.mark tag next)) :
      Step A i (.pass tag) next
  | first {i first second : Nat} (node : A.nodes[i]? = some (.fork first second)) :
      Step A i (.choose true) first
  | second {i first second : Nat} (node : A.nodes[i]? = some (.fork first second)) :
      Step A i (.choose false) second

/-- The moves that lead from one node to another. -/
inductive Path (A : Automaton) : Nat → List Motion → Nat → Prop where
  | refl (i : Nat) : Path A i [] i
  | step {i j k : Nat} {m : Motion} {ms : List Motion} (first : Step A i m j)
      (rest : Path A j ms k) : Path A i (m :: ms) k

variable {A : Automaton}

theorem path_cons_iff {i k : Nat} {m : Motion} {ms : List Motion} :
    A.Path i (m :: ms) k ↔ ∃ j, A.Step i m j ∧ A.Path j ms k :=
  ⟨fun | .step first rest => ⟨_, first, rest⟩, fun ⟨_, first, rest⟩ => .step first rest⟩

theorem Path.append {i j k : Nat} {ms ns : List Motion} (h₁ : A.Path i ms j)
    (h₂ : A.Path j ns k) : A.Path i (ms ++ ns) k := by
  induction h₁ with
  | refl => exact h₂
  | step first _ ih => exact .step first (ih h₂)

/-- A move from a node leads to one node only. -/
theorem Step.target_unique {i j k : Nat} {m : Motion} (h₁ : A.Step i m j) (h₂ : A.Step i m k) :
    j = k := by
  cases h₁ <;> cases h₂ <;> simp_all

end Automaton

end Submatch
