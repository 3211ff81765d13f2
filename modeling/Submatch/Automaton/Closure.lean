import Submatch.Automaton.Basic

/-!
# The closure of threads under silent steps

From threads in the order of their priority, `Automaton.closure` follows marks and
forks, first alternatives first, to the nodes where threads come to rest. The first
thread to come to a node keeps it, and nothing behind the accepting node is kept.
-/

namespace Submatch

/-- A thread on its way: where it is, what is known of the thread it comes from, and the
tags passed. -/
structure Arrival (σ : Type) where
  /-- The node reached. -/
  node : Nat
  /-- What the thread brings from where it comes from. -/
  origin : σ
  /-- The indices of the tags passed, newest first. -/
  passed : List Nat
  deriving DecidableEq, Repr

variable {σ : Type}

namespace Arrival

/-- Go on at another node. -/
def goTo (a : Arrival σ) (node : Nat) : Arrival σ := { a with node }

/-- Pass a tag and go on at another node. -/
def passTo (a : Arrival σ) (tag : Tag) (node : Nat) : Arrival σ :=
  { a with node, passed := tag.index :: a.passed }

end Arrival

/-- Marking an unmarked place leaves fewer of them unmarked. -/
theorem count_false_set_lt {marks : Array Bool} {i : Nat} (h : i < marks.size)
    (hi : marks[i] = false) : (marks.set i true h).count false < marks.count false := by
  have hpos : 0 < marks.count false := Array.count_pos_iff.2 (hi ▸ Array.getElem_mem h)
  have hset := Array.count_set (b := false) (a := true) h
  rw [if_pos (beq_iff_eq.2 hi), if_neg (by decide)] at hset
  omega

namespace Automaton

/-- Follow the threads of the stack, top first, through the nodes not yet visited, and
add the ones that come to rest to `rested`, newest first. Each node is left at most once,
so the number of unvisited nodes and the height of the stack decrease together. -/
def closureFrom (A : Automaton) (visited : Array Bool) (stack rested : List (Arrival σ)) :
    Except Fault (List (Arrival σ)) :=
  match stack with
  | [] => .ok rested
  | a :: rest =>
    if h : a.node < visited.size then
      -- a preferred thread has come to the node before
      if hv : visited[a.node] = true then closureFrom A visited rest rested
      else
        let visited' := visited.set a.node true
        match A.nodes[a.node]? with
        | none => .error (.unknownNode a.node)
        | some (.consume ..) => closureFrom A visited' rest (a :: rested)
        -- whatever is left on the stack is less preferred than this match
        | some .accept => .ok (a :: rested)
        | some (.mark tag next) => closureFrom A visited' (a.passTo tag next :: rest) rested
        | some (.fork first second) =>
          closureFrom A visited' (a.goTo first :: a.goTo second :: rest) rested
    else .error (.unknownNode a.node)
termination_by (visited.count false, stack.length)
decreasing_by
  · exact Prod.Lex.right _ (Nat.lt_succ_self _)
  all_goals exact Prod.Lex.left _ _ (count_false_set_lt h (eq_false_of_ne_true hv))

/-- The threads at rest that the given nodes lead to, in the order of their priority,
each with what came with the node it started from. -/
def closure (A : Automaton) (seeds : List (Nat × σ)) : Except Fault (List (Arrival σ)) := do
  let visited := Array.replicate A.nodes.size false
  return (← A.closureFrom visited (seeds.map fun s => ⟨s.1, s.2, []⟩) []).reverse

end Automaton

end Submatch
