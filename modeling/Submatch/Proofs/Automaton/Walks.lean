import Mathlib.Data.Finset.Card
import Submatch.Automaton.Closure
import Submatch.Automaton.Path

/-!
# Silent walks

A silent walk leads from a node to a node at rest without reading and without passing a
node twice. `Automaton.walks` lists the walks from a node in the order of their priority.
A search may avoid a node for good once nothing it looks for can be reached from there
(`filter_walks_insert`).
-/

namespace Submatch

/-- Moves that read nothing, and the node where they end. -/
structure Walk where
  /-- The moves. -/
  moves : List Motion
  /-- The node where they end. -/
  stop : Nat
  deriving DecidableEq

/-- The walk with one more move in front. -/
def Walk.cons (m : Motion) (w : Walk) : Walk := ⟨m :: w.moves, w.stop⟩

/-- The indices of the tags passed, in order. -/
def Motion.passes (ms : List Motion) : List Nat := ms.filterMap fun m => m.tag?.map Tag.index

/-- The arrival at the end of a walk. -/
def Arrival.along {σ : Type} (a : Arrival σ) (w : Walk) : Arrival σ :=
  ⟨w.stop, a.origin, (Motion.passes w.moves).reverse ++ a.passed⟩

/-- The nodes that a node names. -/
def Node.targets : Node → List Nat
  | consume _ next | mark _ next => [next]
  | fork first second => [first, second]
  | accept => []

namespace Automaton

/-- Every node that is named exists. -/
structure Closed (A : Automaton) : Prop where
  start : A.start < A.nodes.size
  targets : ∀ (i : Nat) (node : Node), A.nodes[i]? = some node →
    ∀ t ∈ node.targets, t < A.nodes.size

theorem card_sdiff_insert_lt {A : Automaton} {seen : Finset Nat} {i : Nat} {node : Node}
    (hi : i ∉ seen) (hn : A.nodes[i]? = some node) :
    (Finset.range A.nodes.size \ insert i seen).card < (Finset.range A.nodes.size \ seen).card := by
  obtain ⟨hlt, -⟩ := Array.getElem?_eq_some_iff.1 hn
  refine Finset.card_lt_card ⟨Finset.sdiff_subset_sdiff le_rfl (Finset.subset_insert i seen), ?_⟩
  intro hsub
  have hmem := hsub (Finset.mem_sdiff.2 ⟨Finset.mem_range.2 hlt, hi⟩)
  exact (Finset.mem_sdiff.1 hmem).2 (Finset.mem_insert_self i seen)

/-- The silent walks from a node to nodes at rest that avoid the nodes in `seen` and pass
no node twice, first branches first. -/
def walks (A : Automaton) (seen : Finset Nat) (i : Nat) : List Walk :=
  if _hi : i ∈ seen then []
  else
    match _hn : A.nodes[i]? with
    | none => []
    | some (.consume ..) => [⟨[], i⟩]
    | some .accept => [⟨[], i⟩]
    | some (.mark tag next) => (walks A (insert i seen) next).map (.cons (.pass tag))
    | some (.fork first second) =>
      (walks A (insert i seen) first).map (.cons (.choose true)) ++
        (walks A (insert i seen) second).map (.cons (.choose false))
termination_by (Finset.range A.nodes.size \ seen).card
decreasing_by all_goals exact card_sdiff_insert_lt _hi _hn

/-- The arrivals along the walks from where a thread is. -/
def landings {σ : Type} (A : Automaton) (seen : Finset Nat) (a : Arrival σ) : List (Arrival σ) :=
  (A.walks seen a.node).map a.along

variable {σ : Type} {A : Automaton} {seen : Finset Nat} {i : Nat}

theorem walks_of_mem (h : i ∈ seen) : A.walks seen i = [] := by
  rw [walks, dif_pos h]

theorem walks_of_resting {node : Node} (h : i ∉ seen) (hn : A.nodes[i]? = some node)
    (hr : node.isResting = true) : A.walks seen i = [⟨[], i⟩] := by
  cases node with
  | consume | accept =>
    rw [walks, dif_neg h]
    split <;> simp_all
  | mark | fork => cases hr

theorem walks_of_mark {tag : Tag} {next : Nat} (h : i ∉ seen)
    (hn : A.nodes[i]? = some (.mark tag next)) :
    A.walks seen i = (A.walks (insert i seen) next).map (.cons (.pass tag)) := by
  rw [walks, dif_neg h]
  split <;> simp_all

theorem walks_of_fork {first second : Nat} (h : i ∉ seen)
    (hn : A.nodes[i]? = some (.fork first second)) :
    A.walks seen i = (A.walks (insert i seen) first).map (.cons (.choose true)) ++
      (A.walks (insert i seen) second).map (.cons (.choose false)) := by
  rw [walks, dif_neg h]
  split <;> simp_all

theorem walks_of_none (hn : A.nodes[i]? = none) : A.walks seen i = [] := by
  rw [walks]
  split
  · rfl
  · split <;> simp_all

/-- Walks that avoid one more node are among the walks. -/
theorem walks_insert_sublist {seen : Finset Nat} {i : Nat} (a : Nat) :
    (A.walks (insert a seen) i).Sublist (A.walks seen i) := by
  by_cases hia : i ∈ insert a seen
  · rw [walks_of_mem hia]
    exact List.nil_sublist _
  have hi : i ∉ seen := fun h => hia (Finset.mem_insert_of_mem h)
  cases hn : A.nodes[i]? with
  | none => rw [walks_of_none hn, walks_of_none hn]
  | some node =>
    have hlt := card_sdiff_insert_lt hi hn
    cases node with
    | consume | accept => rw [walks_of_resting hi hn rfl, walks_of_resting hia hn rfl]
    | mark tag next =>
      rw [walks_of_mark hi hn, walks_of_mark hia hn, Finset.insert_comm]
      exact (walks_insert_sublist a).map _
    | fork first second =>
      rw [walks_of_fork hi hn, walks_of_fork hia hn, Finset.insert_comm]
      exact ((walks_insert_sublist a).map _).append ((walks_insert_sublist a).map _)
termination_by (Finset.range A.nodes.size \ seen).card

theorem filter_map_cons (good : Nat → Bool) (m : Motion) (ws : List Walk) :
    (ws.map (Walk.cons m)).filter (fun w => good w.stop) =
      (ws.filter fun w => good w.stop).map (Walk.cons m) :=
  List.filter_map ..

/-- **A node from which nothing good is reached can be avoided.** No walk that passes it
is missed among those to good nodes. -/
theorem filter_walks_insert {good : Nat → Bool} {a : Nat} {seen : Finset Nat} {i : Nat}
    (ha : ∀ w ∈ A.walks seen a, good w.stop = false) :
    (A.walks (insert a seen) i).filter (fun w => good w.stop) =
      (A.walks seen i).filter fun w => good w.stop := by
  by_cases hi : i ∈ seen
  · rw [walks_of_mem hi, walks_of_mem (Finset.mem_insert_of_mem hi)]
  by_cases hia : i = a
  · subst hia
    rw [walks_of_mem (Finset.mem_insert_self i seen), List.filter_nil]
    exact (List.filter_eq_nil_iff.2 fun w hw => by rw [ha w hw]; exact Bool.false_ne_true).symm
  have hni : i ∉ insert a seen := fun h => (Finset.mem_insert.1 h).elim hia hi
  -- behind `i` there are fewer walks from `a`, so they are no better
  have hrest : ∀ w ∈ A.walks (insert i seen) a, good w.stop = false :=
    fun w hw => ha w ((walks_insert_sublist i).subset hw)
  cases hn : A.nodes[i]? with
  | none => rw [walks_of_none hn, walks_of_none hn]
  | some node =>
    have hlt := card_sdiff_insert_lt hi hn
    cases node with
    | consume | accept => rw [walks_of_resting hi hn rfl, walks_of_resting hni hn rfl]
    | mark tag next =>
      rw [walks_of_mark hi hn, walks_of_mark hni hn, filter_map_cons, filter_map_cons,
        Finset.insert_comm, filter_walks_insert hrest]
    | fork first second =>
      rw [walks_of_fork hi hn, walks_of_fork hni hn, List.filter_append, List.filter_append,
        filter_map_cons, filter_map_cons, filter_map_cons, filter_map_cons, Finset.insert_comm,
        filter_walks_insert hrest, filter_walks_insert hrest]
termination_by (Finset.range A.nodes.size \ seen).card

end Automaton

end Submatch
