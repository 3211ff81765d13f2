import Mathlib.Logic.Relation
import Submatch.Proofs.Automaton.Fragment

/-!
# Every node lies on the way

Edges lead from a node to the nodes that it names, whatever it reads or passes. Through the fragment
of a pattern they lead from where it is entered to each of its nodes, and from each of its nodes on
to the node behind it (`Blueprint.connected_ofPattern`), wherever it lies and wherever it goes on: a
fragment may have no nodes at all, and the one behind it may be the fork of a loop around it. So in
the automaton of a pattern every node is reached from the start, and leads to the accepting one
(`Automaton.reaches_ofPattern`).
-/

namespace Submatch

namespace Automaton

/-- A node names the other. -/
def Edge (A : Automaton) (i j : Nat) : Prop :=
  ∃ node, A.nodes[i]? = some node ∧ j ∈ node.targets

/-- Edges lead from one node to the other. -/
abbrev Reaches (A : Automaton) : Nat → Nat → Prop := Relation.ReflTransGen A.Edge

end Automaton

/-- Through nodes that lie from `base` on, edges lead from the node `entry` to all of them, and from
all of them to the node `next`. -/
structure Connects (nodes : Array Node) (base entry next : Nat) : Prop where
  through : ∀ A : Automaton, A.Holds base nodes → A.Reaches entry next
  forth : ∀ A : Automaton, A.Holds base nodes →
    ∀ i, base ≤ i → i < base + nodes.size → A.Reaches entry i
  back : ∀ A : Automaton, A.Holds base nodes →
    ∀ i, base ≤ i → i < base + nodes.size → A.Reaches i next

/-- The fragments of a blueprint are connected, wherever they lie and wherever they go on. -/
def Blueprint.Connected (b : Blueprint) : Prop :=
  ∀ next base, Connects (b next base).nodes base (b next base).entry next

variable {base entry next mid : Nat} {xs ys : Array Node} {node : Node} {A : Automaton}

theorem Blueprint.mem_targets_forkNode {isLazy : Bool} {more stop : Nat} :
    more ∈ (forkNode isLazy more stop).targets ∧ stop ∈ (forkNode isLazy more stop).targets := by
  cases isLazy <;> simp [forkNode, Node.targets]

namespace Connects

theorem nil (base next : Nat) : Connects #[] base next next where
  through := fun _ _ => .refl
  forth := fun A _ i hi hlt => by
    rw [Array.size_empty] at hlt
    omega
  back := fun A _ i hi hlt => by
    rw [Array.size_empty] at hlt
    omega

/-- Nodes behind others, which they go on to. -/
theorem append (hxs : Connects xs base mid next)
    (hys : Connects ys (base + xs.size) entry mid) : Connects (xs ++ ys) base entry next where
  through := fun A hA => by
    obtain ⟨hx, hy⟩ := Automaton.holds_append.1 hA
    exact (hys.through A hy).trans (hxs.through A hx)
  forth := fun A hA i hi hlt => by
    obtain ⟨hx, hy⟩ := Automaton.holds_append.1 hA
    rw [Array.size_append] at hlt
    by_cases hlast : i < base + xs.size
    · exact (hys.through A hy).trans (hxs.forth A hx i hi hlast)
    · exact hys.forth A hy i (by omega) (by omega)
  back := fun A hA i hi hlt => by
    obtain ⟨hx, hy⟩ := Automaton.holds_append.1 hA
    rw [Array.size_append] at hlt
    by_cases hlast : i < base + xs.size
    · exact hxs.back A hx i hi hlast
    · exact (hys.back A hy i (by omega) (by omega)).trans (hxs.through A hx)

/-- One node that names where to go on. -/
theorem singleton (hnext : next ∈ node.targets) (base : Nat) : Connects #[node] base base next := by
  have hedge : ∀ A : Automaton, A.Holds base #[node] → A.Reaches base next := fun A hA =>
    .single ⟨node, Automaton.holds_singleton.1 hA, hnext⟩
  have hself : ∀ i, base ≤ i → i < base + (#[node] : Array Node).size → i = base := by
    intro i hi hlt
    rw [show (#[node] : Array Node).size = 1 from rfl] at hlt
    omega
  refine ⟨hedge, fun A _ i hi hlt => ?_, fun A hA i hi hlt => ?_⟩
  · rw [hself i hi hlt]
  · rw [hself i hi hlt]
    exact hedge A hA

/-- One more node behind others, which names where they are entered. -/
theorem push (h : Connects xs base entry next) (hentry : entry ∈ node.targets) :
    Connects (xs.push node) base (base + xs.size) next := by
  rw [← Array.append_singleton]
  exact h.append (singleton hentry _)

/-- Nodes on two sides behind the same node, and a fork that names both. -/
theorem branch {other : Nat} (hxs : Connects xs base other next)
    (hys : Connects ys (base + xs.size) entry next) (hother : other ∈ node.targets)
    (hentry : entry ∈ node.targets) :
    Connects ((xs ++ ys).push node) base (base + (xs ++ ys).size) next := by
  have hsize : ((xs ++ ys).push node).size = xs.size + ys.size + 1 := by
    rw [Array.size_push, Array.size_append]
  have hsides : ∀ A : Automaton, A.Holds base ((xs ++ ys).push node) →
      A.Holds base xs ∧ A.Holds (base + xs.size) ys ∧
        A.Edge (base + (xs ++ ys).size) other ∧ A.Edge (base + (xs ++ ys).size) entry := by
    intro A hA
    obtain ⟨hboth, hnode⟩ := Automaton.holds_push.1 hA
    obtain ⟨hx, hy⟩ := Automaton.holds_append.1 hboth
    exact ⟨hx, hy, ⟨node, hnode, hother⟩, ⟨node, hnode, hentry⟩⟩
  have hthrough : ∀ A : Automaton, A.Holds base ((xs ++ ys).push node) →
      A.Reaches (base + (xs ++ ys).size) next := by
    intro A hA
    obtain ⟨-, hy, -, hedge⟩ := hsides A hA
    exact .head hedge (hys.through A hy)
  refine ⟨hthrough, fun A hA i hi hlt => ?_, fun A hA i hi hlt => ?_⟩
  all_goals
    obtain ⟨hx, hy, hleft, hright⟩ := hsides A hA
    rw [hsize] at hlt
    have hcases : i < base + xs.size ∨
        base + xs.size ≤ i ∧ i < base + xs.size + ys.size ∨ i = base + (xs ++ ys).size := by
      rw [Array.size_append]
      omega
  · rcases hcases with hlow | ⟨hge, hlow⟩ | rfl
    · exact .head hleft (hxs.forth A hx i hi hlow)
    · exact .head hright (hys.forth A hy i hge hlow)
    · exact .refl
  · rcases hcases with hlow | ⟨hge, hlow⟩ | rfl
    · exact hxs.back A hx i hi hlow
    · exact hys.back A hy i hge hlow
    · exact hthrough A hA

/-- A fork in front of nodes that go back to it. It does not matter where the loop is entered. -/
theorem loop (hxs : Connects xs (base + 1) entry base) (hentry : entry ∈ node.targets)
    (hnext : next ∈ node.targets) {start : Nat} (hstart : start = base ∨ start = entry) :
    Connects (#[node] ++ xs) base start next := by
  have hsize : (#[node] ++ xs).size = 1 + xs.size := Array.size_append
  have hparts : ∀ A : Automaton, A.Holds base (#[node] ++ xs) →
      A.Holds (base + 1) xs ∧ A.Edge base entry ∧ A.Edge base next := by
    intro A hA
    obtain ⟨hnode, hx⟩ := Automaton.holds_append.1 hA
    rw [Automaton.holds_singleton] at hnode
    exact ⟨hx, ⟨node, hnode, hentry⟩, ⟨node, hnode, hnext⟩⟩
  -- from both places where the loop may be entered one comes to the fork
  have hfork : ∀ A : Automaton, A.Holds base (#[node] ++ xs) → A.Reaches start base := by
    intro A hA
    rcases hstart with rfl | rfl
    · exact .refl
    · exact hxs.through A (hparts A hA).1
  refine ⟨fun A hA => ?_, fun A hA i hi hlt => ?_, fun A hA i hi hlt => ?_⟩
  all_goals obtain ⟨hx, hbody, hout⟩ := hparts A hA
  · exact (hfork A hA).tail hout
  · refine (hfork A hA).trans ?_
    rcases Nat.eq_or_lt_of_le hi with rfl | hlow
    · exact .refl
    · exact .head hbody (hxs.forth A hx i hlow (by omega))
  · rcases Nat.eq_or_lt_of_le hi with rfl | hlow
    · exact .single hout
    · exact (hxs.back A hx i hlow (by omega)).tail hout

end Connects

namespace Blueprint

variable {b c : Blueprint} {f : Fragment}

theorem Connected.precede (hb : b.Connected) (h : Connects f.nodes base f.entry next) :
    Connects (f.precede base b).nodes base (f.precede base b).entry next :=
  h.append (hb f.entry (base + f.nodes.size))

theorem connected_skip : skip.Connected := fun next base => .nil base next

theorem connected_consume (ranges : List SymbolRange) : (consume ranges).Connected :=
  fun _ base => .singleton List.mem_cons_self base

theorem Connected.seq (hb : b.Connected) (hc : c.Connected) : (seq b c).Connected :=
  fun next base => hb.precede (hc next base)

theorem Connected.alt (hb : b.Connected) (hc : c.Connected) : (alt b c).Connected := by
  intro next base
  refine (hc next base).branch (hb next (base + (c next base).nodes.size)) ?_ ?_
  · exact List.mem_cons_of_mem _ List.mem_cons_self
  · exact List.mem_cons_self

theorem Connected.group (hb : b.Connected) (index : Nat) : (group index b).Connected := by
  intro next base
  have hclose : Connects #[.mark ⟨index, .closing⟩ next] base base next :=
    .singleton List.mem_cons_self base
  have hinner := hb.precede (f := ⟨#[.mark ⟨index, .closing⟩ next], base⟩) hclose
  exact hinner.push List.mem_cons_self

theorem Connected.star (hb : b.Connected) (isLazy : Bool) : (star isLazy b).Connected :=
  fun _ base => (hb base (base + 1)).loop mem_targets_forkNode.1 mem_targets_forkNode.2 (.inl rfl)

theorem Connected.plus (hb : b.Connected) (isLazy : Bool) : (plus isLazy b).Connected :=
  fun _ base => (hb base (base + 1)).loop mem_targets_forkNode.1 mem_targets_forkNode.2 (.inr rfl)

theorem Connected.optional (hb : b.Connected) (isLazy : Bool) (n : Nat) :
    (optional isLazy b n).Connected := by
  intro next base
  induction n with
  | zero => exact connected_skip next base
  | succ n ih => exact (hb.precede ih).push mem_targets_forkNode.1

theorem Connected.copies (hb : b.Connected) (hc : c.Connected) (n : Nat) :
    (copies b c n).Connected := by
  induction n with
  | zero => exact hc
  | succ n ih =>
    rw [copies_succ]
    exact hb.seq ih

theorem Connected.repeated (hb : b.Connected) (q : Quantifier) : (repeated b q).Connected := by
  obtain ⟨min, max, isLazy⟩ := q
  cases max with
  | some m => exact hb.copies (hb.optional isLazy (m - min)) min
  | none =>
    cases min with
    | zero => exact hb.star isLazy
    | succ n => exact hb.copies (hb.plus isLazy) n

/-- **The fragments of a pattern are connected.** -/
theorem connected_ofPattern (p : Pattern) : (ofPattern p).Connected := by
  induction p with
  | empty => exact connected_skip
  | char c => exact connected_consume _
  | set ranges => exact connected_consume ranges
  | any => exact connected_consume _
  | seq left right ihl ihr => exact ihl.seq ihr
  | alt left right ihl ihr => exact ihl.alt ihr
  | repeated body q ih => exact ih.repeated q
  | group index body ih => exact ih.group index

end Blueprint

namespace Automaton

/-- **Every node of a pattern lies on the way** from the start to the accepting node. -/
theorem reaches_ofPattern (n : NumberedPattern) {i : Nat} (hi : i < (ofPattern n).nodes.size) :
    (ofPattern n).Reaches (ofPattern n).start i ∧ (ofPattern n).Reaches i final := by
  have hwhole := (Blueprint.connected_ofPattern n.pattern).group 0 final 1
  have hholds := holds_ofPattern n
  have hsize : (ofPattern n).nodes.size =
      1 + (Blueprint.group 0 (Blueprint.ofPattern n.pattern) final 1).nodes.size :=
    Array.size_append
  by_cases hfinal : i = final
  · subst hfinal
    exact ⟨hwhole.through _ hholds, .refl⟩
  · have hpos : 1 ≤ i := Nat.pos_of_ne_zero hfinal
    exact ⟨hwhole.forth _ hholds i hpos (by omega), hwhole.back _ hholds i hpos (by omega)⟩

end Automaton

end Submatch
