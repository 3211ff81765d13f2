import Submatch.Automaton.Basic
import Submatch.Pattern.Basic

/-!
# Automata of patterns

A pattern is turned into a `Fragment`: the nodes that it needs and the one where it
starts. A `Blueprint` is a fragment as a function of where its nodes are to lie and
where to go on behind it, so the parts of a pattern are laid out one after the other
and every node is complete when it is laid.
-/

namespace Submatch

/-- A run of nodes of an arena and the index where it is entered. -/
structure Fragment where
  /-- The nodes, in the order in which they lie. -/
  nodes : Array Node
  /-- The index of the node where the fragment is entered. -/
  entry : Nat

/-- A fragment that goes on at the node `next` and whose nodes lie from `base` on. -/
abbrev Blueprint := (next base : Nat) → Fragment

/-- One more node behind the others, which lie from `base` on; the fragment is entered
there. -/
def Fragment.add (f : Fragment) (base : Nat) (node : Node) : Fragment :=
  let entry := base + f.nodes.size
  ⟨f.nodes.push node, entry⟩

/-- One more part behind the nodes of a fragment, which lie from `base` on. The part goes
on where the fragment was entered, so it is passed first. -/
def Fragment.precede (f : Fragment) (base : Nat) (part : Blueprint) : Fragment :=
  let first := part f.entry (base + f.nodes.size)
  ⟨f.nodes ++ first.nodes, first.entry⟩

namespace Blueprint

/-- No nodes: go on at once. -/
def skip : Blueprint := fun next _ => ⟨#[], next⟩

/-- Read one character from the ranges. -/
def consume (ranges : List SymbolRange) : Blueprint := fun next base =>
  ⟨#[.consume ranges next], base⟩

/-- One fragment and then another; the second is laid first. -/
def seq (left right : Blueprint) : Blueprint := fun next base =>
  (right next base).precede base left

/-- A fork between two nodes; a lazy one prefers the second. -/
def forkNode (isLazy : Bool) (more stop : Nat) : Node :=
  if isLazy then .fork stop more else .fork more stop

/-- Either of two fragments, the left one preferred; the right one is laid first. -/
def alt (left right : Blueprint) : Blueprint := fun next base =>
  let other := right next base
  let preferred := left next (base + other.nodes.size)
  Fragment.add ⟨other.nodes ++ preferred.nodes, preferred.entry⟩ base
    (.fork preferred.entry other.entry)

/-- A fragment between the two boundaries of a group; the closing one is laid first. -/
def group (index : Nat) (body : Blueprint) : Blueprint := fun next base =>
  let inner := Fragment.precede ⟨#[.mark ⟨index, .closing⟩ next], base⟩ base body
  inner.add base (.mark ⟨index, .opening⟩ inner.entry)

/-- A body that returns to a fork laid before it. -/
def loop (isLazy : Bool) (body : Blueprint) : Blueprint := fun next base =>
  let inner := body base (base + 1)
  ⟨#[forkNode isLazy inner.entry next] ++ inner.nodes, inner.entry⟩

/-- Any number of repetitions: the loop is entered at its fork. -/
def star (isLazy : Bool) (body : Blueprint) : Blueprint := fun next base =>
  ⟨(loop isLazy body next base).nodes, base⟩

/-- At least one repetition: the loop is entered at its body. -/
def plus (isLazy : Bool) (body : Blueprint) : Blueprint := loop isLazy body

/-- One more repetition in front of a fragment, or none: to stop is to go on at the node
`stop`. -/
def optionally (isLazy : Bool) (body : Blueprint) (stop base : Nat) (f : Fragment) : Fragment :=
  let one := f.precede base body
  one.add base (forkNode isLazy one.entry stop)

/-- Up to `n` repetitions, each of which goes on with the next one or stops. -/
def optional (isLazy : Bool) (body : Blueprint) (n : Nat) : Blueprint := fun next base =>
  Nat.repeat (optionally isLazy body next base) n ⟨#[], next⟩

/-- `n` copies of a body and then the fragment `last`, which is laid first. -/
def copies (body last : Blueprint) (n : Nat) : Blueprint := fun next base =>
  Nat.repeat (·.precede base body) n (last next base)

/-- A body repeated as a quantifier says. -/
def repeated (body : Blueprint) (q : Quantifier) : Blueprint :=
  match q.max, q.min with
  | none, 0 => star q.isLazy body
  | none, n + 1 => copies body (plus q.isLazy body) n
  | some m, n => copies body (optional q.isLazy body (m - n)) n

@[simp] theorem optional_zero (isLazy : Bool) (body : Blueprint) :
    optional isLazy body 0 = skip := rfl

@[simp] theorem copies_zero (body last : Blueprint) : copies body last 0 = last := rfl

theorem copies_succ (body last : Blueprint) (n : Nat) :
    copies body last (n + 1) = seq body (copies body last n) := rfl

/-- The fragment of a pattern. -/
def ofPattern : Pattern → Blueprint
  | .empty => skip
  | .char c => consume [.ofChar c]
  | .set ranges => consume ranges
  | .any => consume [.full]
  | .seq left right => seq (ofPattern left) (ofPattern right)
  | .alt left right => alt (ofPattern left) (ofPattern right)
  | .repeated body q => repeated (ofPattern body) q
  | .group index body => group index (ofPattern body)

end Blueprint

/-- The automaton of a pattern: the accepting node, and in front of it the pattern as
group zero. -/
def Automaton.ofPattern (n : NumberedPattern) : Automaton :=
  let whole := Blueprint.group 0 (Blueprint.ofPattern n.pattern) Automaton.final 1
  ⟨#[.accept] ++ whole.nodes, whole.entry, n.groupCount, n.parents⟩

end Submatch
