import Submatch.Automaton.Fragment
import Submatch.Fault

/-!
# Building an automaton node by node

`Builder.compile` lays the nodes of a pattern in an arena one after the other. The body of a loop
returns to a fork that is laid before it, when it is not yet known where the body is entered: the
fork is a placeholder until it is linked. In the end no placeholder may be left.
-/

namespace Submatch

/-- The nodes laid so far. A placeholder does not name any node yet. -/
abbrev Arena := Array (Option Node)

/-- What lays nodes. -/
abbrev Builder := StateT Arena (Except Fault)

namespace Builder

/-- Lay a node or a placeholder. -/
def lay (slot : Option Node) : Builder Nat := do
  let arena ← get
  set (arena.push slot)
  return arena.size

/-- Lay a node. -/
def push (node : Node) : Builder Nat := lay (some node)

/-- Lay a placeholder. -/
def placeholder : Builder Nat := lay none

/-- Put a node in the place of what has been laid. -/
def link (index : Nat) (node : Node) : Builder Unit := do
  let arena ← get
  if h : index < arena.size then set (arena.set index (some node))
  else throw (.indexOutOfBounds index arena.size)

/-- Lay a part a number of times, each time so that it goes on where the last one is entered. -/
def times (part : (next : Nat) → Builder Nat) : Nat → (next : Nat) → Builder Nat
  | 0, next => return next
  | n + 1, next => do part (← times part n next)

/-- A part between the two boundaries of a group. -/
def group (index : Nat) (part : (next : Nat) → Builder Nat) (next : Nat) : Builder Nat := do
  let close ← push (.mark ⟨index, .closing⟩ next)
  let entry ← part close
  push (.mark ⟨index, .opening⟩ entry)

/-- Any number of repetitions: the loop is entered at its fork. -/
def star (isLazy : Bool) (part : (next : Nat) → Builder Nat) (next : Nat) : Builder Nat := do
  let head ← placeholder
  let entry ← part head
  link head (Blueprint.forkNode isLazy entry next)
  return head

/-- At least one repetition: the loop is entered at its body. -/
def plus (isLazy : Bool) (part : (next : Nat) → Builder Nat) (next : Nat) : Builder Nat := do
  let tail ← placeholder
  let entry ← part tail
  link tail (Blueprint.forkNode isLazy entry next)
  return entry

/-- A repetition that is made or left out: to leave it out is to go on at the node `stop`. -/
def optionally (isLazy : Bool) (part : (next : Nat) → Builder Nat) (stop next : Nat) :
    Builder Nat := do
  let entry ← part next
  push (Blueprint.forkNode isLazy entry stop)

/-- A part repeated as a quantifier says. -/
def repeated (part : (next : Nat) → Builder Nat) (q : Quantifier) (next : Nat) : Builder Nat :=
  match q.max, q.min with
  | none, 0 => star q.isLazy part next
  | none, n + 1 => do times part n (← plus q.isLazy part next)
  | some m, n => do times part n (← times (optionally q.isLazy part next) (m - n) next)

/-- Lay a pattern so that it goes on at the node `next`, and return where it is entered. -/
def emit : Pattern → (next : Nat) → Builder Nat
  | .empty => fun next => return next
  | .char c => fun next => push (.consume [.ofChar c] next)
  | .set ranges => fun next => push (.consume ranges next)
  | .any => fun next => push (.consume [.full] next)
  | .seq left right => fun next => do emit left (← emit right next)
  | .alt left right => fun next => do
    let other ← emit right next
    let preferred ← emit left next
    push (.fork preferred other)
  | .repeated body q => repeated (emit body) q
  | .group index body => group index (emit body)

/-- The accepting node, and in front of it a pattern as group zero. -/
def whole (p : Pattern) : Builder Nat := do
  let final ← push .accept
  group 0 (emit p) final

/-- The node that has been laid. -/
def linked : Option Node → Except Fault Node
  | some node => .ok node
  | none => .error .unlinkedNode

/-- The automaton of a pattern. -/
def compile (n : NumberedPattern) : Except Fault Automaton := do
  let (start, arena) ← (whole n.pattern).run #[]
  let nodes ← arena.toList.mapM linked
  return ⟨nodes.toArray, start, n.groupCount, n.parents⟩

end Builder

end Submatch
