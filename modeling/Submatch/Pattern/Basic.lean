import Submatch.Symbols.RangeSet

/-!
# Patterns

The syntax tree of a pattern. Sequences and alternatives are binary and nest to the
right; `Pattern.seqAll` and `Pattern.altAll` fold a list of parts into that form.
-/

namespace Submatch

/-- How often a body is repeated, and whether fewer repetitions are preferred. -/
structure Quantifier where
  /-- The least number of repetitions. -/
  min : Nat
  /-- The greatest number of repetitions, or `none` if there is no bound. -/
  max : Option Nat
  /-- Fewer repetitions are tried before more. -/
  isLazy : Bool := false
  deriving DecidableEq, Repr

/-- A pattern over characters, with numbered capturing groups. -/
inductive Pattern where
  /-- The empty text. -/
  | empty
  /-- One given character. -/
  | char (c : Char)
  /-- One character from a set of ranges. -/
  | set (ranges : List SymbolRange)
  /-- Any one character. -/
  | any
  /-- The left pattern followed by the right one. -/
  | seq (left right : Pattern)
  /-- Either pattern, the left one preferred. -/
  | alt (left right : Pattern)
  /-- A body repeated as the quantifier says. -/
  | repeated (body : Pattern) (quantifier : Quantifier)
  /-- A capturing group. Number zero is kept for the whole pattern. -/
  | group (index : Nat) (body : Pattern)
  deriving DecidableEq

namespace Pattern

/-- The sequence of a list of parts; of no parts, the empty pattern. -/
def seqAll : List Pattern → Pattern
  | [] => empty
  | [p] => p
  | p :: q :: rest => seq p (seqAll (q :: rest))

/-- The choice between the branches of a list, earlier ones preferred. -/
def altAll : List Pattern → Pattern
  | [] => empty
  | [p] => p
  | p :: q :: rest => alt p (altAll (q :: rest))

@[simp] theorem seqAll_nil : seqAll [] = empty := rfl

@[simp] theorem seqAll_singleton (p : Pattern) : seqAll [p] = p := rfl

@[simp] theorem seqAll_cons_cons (p q : Pattern) (rest : List Pattern) :
    seqAll (p :: q :: rest) = seq p (seqAll (q :: rest)) := rfl

@[simp] theorem altAll_singleton (p : Pattern) : altAll [p] = p := rfl

@[simp] theorem altAll_cons_cons (p q : Pattern) (rest : List Pattern) :
    altAll (p :: q :: rest) = alt p (altAll (q :: rest)) := rfl

end Pattern

/-- A pattern whose capturing groups are numbered in the order in which they open,
with the table of their nesting. -/
structure NumberedPattern where
  /-- The pattern itself. -/
  pattern : Pattern
  /-- For every group the number of the innermost group around it: zero for the outermost
  groups, and for group zero, which stands for the whole pattern. -/
  parents : Array Nat
  deriving DecidableEq

/-- The number of capturing groups, without group zero. -/
def NumberedPattern.groupCount (n : NumberedPattern) : Nat := n.parents.size - 1

end Submatch
