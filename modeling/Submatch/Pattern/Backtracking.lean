import Submatch.Automaton.Basic
import Submatch.Pattern.Basic

/-!
# Backtracking

What a backtracking search tries, in the order in which it tries it. A `Search` lists
for an offset of the text every way to go on from there: where it ends, and the group
boundaries passed on the way. `Pattern.search` gives the search of a pattern, in which
the first result is the preferred one.
-/

namespace Submatch

/-- A group boundary and the offset where it is passed. -/
structure Event where
  /-- The boundary. -/
  tag : Tag
  /-- The offset. -/
  position : Nat
  deriving DecidableEq, Repr

/-- One way through a part of a text. -/
structure Attempt where
  /-- The offset where it ends. -/
  stop : Nat
  /-- The boundaries passed, in order. -/
  events : List Event
  deriving DecidableEq, Repr

/-- The ways to go on from an offset, the preferred ones first. -/
abbrev Search := Nat → List Attempt

namespace Search

/-- Go on at once. -/
def skip : Search := fun i => [⟨i, []⟩]

/-- Read one character that passes a test. -/
def read (text : List Char) (test : Char → Bool) : Search := fun i =>
  match text[i]? with
  | some c => if test c then [⟨i + 1, []⟩] else []
  | none => []

/-- Continue every way of the first search, in order, by every way of the second. -/
def seq (first second : Search) : Search := fun i =>
  (first i).flatMap fun a => (second a.stop).map fun b => ⟨b.stop, a.events ++ b.events⟩

/-- The ways of one search and then those of another. -/
def orElse (first second : Search) : Search := fun i => first i ++ second i

/-- Pass the boundaries of a group around a search. -/
def group (index : Nat) (body : Search) : Search := fun i =>
  (body i).map fun a =>
    ⟨a.stop, ⟨⟨index, .opening⟩, i⟩ :: a.events ++ [⟨⟨index, .closing⟩, a.stop⟩]⟩

/-- Go on with one more repetition or stop at the offset `i`; a lazy search tries to stop
first. -/
def moreOrStop (isLazy : Bool) (i : Nat) (more : List Attempt) : List Attempt :=
  if isLazy then ⟨i, []⟩ :: more else more ++ [⟨i, []⟩]

/-- Up to `n` repetitions. -/
def optional (isLazy : Bool) (body : Search) : Nat → Search
  | 0 => skip
  | n + 1 => fun i => moreOrStop isLazy i (seq body (optional isLazy body n) i)

/-- Any number of repetitions that each read something, in a text of a given length. -/
def loop (length : Nat) (isLazy : Bool) (body : Search) (i : Nat) : List Attempt :=
  moreOrStop isLazy i <| (body i).flatMap fun a =>
    if i < a.stop ∧ a.stop ≤ length then
      (loop length isLazy body a.stop).map fun b => ⟨b.stop, a.events ++ b.events⟩
    else []
termination_by length - i

/-- `n` repetitions and then another search. -/
def copies (body last : Search) : Nat → Search
  | 0 => last
  | n + 1 => seq body (copies body last n)

/-- A search repeated as a quantifier says. -/
def repeated (length : Nat) (body : Search) (q : Quantifier) : Search :=
  match q.max with
  | none => copies body (loop length q.isLazy body) q.min
  | some m => copies body (optional q.isLazy body (m - q.min)) q.min

end Search

/-- The search of a pattern in a text. -/
def Pattern.search (text : List Char) : Pattern → Search
  | .empty => .skip
  | .char c => .read text (· == c)
  | .set ranges => .read text fun c => RangeSet.covers ranges c.toNat
  | .any => .read text fun _ => true
  | .seq left right => .seq (left.search text) (right.search text)
  | .alt left right => .orElse (left.search text) (right.search text)
  | .repeated body q => .repeated text.length (body.search text) q
  | .group index body => .group index (body.search text)

end Submatch
