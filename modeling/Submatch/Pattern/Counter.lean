/-!
# Counters

A counter is the `{n}`, `{n,}` or `{n,m}` behind a repeated part. `Counter.step` takes
one character at a time, so that text that turns out to be no counter can be handed
back as the characters it consists of.
-/

namespace Submatch

/-- Counts are read exactly up to this number, and every larger one as this number. -/
def countCeiling : Nat := 4294967295

/-- The digit that a character stands for; only the ten of ASCII do. -/
def digit? (c : Char) : Option Nat := if c.isDigit then some (c.toNat - 48) else none

/-- A count with one more digit behind it. -/
def addDigit (count digit : Nat) : Nat := min countCeiling (count * 10 + digit)

/-- How far a counter has been read. A count is `none` before its first digit. -/
inductive CounterPhase where
  /-- Inside the first count. -/
  | first (count : Option Nat)
  /-- Behind the comma that follows the first count. -/
  | second (min : Nat) (count : Option Nat)
  deriving DecidableEq

/-- A counter that has been read in part, from its brace on. -/
structure Counter where
  /-- The offset of the brace. -/
  start : Nat
  /-- The characters before the last one, newest first. -/
  earlier : List Char
  /-- The last character read. -/
  last : Char
  /-- What they amount to. -/
  phase : CounterPhase

/-- What a counter becomes with one more character. -/
inductive CounterStep where
  /-- It goes on. -/
  | more (k : Counter)
  /-- It is complete, with these bounds. -/
  | complete (min : Nat) (max : Option Nat)
  /-- The characters do not form a counter. -/
  | broken

namespace Counter

/-- A counter of which only the brace has been read. -/
def opened (start : Nat) : Counter := ⟨start, [], '\x7b', .first none⟩

/-- Take one more character into the counter. -/
def extend (k : Counter) (c : Char) (phase : CounterPhase) : Counter :=
  ⟨k.start, k.last :: k.earlier, c, phase⟩

/-- Read one character of a counter. -/
def step (k : Counter) (c : Char) : CounterStep :=
  match digit? c, k.phase with
  | some d, .first count => .more (k.extend c (.first (some (addDigit (count.getD 0) d))))
  | some d, .second min count =>
    .more (k.extend c (.second min (some (addDigit (count.getD 0) d))))
  | none, .first none => .broken
  | none, .first (some n) =>
    if c = ',' then .more (k.extend c (.second n none))
    else if c = '\x7d' then .complete n (some n)
    else .broken
  | none, .second min count => if c = '\x7d' then .complete min count else .broken

end Counter

end Submatch
