import Submatch.Pattern.Basic
import Submatch.Pattern.ReadError
import Submatch.Symbols.Shorthand

/-!
# Bracket classes

A bracket class such as `[^a-z\d_]` is a list of items: characters, ranges and
shorthands. `Bracket.step` reads one character at a time; when the bracket closes, the
union of the items, or its complement, becomes a set of ranges.
-/

namespace Submatch

/-- The character that a backslash and a letter stand for, if they name no shorthand. -/
def escaped : Char → Char
  | 'n' => '\n'
  | 'r' => '\r'
  | 't' => '\t'
  | c => c

/-- An item of a bracket class. -/
inductive BracketItem where
  /-- A character that stands for itself. -/
  | char (c : Char)
  /-- The characters between two bounds. -/
  | span (lo hi : Char) (lo_le_hi : lo.toNat ≤ hi.toNat)
  /-- The set of a shorthand letter. -/
  | shorthand (s : Shorthand)

/-- The ranges that an item denotes. -/
def BracketItem.ranges : BracketItem → List SymbolRange
  | char c => [.ofChar c]
  | span lo hi h => [⟨lo.toNat, hi.toNat, h⟩]
  | shorthand s => s.ranges

/-- Where in a bracket class the reader stands. -/
inductive BracketPhase where
  /-- Right behind the opening bracket. -/
  | opened
  /-- Behind the caret; a closing bracket here is an item. -/
  | first
  /-- Between two items. -/
  | item
  /-- Behind the backslash that starts an item at offset `start`. -/
  | escape (start : Nat)
  /-- Behind a character that may turn out to be the lower bound of a range. -/
  | lower (start : Nat) (lo : Char)
  /-- Behind the dash that follows such a character. -/
  | dash (start : Nat) (lo : Char)
  /-- Behind a backslash that follows the dash. -/
  | upperEscape (start : Nat) (lo : Char)
  deriving DecidableEq

/-- A bracket class that has been read in part. -/
structure Bracket where
  /-- The offset of the opening bracket. -/
  start : Nat
  /-- The class stands for the characters that no item contains. -/
  isNegated : Bool
  /-- The items read, newest first. -/
  items : List BracketItem
  /-- Where the reader stands. -/
  phase : BracketPhase

/-- What a bracket class becomes with one more character. -/
inductive BracketStep where
  /-- It goes on. -/
  | more (b : Bracket)
  /-- It is closed and denotes these ranges. -/
  | closed (ranges : List SymbolRange)

namespace Bracket

/-- A bracket class of which only the opening bracket has been read. -/
def opened (start : Nat) : Bracket := ⟨start, false, [], .opened⟩

/-- Move on to another place of the class. -/
def enter (b : Bracket) (phase : BracketPhase) : Bracket := { b with phase }

/-- Complete an item. -/
def push (b : Bracket) (item : BracketItem) : Bracket :=
  { b with items := item :: b.items, phase := .item }

/-- The set that the items denote, normalized. -/
def union (b : Bracket) : List SymbolRange :=
  RangeSet.normalize (b.items.reverse.flatMap BracketItem.ranges)

/-- The set that the class denotes. -/
def ranges (b : Bracket) : List SymbolRange :=
  if b.isNegated then RangeSet.complement b.union else b.union

/-- Read the first character of an item, or the closing bracket. -/
def readItem (b : Bracket) (position : Nat) (c : Char) : BracketStep :=
  if c = ']' then .closed b.ranges
  else if c = '\\' then .more (b.enter (.escape position))
  else .more (b.enter (.lower position c))

/-- Read the first item, which may be a closing bracket that stands for itself. -/
def readFirst (b : Bracket) (position : Nat) (c : Char) : BracketStep :=
  if c = ']' then .more (b.push (.char ']')) else b.readItem position c

/-- Complete a range by its upper bound, which ends before the offset `stop`. -/
def readUpper (b : Bracket) (start stop : Nat) (lo hi : Char) : Except ReadFailure BracketStep :=
  if h : lo.toNat ≤ hi.toNat then .ok (.more (b.push (.span lo hi h)))
  else .error ⟨.descendingRange, start, stop⟩

/-- Read one character of a bracket class, at the given offset. A dash makes a range
unless the class ends behind it. -/
def step (b : Bracket) (position : Nat) (c : Char) : Except ReadFailure BracketStep :=
  match b.phase with
  | .opened =>
    if c = '^' then .ok (.more ({ b with isNegated := true }.enter .first))
    else .ok (b.readFirst position c)
  | .first => .ok (b.readFirst position c)
  | .item => .ok (b.readItem position c)
  | .escape start =>
    match Shorthand.ofLetter? c with
    | some s => .ok (.more (b.push (.shorthand s)))
    | none => .ok (.more (b.enter (.lower start (escaped c))))
  | .lower start lo =>
    if c = '-' then .ok (.more (b.enter (.dash start lo)))
    else .ok ((b.push (.char lo)).readItem position c)
  | .dash start lo =>
    if c = ']' then .ok (.closed ((b.push (.char lo)).push (.char '-')).ranges)
    else if c = '\\' then .ok (.more (b.enter (.upperEscape start lo)))
    else b.readUpper start (position + 1) lo c
  | .upperEscape start lo => b.readUpper start (position + 1) lo (escaped c)

end Bracket

end Submatch
