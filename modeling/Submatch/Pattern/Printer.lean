import Submatch.Pattern.Basic

/-!
# Printing patterns

`Pattern.print` writes a pattern so that reading it gives the same pattern back. Every
part of a sequence, a choice or a repetition stands in a group that does not capture,
and ranges are written with both bounds.
-/

namespace Submatch.Pattern

/-- The characters that mean something else than themselves at the start of an item. -/
def needsEscape (c : Char) : Bool :=
  c ∈ ['(', ')', '[', '.', '\\', '*', '+', '?', '|', '\x7b']

/-- The characters that mean something else than themselves in a bracket class. -/
def needsBracketEscape (c : Char) : Bool := c ∈ [']', '\\', '^', '-']

/-- A character, behind a backslash if it needs one. -/
def printChar (needs : Char → Bool) (c : Char) : List Char := if needs c then ['\\', c] else [c]

/-- A range in a bracket class. -/
def printRange (r : SymbolRange) : List Char :=
  printChar needsBracketEscape (.ofNat r.lo) ++ '-' ::
    printChar needsBracketEscape (.ofNat r.hi)

/-- A bracket class. The empty one is written as the complement of the whole domain. -/
def printSet (ranges : List SymbolRange) : List Char :=
  if ranges.isEmpty then ['[', '^', .ofNat 0, '-', .ofNat lastSymbol, ']']
  else '[' :: ranges.flatMap printRange ++ [']']

/-- A text between the parentheses of a group that does not capture. -/
def printWrapped (text : List Char) : List Char := ['(', '?', ':'] ++ text ++ [')']

/-- A number in decimal. -/
def printNumber (n : Nat) : List Char := Nat.toDigits 10 n

/-- The counter of a quantifier, and the mark of a lazy one. -/
def printQuantifier (q : Quantifier) : List Char :=
  '\x7b' :: printNumber q.min ++ ',' :: (q.max.elim [] printNumber ++
    '\x7d' :: if q.isLazy then ['?'] else [])

/-- The text of a pattern. -/
def print : Pattern → List Char
  | empty => []
  | char c => printChar needsEscape c
  | set ranges => printSet ranges
  | any => ['.']
  | seq left right => printWrapped left.print ++ printWrapped right.print
  | alt left right => printWrapped left.print ++ '|' :: printWrapped right.print
  | repeated body q => printWrapped body.print ++ printQuantifier q
  | group _ body => '(' :: body.print ++ [')']

end Submatch.Pattern
