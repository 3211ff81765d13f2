import Submatch.Symbols.RangeSet

/-!
# Shorthand sets

The six sets that a letter behind a backslash stands for: digits, word characters
and blanks, all of them ASCII, and the complements of the three.
-/

namespace Submatch

/-- A set of characters with a letter of its own. -/
inductive Shorthand where
  | digit
  | nonDigit
  | word
  | nonWord
  | space
  | nonSpace
  deriving DecidableEq, Repr

namespace Shorthand

/-- The shorthand that a letter behind a backslash stands for. A capital letter
stands for the complement of the set of its small one. -/
def ofLetter? : Char → Option Shorthand
  | 'd' => some digit
  | 'D' => some nonDigit
  | 'w' => some word
  | 'W' => some nonWord
  | 's' => some space
  | 'S' => some nonSpace
  | _ => none

/-- The digits `0` to `9`. -/
def digits : List SymbolRange := [⟨0x30, 0x39, by decide⟩]

/-- Digits, capital letters, the underscore and small letters. -/
def wordCharacters : List SymbolRange :=
  [⟨0x30, 0x39, by decide⟩, ⟨0x41, 0x5a, by decide⟩, .single 0x5f, ⟨0x61, 0x7a, by decide⟩]

/-- Tabulators, line feed, form feed and carriage return, and the blank. -/
def blanks : List SymbolRange := [⟨0x09, 0x0d, by decide⟩, .single 0x20]

/-- The ranges of a shorthand, ascending and apart. -/
def ranges : Shorthand → List SymbolRange
  | digit => digits
  | nonDigit => RangeSet.complement digits
  | word => wordCharacters
  | nonWord => RangeSet.complement wordCharacters
  | space => blanks
  | nonSpace => RangeSet.complement blanks

end Shorthand

end Submatch
