import Submatch.Text.Basic

/-!
# Quoted characters and strings

A character is quoted between apostrophes and a string between double quotes.
Each escapes its own delimiter and the backslash; a string also escapes control
characters, by a letter where there is one and by code point otherwise.
-/

namespace Submatch.Text

/-- The character with the given code point, where there is one. -/
def scalar? (n : Nat) : Option Char :=
  let c := Char.ofNat n
  if c.toNat = n then some c else none

/-- Control characters are those below the blank and those from delete up to `0x9f`. -/
def isControl (c : Char) : Bool := c.toNat < 0x20 || (0x7f ≤ c.toNat && c.toNat ≤ 0x9f)

/-- An escape by code point: the lower-case hexadecimal digits between braces. -/
def codePointEscape (c : Char) : String :=
  "\\u\x7b" ++ String.ofList (Nat.toDigits 16 c.toNat) ++ "\x7d"

/-- How a character is written between apostrophes. The last code point, which no
character is assigned to, is written by its number. -/
def quotedChar (c : Char) : String :=
  let body :=
    if c = '\'' then "\\'"
    else if c = '\\' then "\\\\"
    else if c.toNat = 0x10ffff then codePointEscape c
    else String.ofList [c]
  "'" ++ body ++ "'"

/-- How a character is written inside double quotes. -/
def escapedInString (c : Char) : String :=
  if c = '"' then "\\\""
  else if c = '\\' then "\\\\"
  else if c = '\n' then "\\n"
  else if c = '\r' then "\\r"
  else if c = '\t' then "\\t"
  else if c.toNat = 0 then "\\0"
  else if isControl c then codePointEscape c
  else String.ofList [c]

/-- A string between double quotes. -/
def quotedString (s : String) : String :=
  "\"" ++ String.join (s.toList.map escapedInString) ++ "\""

/-- A code point for display: the quoted character, or the number in hexadecimal
if it is a control character or no character at all. -/
def symbol (n : Nat) : String :=
  match scalar? n with
  | some c => if isControl c then hex n else quotedChar c
  | none => hex n

end Submatch.Text
