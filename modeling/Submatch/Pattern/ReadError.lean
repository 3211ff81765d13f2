/-!
# Errors in the text of a pattern

A `ReadFailure` says what is wrong with a pattern and between which two offsets. Cut
out of the text of the pattern it becomes a `ReadError`, which shows the part at fault.
-/

namespace Submatch

/-- What can be wrong with the text of a pattern. -/
inductive ReadCause where
  /-- The text ends inside a group. -/
  | unclosedGroup
  /-- A group is closed that was not opened. -/
  | unmatchedParen
  /-- The text ends inside a bracket class. -/
  | unterminatedClass
  /-- A range in a bracket class runs backwards. -/
  | descendingRange
  /-- A repetition mark has nothing before it that it could repeat. -/
  | nothingToRepeat
  /-- The bounds of a counted repetition run backwards. -/
  | invalidRepetition
  /-- A counted repetition names a count above the limit. -/
  | repetitionTooLarge (limit : Nat)
  /-- The text ends behind a backslash. -/
  | danglingEscape
  /-- A group opens with a question mark and no colon behind it. -/
  | unsupportedGroup
  /-- Groups are nested deeper than the limit. -/
  | nestingTooDeep (limit : Nat)
  deriving DecidableEq, Repr

/-- The wording of a cause. -/
def ReadCause.message : ReadCause → String
  | unclosedGroup => "unclosed group"
  | unmatchedParen => "unmatched ')'"
  | unterminatedClass => "unterminated character class"
  | descendingRange => "descending range in character class"
  | nothingToRepeat => "nothing to repeat"
  | invalidRepetition => "invalid counted repetition"
  | repetitionTooLarge limit => "repetition count exceeds " ++ Nat.repr limit
  | danglingEscape => "dangling escape"
  | unsupportedGroup => "unsupported group syntax"
  | nestingTooDeep limit => "groups nested deeper than " ++ Nat.repr limit

/-- A cause and the offsets in characters between which it lies. -/
structure ReadFailure where
  /-- What is wrong. -/
  cause : ReadCause
  /-- The offset of the first character at fault. -/
  start : Nat
  /-- The offset behind the last character at fault. -/
  stop : Nat
  deriving DecidableEq, Repr

/-- A malformed pattern: what is wrong with it, where, and the part at fault. -/
structure ReadError where
  /-- What is wrong. -/
  cause : ReadCause
  /-- The offset of the fragment in characters. -/
  offset : Nat
  /-- The characters at fault. -/
  fragment : List Char
  deriving DecidableEq, Repr

/-- The failure with the characters at fault, cut out of the text of the pattern. -/
def ReadFailure.locate (f : ReadFailure) (text : List Char) : ReadError :=
  ⟨f.cause, f.start, (text.drop f.start).take (f.stop - f.start)⟩

/-- The message of an error names the cause, the offset and the fragment. -/
def ReadError.message (e : ReadError) : String :=
  e.cause.message ++ " at offset " ++ Nat.repr e.offset ++ ": `" ++ String.ofList e.fragment ++ "`"

end Submatch
