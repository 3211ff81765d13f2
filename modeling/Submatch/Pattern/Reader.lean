import Submatch.Config
import Submatch.Pattern.Bracket
import Submatch.Pattern.Counter

/-!
# Reading patterns

The text of a pattern is read by a pushdown automaton. `Reader.step` takes one
character; the stack holds the groups that are open, and the mode tells what has been
begun and not yet completed. `NumberedPattern.read` runs it over a whole text.

* `run_append`: reading a text in two parts is reading it at once, so what has been
  read never depends on what follows.
-/

namespace Submatch

/-- The alternatives of a group as far as they have been read. -/
structure Branches where
  /-- The complete branches, newest first. -/
  done : List Pattern
  /-- The items of the branch being read, newest first. -/
  items : List Pattern
  deriving DecidableEq

namespace Branches

/-- No branch and no item. -/
def fresh : Branches := ⟨[], []⟩

/-- Add an item to the branch being read. -/
def push (b : Branches) (item : Pattern) : Branches := { b with items := item :: b.items }

/-- The branch being read. -/
def current (b : Branches) : Pattern := .seqAll b.items.reverse

/-- End the branch being read and start another. -/
def bar (b : Branches) : Branches := ⟨b.current :: b.done, []⟩

/-- The choice between all branches. -/
def pattern (b : Branches) : Pattern := .altAll (b.current :: b.done).reverse

end Branches

/-- A group that is open. -/
structure OpenGroup where
  /-- The offset of its parenthesis. -/
  start : Nat
  /-- Its number, if it captures. -/
  capture : Option Nat
  /-- What had been read around it when it opened. -/
  around : Branches
  deriving DecidableEq

/-- The item that a group is, given what it contains. -/
def OpenGroup.close (g : OpenGroup) (body : Pattern) : Pattern :=
  match g.capture with
  | some index => .group index body
  | none => body

/-- What has been begun and not yet completed. -/
inductive ReaderMode where
  /-- Nothing: an item starts here. -/
  | item
  /-- An item that a repetition mark may follow. -/
  | atom (p : Pattern)
  /-- An item and a part of a counter behind it. -/
  | counter (p : Pattern) (k : Counter)
  /-- A repeated item behind which a question mark makes the repetition lazy. -/
  | repeated (p : Pattern) (min : Nat) (max : Option Nat)
  /-- A backslash at offset `start`. -/
  | escape (start : Nat)
  /-- A parenthesis at offset `start`. -/
  | paren (start : Nat)
  /-- A parenthesis at offset `start` and a question mark. -/
  | parenMark (start : Nat)
  /-- A bracket class. -/
  | bracket (b : Bracket)

/-- The state of the reader. -/
structure Reader where
  /-- The number of characters read. -/
  position : Nat
  /-- For every group opened so far the number of the group around it. -/
  parents : Array Nat
  /-- What has been begun and not yet completed. -/
  mode : ReaderMode
  /-- What has been completed inside the innermost open group. -/
  branches : Branches
  /-- The open groups, innermost first. -/
  groups : List OpenGroup

namespace Reader

/-- The reader before the first character. -/
def initial : Reader := ⟨0, #[0], .item, .fresh, []⟩

/-- Leave something begun. -/
def enter (r : Reader) (mode : ReaderMode) : Reader := { r with mode }

/-- Complete an item. -/
def push (r : Reader) (item : Pattern) : Reader :=
  { r with mode := .item, branches := r.branches.push item }

/-- The number of the innermost capturing group that is open, or zero. -/
def enclosing (r : Reader) : Nat := (r.groups.findSome? (·.capture)).getD 0

/-- Open a group at the offset `start`. -/
def openGroup (r : Reader) (start : Nat) (capture : Option Nat) : Reader :=
  { r with mode := .item, branches := .fresh, groups := ⟨start, capture, r.branches⟩ :: r.groups }

/-- Open a group at the offset `start` and give it the next number. -/
def openCapture (r : Reader) (start : Nat) : Reader :=
  { r.openGroup start (some r.parents.size) with parents := r.parents.push r.enclosing }

/-- The text behind an item that began like a counter and is none: the item stands by
itself, and so does each character but the last, which may be repeated in turn. -/
def breakCounter (r : Reader) (p : Pattern) (k : Counter) : Reader :=
  (k.earlier.reverse.foldl (fun r c => r.push (.char c)) (r.push p)).enter (.atom (.char k.last))

/-- Complete what needs nothing more to be complete. -/
def settle (r : Reader) : Reader :=
  match r.mode with
  | .atom p => r.push p
  | .counter p k => (r.breakCounter p k).push (.char k.last)
  | .repeated p min max => r.push (.repeated p ⟨min, max, false⟩)
  | _ => r

/-- Read the first character of an item, a bar or a closing parenthesis. -/
def readItem (limits : Limits) (r : Reader) (c : Char) : Except ReadFailure Reader :=
  match c with
  | '(' =>
    if limits.maxNesting < r.groups.length + 1 then
      .error ⟨.nestingTooDeep limits.maxNesting, r.position, r.position + 1⟩
    else .ok (r.enter (.paren r.position))
  | ')' =>
    match r.groups with
    | [] => .error ⟨.unmatchedParen, r.position, r.position + 1⟩
    | g :: outer =>
      let item := g.close r.branches.pattern
      .ok { r with mode := .atom item, branches := g.around, groups := outer }
  | '|' => .ok { r with branches := r.branches.bar }
  | '[' => .ok (r.enter (.bracket (.opened r.position)))
  | '.' => .ok (r.enter (.atom .any))
  | '\\' => .ok (r.enter (.escape r.position))
  | '*' | '+' | '?' => .error ⟨.nothingToRepeat, r.position, r.position + 1⟩
  | c => .ok (r.enter (.atom (.char c)))

/-- Read the character behind an item. -/
def readMark (limits : Limits) (r : Reader) (p : Pattern) (c : Char) :
    Except ReadFailure Reader :=
  match c with
  | '*' => .ok (r.enter (.repeated p 0 none))
  | '+' => .ok (r.enter (.repeated p 1 none))
  | '?' => .ok (r.enter (.repeated p 0 (some 1)))
  | '\x7b' => .ok (r.enter (.counter p (.opened r.position)))
  | c => (r.push p).readItem limits c

/-- Repeat an item as a counter between the offsets `start` and `stop` says. -/
def repeatCounted (limits : Limits) (r : Reader) (p : Pattern) (start stop min : Nat)
    (max : Option Nat) : Except ReadFailure Reader :=
  if limits.maxRepetition < min || max.any (limits.maxRepetition < ·) then
    .error ⟨.repetitionTooLarge limits.maxRepetition, start, stop⟩
  else if max.any (· < min) then .error ⟨.invalidRepetition, start, stop⟩
  else .ok (r.enter (.repeated p min max))

/-- Read one character, without counting it. -/
def take (limits : Limits) (r : Reader) (c : Char) : Except ReadFailure Reader :=
  match r.mode with
  | .item => r.readItem limits c
  | .atom p => r.readMark limits p c
  | .counter p k =>
    match k.step c with
    | .more k => .ok (r.enter (.counter p k))
    | .complete min max => r.repeatCounted limits p k.start (r.position + 1) min max
    -- the last character of the broken counter may still be repeated
    | .broken => (r.breakCounter p k).readMark limits (.char k.last) c
  | .repeated p min max =>
    if c = '?' then .ok (r.push (.repeated p ⟨min, max, true⟩)) else r.settle.readItem limits c
  | .escape _ =>
    match Shorthand.ofLetter? c with
    | some s => .ok (r.enter (.atom (.set s.ranges)))
    | none => .ok (r.enter (.atom (.char (escaped c))))
  | .paren start =>
    -- only now is it known that the group captures
    if c = '?' then .ok (r.enter (.parenMark start)) else (r.openCapture start).readItem limits c
  | .parenMark start =>
    if c = ':' then .ok (r.openGroup start none)
    else .error ⟨.unsupportedGroup, start, r.position + 1⟩
  | .bracket b => do
    match ← b.step r.position c with
    | .more b => return r.enter (.bracket b)
    | .closed ranges => return r.enter (.atom (.set ranges))

/-- Read one character. -/
def step (limits : Limits) (r : Reader) (c : Char) : Except ReadFailure Reader := do
  let r ← r.take limits c
  return { r with position := r.position + 1 }

/-- Read a text. -/
def run (limits : Limits) (r : Reader) (text : List Char) : Except ReadFailure Reader :=
  text.foldlM (step limits) r

/-- End the text: the pattern read, unless something is still open. -/
def finish (r : Reader) : Except ReadFailure NumberedPattern :=
  match r.mode with
  | .escape start => .error ⟨.danglingEscape, start, r.position⟩
  | .paren start => .error ⟨.unclosedGroup, start, r.position⟩
  | .parenMark start => .error ⟨.unsupportedGroup, start, r.position⟩
  | .bracket b => .error ⟨.unterminatedClass, b.start, r.position⟩
  | _ =>
    match r.groups with
    | [] => .ok ⟨r.settle.branches.pattern, r.parents⟩
    | g :: _ => .error ⟨.unclosedGroup, g.start, r.position⟩

@[simp] theorem run_nil (limits : Limits) (r : Reader) : r.run limits [] = .ok r := rfl

theorem run_append (limits : Limits) (r : Reader) (s t : List Char) :
    r.run limits (s ++ t) = (r.run limits s).bind fun r' => r'.run limits t := by
  simp only [run, List.foldlM_append]
  rfl

end Reader

/-- Read the text of a pattern under limits. -/
def NumberedPattern.readChars (limits : Limits) (text : List Char) :
    Except ReadError NumberedPattern :=
  ((Reader.initial.run limits text).bind Reader.finish).mapError (·.locate text)

/-- Read the text of a pattern under limits. -/
def NumberedPattern.read (limits : Limits) (text : String) : Except ReadError NumberedPattern :=
  readChars limits text.toList

end Submatch
