import Submatch.Capture.Tree
import Submatch.Fault

/-!
# Outcomes of matching

A match reports every iteration of every group. `Outcome.ofHistories` pairs the starts
and ends that the tags recorded into spans and nests the spans; a text that does not
match is an outcome too.
-/

namespace Submatch

/-- A successful match. -/
structure Match where
  /-- For every group its spans, oldest first. -/
  spans : List (List Span)
  /-- For every tag the positions recorded, oldest first. -/
  histories : List (List Nat)
  /-- The spans nested by containment. -/
  tree : SpanTree

/-- What comes of matching a text. -/
inductive Outcome where
  | noMatch
  | matched (m : Match)

namespace Outcome

/-- Whether the text matches. -/
def isMatch : Outcome → Bool
  | matched _ => true
  | noMatch => false

/-- The spans of a group, oldest first. -/
def spans (o : Outcome) (group : Nat) : List Span :=
  match o with
  | matched m => m.spans[group]?.getD []
  | noMatch => []

/-- The last span of a group. -/
def span? (o : Outcome) (group : Nat) : Option Span := (o.spans group).getLast?

/-- Where the last iteration of a group starts. -/
def groupStart? (o : Outcome) (group : Nat) : Option Nat := (o.span? group).map (·.start)

/-- Where the last iteration of a group ends. -/
def groupEnd? (o : Outcome) (group : Nat) : Option Nat := (o.span? group).map (·.stop)

/-- Where the match starts. -/
def start? (o : Outcome) : Option Nat := o.groupStart? 0

/-- Where the match ends. -/
def end? (o : Outcome) : Option Nat := o.groupEnd? 0

/-- The positions recorded for every tag. -/
def histories? : Outcome → Option (List (List Nat))
  | matched m => some m.histories
  | noMatch => none

/-- The tree of the spans. -/
def tree? : Outcome → Option SpanTree
  | matched m => some m.tree
  | noMatch => none

/-- Pair the starts and ends of a group. -/
def pairSpans (opens closes : List Nat) : Except Fault (List Span) :=
  if opens.length = closes.length then .ok (List.zipWith Span.mk opens closes)
  else .error (.unbalancedGroup opens closes)

/-- The spans of every group: the tags come in pairs, a start and an end. -/
def spansOf : List (List Nat) → Except Fault (List (List Span))
  | opens :: closes :: rest => do
    return (← pairSpans opens closes) :: (← spansOf rest)
  | _ => return []

/-- The outcome that complete histories amount to: without an iteration of group zero
there is no match. -/
def ofComplete (parents : Array Nat) (histories : List (List Nat)) : Except Fault Outcome := do
  let spans ← spansOf histories
  match (spans.head?.getD []).getLast? with
  | some whole => return .matched ⟨spans, histories, .nest parents whole spans⟩
  | none => return .noMatch

/-- The outcome of the histories of the tags, oldest position first, with two tags for
every group. Tags without a history have recorded nothing. -/
def ofHistories (parents : Array Nat) (histories : List (List Nat)) : Except Fault Outcome :=
  let tags := 2 * parents.size
  if tags < histories.length then .error (.tagOutsideBank tags)
  else ofComplete parents (histories ++ List.replicate (tags - histories.length) [])

end Outcome

end Submatch
