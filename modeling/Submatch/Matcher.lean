import Submatch.Capture.Outcome
import Submatch.Dfa.Run
import Submatch.Pattern.Reader

/-!
# Matchers

A `Matcher` is a compiled pattern together with what has been built for it so far.
Matching starts at the first character of a text and reports every iteration of every
capturing group; each call hands on what it has built to the next one.
-/

namespace Submatch

/-- A compiled pattern. -/
structure Matcher where
  /-- The text of the pattern. -/
  pattern : String
  /-- The settings. -/
  config : Config
  /-- The machine of the pattern. -/
  machine : Machine
  /-- What has been built so far. -/
  cache : Cache
  /-- The source of the numbers of histories. -/
  ids : IdSource
  /-- How many of the last runs built nothing. -/
  cleanRuns : Nat

namespace Matcher

/-- Compile a pattern. -/
def compile (config : Config) (pattern : String) : Except ReadError Matcher := do
  let numbered ← NumberedPattern.read config.toLimits pattern
  return ⟨pattern, config, .ofPattern numbered, .empty, ⟨0⟩, 0⟩

/-- The number of capturing groups, without group zero. -/
def groupCount (m : Matcher) : Nat := m.machine.automaton.groupCount

/-- The number of states built so far. -/
def stateCount (m : Matcher) : Nat := m.cache.states.size

/-- Take note of a run that built a number of transitions. Once enough runs in a row
built none, the table is packed. -/
def record (m : Matcher) (built : Nat) : Matcher :=
  if 0 < built then { m with cleanRuns := 0 }
  else
    let cleanRuns := m.cleanRuns + 1
    if m.config.freezeAfter = 0 || cleanRuns < m.config.freezeAfter then { m with cleanRuns }
    else { m with cleanRuns, cache := m.cache.pack }

/-- Match a text from its first character. -/
def interpret (m : Matcher) (text : String) : Except Fault (Outcome × Matcher) := do
  let (accepted, s) ← Session.run m.machine text.toList ⟨m.cache, m.ids, 0⟩
  let m := { m with cache := s.cache, ids := s.ids }.record s.built
  match accepted with
  | none => return (.noMatch, m)
  | some file =>
    let recorded ← file.recorded m.machine.layout
    let outcome ← Outcome.ofHistories m.machine.automaton.parents (recorded.map List.reverse)
    return (outcome, m)

/-- Whether a text matches. -/
def isMatch (m : Matcher) (text : String) : Except Fault (Bool × Matcher) := do
  let (outcome, m) ← m.interpret text
  return (outcome.isMatch, m)

/-- The matcher for display: its pattern, its groups and the states built so far. -/
def text (m : Matcher) : String :=
  "Regex \x7b pattern: " ++ Text.quotedString m.pattern ++ ", groups: " ++
    Nat.repr m.groupCount ++ ", states: " ++ Nat.repr m.stateCount ++ " \x7d"

end Matcher

end Submatch
