import Submatch.Automaton.Closure
import Submatch.Dfa.Layout
import Submatch.Order.Numbering
import Submatch.Register.Moves
import Submatch.Symbols.Alphabet

/-!
# Frontiers

A frontier is the content of a state of the deterministic automaton: the threads that
are alive after some text, in the order of their priority, each with the working
registers that hold its histories. The registers of a frontier are numbered in the
order in which they first appear, so frontiers that differ in naming alone are equal.

`Frontier.initial` is the frontier before the first character and `Frontier.advance`
the one behind a character of a given class; each comes with the program that brings
the register file along. `Frontier.flush` moves the histories of an accepting thread to
the output bank.
-/

namespace Submatch

/-- A thread at rest on a node, with a working register for every tag that it has passed. -/
structure Thread where
  /-- The node on which the thread rests. -/
  node : Nat
  /-- For every tag the register of its history, or `none` before it is passed. -/
  cells : List (Option Nat)
  deriving DecidableEq, Hashable, Repr

/-- The threads alive after some text, in the order of their priority. -/
structure Frontier where
  /-- The threads, the most preferred one first. -/
  threads : List Thread
  deriving DecidableEq, Hashable, Repr

/-- Whether the text read so far matches. -/
inductive Acceptance where
  /-- It does not. -/
  | reject
  /-- It does, but threads that are preferred may still match more. -/
  | candidate
  /-- It does, and nothing can be preferred to it. -/
  | settled
  deriving DecidableEq, Repr

/-- What a register of a new frontier holds, in terms of the registers before. -/
inductive Content where
  /-- The history of a register with the position recorded on top a number of times. -/
  | inherited (source times : Nat)
  /-- The position alone, recorded once and a number of further times. -/
  | recorded (more : Nat)
  deriving DecidableEq, Hashable, Repr

namespace Content

/-- What a thread holds for a tag, given its cell before and how often it passed the
tag. A tag that was never passed holds nothing. -/
def of? : Option Nat → Nat → Option Content
  | some source, times => some (inherited source times)
  | none, 0 => none
  | none, more + 1 => some (recorded more)

/-- How often the position is recorded beyond the first time. -/
def repeats : Content → Nat
  | inherited _ times => times - 1
  | recorded more => more

/-- Where the content comes from, given where the working bank lies. -/
def source (layout : Layout) : Content → Except Fault MoveSource
  | inherited source 0 => return .kept (← layout.register source)
  | inherited source (_ + 1) => return .extended (← layout.register source)
  | recorded _ => return .fresh

end Content

/-- A thread that has come to rest on a node, and what it holds for every tag. -/
structure Landing where
  /-- The node on which the thread rests. -/
  node : Nat
  /-- What it holds for every tag. -/
  contents : List (Option Content)
  deriving DecidableEq, Repr

namespace Landing

/-- The landing of a thread that brings the cells of the thread that it comes from. -/
def ofArrival (a : Arrival (List (Option Nat))) : Landing :=
  ⟨a.node, a.origin.mapIdx fun tag cell => Content.of? cell (a.passed.count tag)⟩

/-- The contents that the thread holds, without the tags for which it holds nothing. -/
def held (l : Landing) : List Content := l.contents.filterMap fun content => content

end Landing

/-- What is reached by one step of the deterministic automaton. -/
inductive Expansion where
  /-- No thread is left. -/
  | dead
  /-- A frontier, and the program that brings the registers along. -/
  | reach (frontier : Frontier) (program : List Instruction)

namespace Frontier

/-- The number of working registers in use. -/
def registerCount (f : Frontier) : Nat :=
  (f.threads.flatMap fun t => t.cells.filterMap fun cell => cell.map (· + 1)).foldl max 0

/-- Whether the frontier accepts. Nothing is kept behind an accepting thread, so only the
last thread can be one. -/
def acceptance (f : Frontier) : Acceptance :=
  match f.threads.getLast? with
  | some last =>
    if last.node = Automaton.final then
      if f.threads.length = 1 then .settled else .candidate
    else .reject
  | none => .reject

/-- The different contents held by any thread, numbered in the order in which they
appear. -/
def values (landings : List Landing) : Numbering Content :=
  .ofList (landings.flatMap Landing.held)

/-- The thread of a landing: a register has the number of the value that it holds. -/
def threadOf (values : Numbering Content) (l : Landing) : Thread :=
  ⟨l.node, l.contents.map fun content => content.bind values.number?⟩

/-- The frontier of some threads. -/
def ofLandings (landings : List Landing) : Frontier :=
  ⟨landings.map (threadOf (values landings))⟩

/-- The moves that give every register its value. -/
def moves (layout : Layout) (values : List Content) : Except Fault (List Move) :=
  values.zipIdx.mapM fun (content, register) => do
    return ⟨← layout.register register, ← content.source layout⟩

/-- The further recordings of the positions that a register records more than once. -/
def repeats (layout : Layout) (values : List Content) : Except Fault (List Instruction) := do
  let parts ← values.zipIdx.mapM fun (content, register) => do
    let target ← layout.register register
    return List.replicate content.repeats (Instruction.branch target target)
  return parts.flatten

/-- The release of the registers from `first` up to `stop`, which are no longer used. -/
def releases (layout : Layout) (first stop : Nat) : Except Fault (List Instruction) :=
  (List.range' first (stop - first)).mapM fun r => return .close (← layout.register r)

/-- The program that fills the registers with the given values, where as many registers
as `previous` were in use before. -/
def program (layout : Layout) (values : List Content) (previous : Nat) :
    Except Fault (List Instruction) := do
  let moves ← moves layout values
  let repeats ← repeats layout values
  let closes ← releases layout values.length previous
  return sequentialize layout.scratch moves ++ repeats ++ closes

/-- The step to the threads that arrive, where as many registers as `previous` were in
use before. -/
def settle (layout : Layout) (arrivals : List (Arrival (List (Option Nat)))) (previous : Nat) :
    Except Fault Expansion :=
  if arrivals.isEmpty then return .dead
  else do
    let landings := arrivals.map Landing.ofArrival
    return .reach (ofLandings landings)
      (← program layout (values landings).items.toList previous)

/-- The frontier before the first character. -/
def initial (A : Automaton) (layout : Layout) : Except Fault Expansion := do
  settle layout (← A.closure [(A.start, List.replicate layout.tags none)]) 0

/-- Where a thread goes on if the symbol is read, with its cells. -/
def seed? (A : Automaton) (symbol : Nat) (t : Thread) :
    Except Fault (Option (Nat × List (Option Nat))) := do
  match ← A.getNode t.node with
  | .consume ranges next =>
    return if RangeSet.covers ranges symbol then some (next, t.cells) else none
  | _ => return none

/-- The frontier behind a character of the class that starts with the symbol. -/
def advance (A : Automaton) (layout : Layout) (f : Frontier) (symbol : Nat) :
    Except Fault Expansion := do
  let seeds := (← f.threads.mapM (seed? A symbol)).filterMap fun seed => seed
  if seeds.isEmpty then return .dead
  else settle layout (← A.closure seeds) f.registerCount

/-- The instruction that brings a cell to the output register of its tag. -/
def flushCell (layout : Layout) (tag : Nat) : Option Nat → Except Fault Instruction
  | some r => return .copy (← layout.register r) (← layout.output tag)
  | none => return .close (← layout.output tag)

/-- The program that brings the histories of the accepting thread to the output bank, if
there is such a thread. -/
def flush (layout : Layout) (f : Frontier) : Except Fault (Option (List Instruction)) :=
  match f.acceptance, f.threads.getLast? with
  | .reject, _ | _, none => return none
  | _, some last =>
    return some (← last.cells.zipIdx.mapM fun (cell, tag) => flushCell layout tag cell)

end Frontier

end Submatch
