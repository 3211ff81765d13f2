import Submatch.Dfa.Table

/-!
# Running a machine

A run reads a text from its first character and builds what it needs of the
deterministic automaton on the way. The cache of what has been built is handed from
run to run. The last accepting place met wins, and reading stops where no thread is
left that could still be preferred.
-/

namespace Submatch

/-- What has been built of the deterministic automaton. -/
structure Cache where
  /-- The states. -/
  states : StateStore
  /-- The transitions. -/
  table : TransitionTable Transition
  /-- The transition to the first state. -/
  start : Option Transition

/-- Nothing has been built. -/
def Cache.empty : Cache := ⟨.empty, .empty, none⟩

/-- Pack the table of transitions. -/
def Cache.pack (c : Cache) : Cache := { c with table := c.table.pack }

/-- What runs share and change: the cache, and the numbers of histories; and how many
transitions have been built. -/
structure Session where
  /-- What has been built. -/
  cache : Cache
  /-- The source of the numbers of histories. -/
  ids : IdSource
  /-- The number of transitions built. -/
  built : Nat

/-- A place in a text: the state and the registers there. -/
structure Place where
  /-- The number of the state. -/
  state : Nat
  /-- The registers. -/
  file : RegisterFile
  /-- The number of characters read. -/
  position : Nat

namespace Session

/-- A session in which nothing has happened. -/
def fresh : Session := ⟨.empty, ⟨0⟩, 0⟩

/-- The transition to the first state, built on the first call. -/
def start (M : Machine) (s : Session) : Except Fault (Transition × Session) :=
  match s.cache.start with
  | some transition => return (transition, s)
  | none => do
    let (transition, states) ← s.cache.states.start M
    return (transition, ⟨⟨states, s.cache.table, some transition⟩, s.ids, s.built + 1⟩)

/-- The transition from a state on a symbol, built on the first call. -/
def step (M : Machine) (s : Session) (state : Nat) (symbol : InputSymbol) :
    Except Fault (Transition × Session) :=
  match s.cache.table.lookup ⟨state, symbol⟩ with
  | some transition => return (transition, s)
  | none => do
    let (transition, states) ← s.cache.states.expand M state symbol
    let table := s.cache.table.insert ⟨state, symbol⟩ transition
    return (transition, ⟨⟨states, table, s.cache.start⟩, s.ids, s.built + 1⟩)

/-- A register file in which nothing is set. -/
def newFile (M : Machine) (s : Session) : RegisterFile × Session :=
  let (file, ids) := RegisterFile.fresh M.layout.slots s.ids
  (file, { s with ids })

/-- Execute a program on a register file. -/
def execute (s : Session) (file : RegisterFile) (program : List Instruction) (position : Nat) :
    Except Fault (RegisterFile × Session) := do
  let (file, ids) ← file.execute program position s.ids
  return (file, { s with ids })

/-- Read on from a place, where `best` is the last accepting place met, and return the
last one met in the end. -/
def follow (M : Machine) : (text : List Char) → (place : Place) → (best : Option Place) →
    Session → Except Fault (Option Place × Session)
  | [], _, best, s => return (best, s)
  | c :: rest, place, best, s =>
    match M.alphabet.classify c.toNat with
    -- no node reads the character
    | none => return (best, s)
    | some index => do
      let (transition, s) ← s.step M place.state (.letter index)
      match transition.target with
      | .dead => return (best, s)
      | .state id acceptance =>
        let position := place.position + 1
        let (file, s) ← s.execute place.file transition.program position
        let place := ⟨id, file, position⟩
        match acceptance with
        | .reject => follow M rest place best s
        | .candidate => follow M rest place (some place) s
        | .settled => return (some place, s)

/-- The last accepting place of a text. -/
def search (M : Machine) (text : List Char) (s : Session) :
    Except Fault (Option Place × Session) := do
  let (start, s) ← s.start M
  match start.target with
  | .dead => return (none, s)
  | .state id acceptance =>
    let (file, s) := s.newFile M
    let (file, s) ← s.execute file start.program 0
    let place := ⟨id, file, 0⟩
    match acceptance with
    | .reject => follow M text place none s
    | .candidate => follow M text place (some place) s
    | .settled => return (some place, s)

/-- Bring the histories at an accepting place to the output bank. -/
def accept (M : Machine) (place : Place) (s : Session) :
    Except Fault (Option RegisterFile × Session) := do
  let (flush, s) ← s.step M place.state .ending
  match flush.target with
  | .dead => return (none, s)
  | .state .. =>
    let (file, s) ← s.execute place.file flush.program place.position
    return (some file, s)

/-- Match a text from its first character: the registers of the preferred match, if the
text has one. -/
def run (M : Machine) (text : List Char) (s : Session) :
    Except Fault (Option RegisterFile × Session) := do
  match ← s.search M text with
  | (none, s) => return (none, s)
  | (some place, s) => s.accept M place

end Session

/-- The positions recorded for every tag, newest first, in the output bank of a file. -/
def RegisterFile.recorded (file : RegisterFile) (layout : Layout) :
    Except Fault (List (List Nat)) :=
  (List.range layout.tags).mapM fun tag => do
    return (← file.get (← layout.output tag)).positions

end Submatch
