import Submatch.Register.File

/-!
# Histories that are held

Histories are held by themselves and in the registers of files. An `Operation` makes a history,
extends or copies one that is held, makes a file, or executes a program on a file and leaves that
file as it is. `Holdings` are what is held after some operations, all of which draw their numbers
from one source; they also list every history that has been made, held or not.
-/

namespace Submatch

/-- A place where a history is held. -/
inductive History.Place where
  /-- By itself. -/
  | handle (index : Nat)
  /-- In a register of a file. -/
  | register (file register : Nat)
  /-- With a file, as the root that its unset registers share. -/
  | unset (file : Nat)
  /-- As the parent of the history at another place. -/
  | parent (child : History.Place)
  deriving DecidableEq, Repr

/-- What can be done with histories. -/
inductive Operation where
  /-- Make a root. -/
  | unset
  /-- Record a position on top of the history at a place. -/
  | child (base : History.Place) (position : Nat)
  /-- Hold the history at a place once more. -/
  | copy (source : History.Place)
  /-- Make a file of the given size in which nothing is set. -/
  | file (size : Nat)
  /-- Execute a program on a file, which makes another file. -/
  | execute (file : Nat) (program : List Instruction) (position : Nat)
  deriving DecidableEq, Repr

/-- The history that an instruction made, as its target holds it afterwards. -/
def Instruction.made (after : RegisterFile) : Instruction → Except Fault (List History)
  | set target | branch _ target => return [← after.get target]
  | copy .. | close _ => return []

/-- The histories that a program makes, in order, also those that it overwrites again. -/
def RegisterFile.made (position : Nat) :
    RegisterFile × IdSource → List Instruction → Except Fault (List History)
  | _, [] => return []
  | state, i :: rest => do
    -- What the instruction makes is read before the others can overwrite it.
    let after ← apply position state i
    return (← i.made after.1) ++ (← made position after rest)

/-- The histories that are held after some operations. -/
structure Holdings where
  /-- The histories that are held by themselves. -/
  handles : List History
  /-- The register files. -/
  files : List RegisterFile
  /-- All histories that have been made, in order. -/
  made : List History
  /-- The source of their numbers. -/
  ids : IdSource

namespace Holdings

/-- Nothing has been made so far. -/
def empty : Holdings := ⟨[], [], [], ⟨0⟩⟩

/-- The history at a place. -/
def at? (w : Holdings) : History.Place → Option History
  | .handle index => w.handles[index]?
  | .register file register => do ((← w.files[file]?).get register).toOption
  | .unset file => do return (← w.files[file]?).unset
  | .parent child => do (← w.at? child).parent?

/-- What is held after an operation, if it can be carried out: the places and files that it names
exist, and so do the registers of its program. -/
def step (w : Holdings) : Operation → Option Holdings
  | .unset =>
    let (h, ids) := History.newUnset w.ids
    return { w with handles := w.handles ++ [h], made := w.made ++ [h], ids }
  | .child base position => do
    let (h, ids) := (← w.at? base).newChild position w.ids
    return { w with handles := w.handles ++ [h], made := w.made ++ [h], ids }
  | .copy source => do
    return { w with handles := w.handles ++ [← w.at? source] }
  | .file size =>
    let (file, ids) := RegisterFile.fresh size w.ids
    return { w with files := w.files ++ [file], made := w.made ++ [file.unset], ids }
  | .execute file program position => do
    let base ← w.files[file]?
    let made ← (RegisterFile.made position (base, w.ids) program).toOption
    let (file, ids) ← (base.execute program position w.ids).toOption
    return { w with files := w.files ++ [file], made := w.made ++ made, ids }

/-- What is held after some operations. -/
def run (operations : List Operation) : Option Holdings := operations.foldlM step empty

end Holdings

end Submatch
