import Submatch.Register.BalancedArray
import Submatch.Register.History

/-!
# Register files

A register file holds a history in every register. Instructions copy histories, start
or extend them at the current position, and drop them; executing a program yields a new
file and leaves the old one as it was.
-/

namespace Submatch

/-- An update of a register. -/
inductive Instruction where
  /-- The target becomes the history of the source. -/
  | copy (source target : Nat)
  /-- The target becomes a history of the current position alone. -/
  | set (target : Nat)
  /-- The target becomes the history of the source with the current position on top. -/
  | branch (source target : Nat)
  /-- The target is unset. -/
  | close (target : Nat)
  deriving DecidableEq, Repr

/-- The text of an instruction. -/
def Instruction.text : Instruction → String
  | copy source target => "r" ++ Nat.repr target ++ " <- r" ++ Nat.repr source
  | set target => "r" ++ Nat.repr target ++ " <- pos"
  | branch source target => "r" ++ Nat.repr target ++ " <- r" ++ Nat.repr source ++ " + pos"
  | close target => "r" ++ Nat.repr target ++ " <- nil"

/-- The registers of a run. -/
structure RegisterFile where
  /-- The history of every register. -/
  slots : BalancedArray History
  /-- The root that every unset register shares. -/
  unset : History

namespace RegisterFile

/-- A file of the given size in which nothing is set. -/
def fresh (size : Nat) (ids : IdSource) : RegisterFile × IdSource :=
  let (unset, ids) := History.newUnset ids
  (⟨.replicate size unset, unset⟩, ids)

/-- The history that a register holds. -/
def get (file : RegisterFile) (register : Nat) : Except Fault History := file.slots.get register

/-- The file with another history in a register. -/
def put (file : RegisterFile) (register : Nat) (h : History) : Except Fault RegisterFile := do
  return { file with slots := ← file.slots.set register h }

/-- Execute one instruction at a position. -/
def apply (position : Nat) (state : RegisterFile × IdSource) :
    Instruction → Except Fault (RegisterFile × IdSource)
  | .copy source target => do
    let h ← state.1.get source
    return (← state.1.put target h, state.2)
  | .set target => do
    let (h, ids) := state.1.unset.newChild position state.2
    return (← state.1.put target h, ids)
  | .branch source target => do
    let (h, ids) := (← state.1.get source).newChild position state.2
    return (← state.1.put target h, ids)
  | .close target => return (← state.1.put target state.1.unset, state.2)

/-- Execute a program at a position. -/
def execute (file : RegisterFile) (program : List Instruction) (position : Nat)
    (ids : IdSource) : Except Fault (RegisterFile × IdSource) :=
  program.foldlM (apply position) (file, ids)

end RegisterFile

end Submatch
