import Submatch.Register.Holdings

/-!
# Where histories come from

A history is made once, by an operation or by an instruction of a program that is executed; this
is its `Birth`. `Origins` follow operations and know of every place which history it holds by
the birth of that history, without numbers or positions: a copy has the birth of what it is a
copy of. So two places have the same birth if and only if what they hold has reached them by
copying from where one history was made.
-/

namespace Submatch

/-- The making of a history: the number of the operation that makes it and, where the operation
executes a program, the number of the instruction. -/
structure Birth where
  operation : Nat
  instruction : Nat
  deriving DecidableEq, Repr

/-- The birth of the next instruction. -/
def Birth.next (birth : Birth) : Birth := ⟨birth.operation, birth.instruction + 1⟩

/-- The births of a history and of its predecessors, newest first. -/
abbrev Lineage := List Birth

/-- The lineage of the history that is extended. -/
def Lineage.parent? : Lineage → Option Lineage
  | _ :: b :: rest => some (b :: rest)
  | _ => none

/-- The births that there are if an instruction is executed. -/
def Instruction.births (birth : Birth) : Instruction → List Birth
  | set _ | branch .. => [birth]
  | copy .. | close _ => []

/-- The births that there are if a program is executed whose first instruction has the given
one. -/
def Birth.ofProgram : Birth → List Instruction → List Birth
  | _, [] => []
  | birth, i :: rest => i.births birth ++ ofProgram birth.next rest

/-- The lineages of the histories in a register file. -/
structure FileLineages where
  /-- The lineage of what every register holds. -/
  slots : List Lineage
  /-- The lineage of the root that every unset register shares. -/
  unset : Lineage

namespace FileLineages

/-- The lineages with another one in a register. -/
def put (file : FileLineages) (register : Nat) (l : Lineage) : Option FileLineages :=
  if register < file.slots.length then some { file with slots := file.slots.set register l }
  else none

/-- The lineages after an instruction. -/
def apply (birth : Birth) (file : FileLineages) : Instruction → Option FileLineages
  | .copy source target => do file.put target (← file.slots[source]?)
  | .set target => file.put target (birth :: file.unset)
  | .branch source target => do file.put target (birth :: (← file.slots[source]?))
  | .close target => file.put target file.unset

/-- The lineages after a program whose first instruction has the given birth. -/
def execute : Birth → FileLineages → List Instruction → Option FileLineages
  | _, file, [] => some file
  | birth, file, i :: rest => do execute birth.next (← file.apply birth i) rest

end FileLineages

/-- The lineages of what is held after some operations. -/
structure Origins where
  /-- Those of the histories that are held by themselves. -/
  handles : List Lineage
  /-- Those of the register files. -/
  files : List FileLineages
  /-- All births so far, in order. -/
  births : List Birth
  /-- The number of operations so far. -/
  operations : Nat

namespace Origins

/-- There were no operations so far. -/
def empty : Origins := ⟨[], [], [], 0⟩

/-- The lineage of the history at a place. -/
def at? (o : Origins) : History.Place → Option Lineage
  | .handle index => o.handles[index]?
  | .register file register => do (← o.files[file]?).slots[register]?
  | .unset file => do return (← o.files[file]?).unset
  | .parent child => do (← o.at? child).parent?

/-- The birth of the history at a place. -/
def birth? (o : Origins) (place : History.Place) : Option Birth := do (← o.at? place).head?

/-- The birth of what the next operation makes first. -/
def next (o : Origins) : Birth := ⟨o.operations, 0⟩

/-- The lineages after an operation, if it can be carried out. -/
def step (o : Origins) : Operation → Option Origins
  | .unset =>
    return ⟨o.handles ++ [[o.next]], o.files, o.births ++ [o.next], o.operations + 1⟩
  | .child base _ => do
    let l := o.next :: (← o.at? base)
    return ⟨o.handles ++ [l], o.files, o.births ++ [o.next], o.operations + 1⟩
  | .copy source => do
    return ⟨o.handles ++ [← o.at? source], o.files, o.births, o.operations + 1⟩
  | .file size =>
    let file : FileLineages := ⟨.replicate size [o.next], [o.next]⟩
    return ⟨o.handles, o.files ++ [file], o.births ++ [o.next], o.operations + 1⟩
  | .execute file program _ => do
    let base ← o.files[file]?
    let births := o.next.ofProgram program
    return ⟨o.handles, o.files ++ [← base.execute o.next program], o.births ++ births,
      o.operations + 1⟩

/-- The lineages after some operations. -/
def run (operations : List Operation) : Option Origins := operations.foldlM step empty

end Origins

end Submatch
