import Submatch.Register.File

/-!
# Plain registers

The effect of instructions on registers that hold lists of positions, newest first,
without sharing and without identities: what a register file stands for.
-/

namespace Submatch

/-- Registers that hold lists of positions, newest first. -/
abbrev PlainRegisters := List (List Nat)

/-- The effect of one instruction at a position. -/
def Instruction.applyPlain (position : Nat) (slots : PlainRegisters) :
    Instruction → PlainRegisters
  | copy source target => slots.set target (slots[source]?.getD [])
  | set target => slots.set target [position]
  | branch source target => slots.set target (position :: slots[source]?.getD [])
  | close target => slots.set target []

/-- The effect of a program at a position. -/
def PlainRegisters.execute (slots : PlainRegisters) (program : List Instruction)
    (position : Nat) : PlainRegisters :=
  program.foldl (Instruction.applyPlain position) slots

/-- The lists of positions that a register file holds. -/
def RegisterFile.plain (file : RegisterFile) : PlainRegisters :=
  file.slots.toList.map History.positions

end Submatch
