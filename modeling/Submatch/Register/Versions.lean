import Submatch.Register.Plain

/-!
# Versions of arrays and of register files

Arrays and register files are never changed in place. A change makes a new version, and it may
go on from any version that there is, so the versions form a tree; they are listed in the order
in which they are made. A version of an array comes from an `Edit` of one element, a version of a
register file from a `Revision` that executes a program. Both are also defined on plain lists.
-/

namespace Submatch

variable {α : Type}

/-- A change to one element of an array. -/
structure Edit (α : Type) where
  /-- The number of the version that is changed. -/
  base : Nat
  /-- The index of the element. -/
  index : Nat
  /-- The element that takes its place. -/
  value : α

/-- The lists after an edit. It adds none if the list that it changes has no such element. -/
def Edit.applyPlain (lists : List (List α)) (e : Edit α) : List (List α) :=
  match lists[e.base]? with
  | some l => if e.index < l.length then lists ++ [l.set e.index e.value] else lists
  | none => lists

/-- The lists that edits make of one with copies of a value. -/
def Edit.plainVersions (size : Nat) (fill : α) (edits : List (Edit α)) : List (List α) :=
  edits.foldl applyPlain [.replicate size fill]

namespace BalancedArray

/-- The arrays after an edit. It adds none if it fails. -/
def edit (arrays : List (BalancedArray α)) (e : Edit α) : List (BalancedArray α) :=
  match arrays[e.base]? with
  | some a =>
    match a.set e.index e.value with
    | .ok b => arrays ++ [b]
    | .error _ => arrays
  | none => arrays

/-- The arrays that edits make of one with copies of a value. -/
def versions (size : Nat) (fill : α) (edits : List (Edit α)) : List (BalancedArray α) :=
  edits.foldl edit [.replicate size fill]

end BalancedArray

/-- A program that is executed on a register file. -/
structure Revision where
  /-- The number of the version that the program is executed on. -/
  base : Nat
  /-- The program. -/
  program : List Instruction
  /-- The position at which it is executed. -/
  position : Nat

namespace PlainRegisters

/-- The registers after a revision. -/
def revise (versions : List PlainRegisters) (r : Revision) : List PlainRegisters :=
  versions ++ [execute (versions[r.base]?.getD []) r.program r.position]

/-- The registers that revisions make of empty ones. -/
def versions (size : Nat) (revisions : List Revision) : List PlainRegisters :=
  revisions.foldl revise [.replicate size []]

end PlainRegisters

namespace RegisterFile

/-- The files after a revision; the numbers of new histories come from one source. -/
def revise (state : List RegisterFile × IdSource) (r : Revision) :
    Except Fault (List RegisterFile × IdSource) :=
  match state.1[r.base]? with
  | some file => do
    let (file, ids) ← file.execute r.program r.position state.2
    return (state.1 ++ [file], ids)
  | none => .error (.indexOutOfBounds r.base state.1.length)

/-- The files that revisions make of a fresh one. -/
def versions (size : Nat) (ids : IdSource) (revisions : List Revision) :
    Except Fault (List RegisterFile × IdSource) :=
  let (file, ids) := fresh size ids
  revisions.foldlM revise ([file], ids)

end RegisterFile

end Submatch
