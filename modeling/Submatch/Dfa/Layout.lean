import Submatch.Automaton.Basic

/-!
# The layout of a register file

A register file has an output bank with a register per tag, a working bank for the
threads of a state, and one scratch register behind both.
-/

namespace Submatch

/-- The sizes of the two banks of a register file. -/
structure Layout where
  /-- The number of tags, and of registers in the output bank. -/
  tags : Nat
  /-- The number of registers in the working bank. -/
  working : Nat
  deriving DecidableEq, Repr

namespace Layout

/-- The layout for an automaton. A state has at most one thread per resting node and a
thread at most one register per tag, which bounds the working bank. -/
def ofAutomaton (A : Automaton) : Layout := ⟨A.tagCount, A.restingCount * A.tagCount⟩

/-- The number of registers of a file. -/
def slots (l : Layout) : Nat := l.tags + l.working + 1

/-- The output register of a tag. -/
def output (l : Layout) (tag : Nat) : Except Fault Nat :=
  if tag < l.tags then .ok tag else .error (.tagOutsideBank tag)

/-- The place of a working register in the file. -/
def register (l : Layout) (register : Nat) : Except Fault Nat :=
  if register < l.working then .ok (l.tags + register)
  else .error (.registerOutsideBank register l.working)

/-- The scratch register. -/
def scratch (l : Layout) : Nat := l.tags + l.working

theorem output_eq_ok {l : Layout} {tag : Nat} (h : tag < l.tags) : l.output tag = .ok tag := by
  simp [output, h]

theorem register_eq_ok {l : Layout} {r : Nat} (h : r < l.working) :
    l.register r = .ok (l.tags + r) := by
  simp [register, h]

theorem eq_of_register_eq_ok {l : Layout} {r place : Nat} (h : l.register r = .ok place) :
    place = l.tags + r := by
  unfold register at h
  split at h
  next => exact (Except.ok.inj h).symm
  next => cases h

end Layout

end Submatch
