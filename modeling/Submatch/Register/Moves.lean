import Submatch.Register.File

/-!
# Parallel moves

A transition gives many registers new contents at once, in terms of what all of them
held before. `sequentialize` orders such moves so that each register is read before it
is overwritten, and breaks cycles through a scratch register.
-/

namespace Submatch

/-- Where a move takes the new content of its target from. -/
inductive MoveSource where
  /-- The content of a register. -/
  | kept (source : Nat)
  /-- The content of a register with the current position on top. -/
  | extended (source : Nat)
  /-- The current position alone. -/
  | fresh
  deriving DecidableEq, Repr

/-- Whether the given register is read. -/
def MoveSource.reads (register : Nat) : MoveSource → Bool
  | kept source => source == register
  | extended source => source == register
  | fresh => false

/-- The same content, read from the register `copy` if it was to be read from `register`. -/
def MoveSource.redirect (register copy : Nat) : MoveSource → MoveSource
  | kept source => kept (if source = register then copy else source)
  | extended source => extended (if source = register then copy else source)
  | fresh => fresh

/-- One of several moves that take place at once. -/
structure Move where
  /-- The register that gets new content. -/
  target : Nat
  /-- Where the content comes from. -/
  source : MoveSource
  deriving DecidableEq, Repr

namespace Move

/-- The instruction that makes the move by itself. -/
def instruction (m : Move) : Instruction :=
  match m.source with
  | .kept source => .copy source m.target
  | .extended source => .branch source m.target
  | .fresh => .set m.target

/-- A copy of a register onto itself changes nothing. -/
def isIdle (m : Move) : Bool := m.source = .kept m.target

/-- The move with what it reads from `register` read from `copy` instead. -/
def redirect (register copy : Nat) (m : Move) : Move :=
  { m with source := m.source.redirect register copy }

/-- No other move still reads the target. -/
def isReady (moves : List Move) (m : Move) : Bool :=
  moves.all fun other => other.target == m.target || !other.source.reads m.target

end Move

/-- Make the first move that is ready, again and again. When none is, every target is
still read, and the first one is saved in the scratch register for its readers. -/
def sequenceMoves (scratch : Nat) (moves : List Move) : List Instruction :=
  match _hready : moves.find? (·.isReady moves) with
  | some m => m.instruction :: sequenceMoves scratch (moves.erase m)
  | none =>
    -- only cycles are left
    match moves with
    | [] => []
    | m :: rest =>
      .copy m.target scratch :: (m.redirect m.target scratch).instruction ::
        sequenceMoves scratch (rest.map (·.redirect m.target scratch))
termination_by moves.length
decreasing_by
  · have hm := List.mem_of_find?_eq_some _hready
    have := List.length_pos_of_mem hm
    rw [List.length_erase_of_mem hm]
    omega
  · simp

/-- Instructions that together have the effect of all the moves at once. -/
def sequentialize (scratch : Nat) (moves : List Move) : List Instruction :=
  sequenceMoves scratch (moves.filter (!·.isIdle))

end Submatch
