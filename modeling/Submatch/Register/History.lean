import Submatch.Text.Basic

/-!
# Histories of positions

A history is a chain of recorded positions, newest first, that ends in a root with no
position. Extending a history leaves it as it is, so many threads can share one chain.
Every history carries a number, drawn from an `IdSource`, and two histories count as equal
when their numbers agree.
-/

namespace Submatch

/-- A source of numbers, which hands out one after the other. -/
structure IdSource where
  /-- The number handed out next. -/
  next : Nat
  deriving DecidableEq, Repr

/-- How many numbers there are: they are stored in 64 bits, so `2 ^ 64`. -/
def IdSource.capacity : Nat := 18446744073709551616

/-- The source when its next number has been handed out. The first number follows the last. -/
def IdSource.advance (ids : IdSource) : IdSource := ⟨(ids.next + 1) % capacity⟩

/-- A chain of recorded positions. -/
inductive History where
  /-- A root, with no position. -/
  | unset (id : Nat)
  /-- A position recorded on top of another history. -/
  | child (id position : Nat) (parent : History)
  deriving DecidableEq, Repr

namespace History

/-- A new root. -/
def newUnset (ids : IdSource) : History × IdSource := (unset ids.next, ids.advance)

/-- A new history that records a position on top of this one. -/
def newChild (h : History) (position : Nat) (ids : IdSource) : History × IdSource :=
  (child ids.next position h, ids.advance)

/-- The number of a history. -/
def id : History → Nat
  | unset id => id
  | child id .. => id

/-- The position recorded last, if the history is no root. -/
def value? : History → Option Nat
  | unset _ => none
  | child _ position _ => some position

/-- The history that this one extends. -/
def parent? : History → Option History
  | unset _ => none
  | child _ _ parent => some parent

/-- The entries of the chain in front of `later`, the oldest first. -/
def entriesBefore : History → (later : List (Option Nat)) → List (Option Nat)
  | unset _, later => none :: later
  | child _ position parent, later => entriesBefore parent (some position :: later)

/-- The entries of the chain, newest first; the root is an entry without a position. -/
def entries (h : History) : List (Option Nat) := (h.entriesBefore []).reverse

/-- The entries from a history on, where every step takes the entry of one history and goes on
to its parent. There is no result if the chain goes on behind the given number of steps. -/
def enumerate : (steps : Nat) → Option History → Option (List (Option Nat))
  | _, none => some []
  | 0, some _ => none
  | steps + 1, some h => do return h.value? :: (← enumerate steps h.parent?)

/-- The recorded positions, newest first. -/
def positions (h : History) : List Nat := h.entries.filterMap fun entry => entry

/-- Histories are told apart by their numbers alone. -/
def same (h k : History) : Bool := h.id == k.id

/-- One entry, for display. -/
def entryText : Option Nat → String
  | some position => "Some(" ++ Nat.repr position ++ ")"
  | none => "None"

/-- The number of the history and its entries. -/
def text (h : History) : String :=
  "#" ++ Nat.repr h.id ++ Text.bracketed (h.entries.map entryText)

@[simp] theorem enumerate_none (steps : Nat) : enumerate steps none = some [] := by
  cases steps <;> rfl

theorem entriesBefore_eq (h : History) (later : List (Option Nat)) :
    h.entriesBefore later = h.entries.reverse ++ later := by
  induction h generalizing later with
  | unset => rfl
  | child id position parent ih => simp [entries, entriesBefore, ih (_ :: _)]

@[simp] theorem entries_unset (id : Nat) : (unset id).entries = [none] := rfl

@[simp] theorem entries_child (id position : Nat) (h : History) :
    (child id position h).entries = some position :: h.entries := by
  simp [entries, entriesBefore, entriesBefore_eq h [_]]

@[simp] theorem positions_unset (id : Nat) : (unset id).positions = [] := rfl

@[simp] theorem positions_child (id position : Nat) (h : History) :
    (child id position h).positions = position :: h.positions := by
  simp [positions]

end History

end Submatch
