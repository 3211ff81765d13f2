import Std.Data.HashMap
import Submatch.Register.BalancedArray

/-!
# Making arrays part by part

In an array of copies of one value the parts of a size are alike, and one tree can stand for all
of them. `BalancedArray.build` keeps the trees that have been made in a table by their size. The
table has the tree of one element from the start; a size that is not in the table is halved.
-/

namespace Submatch

variable {α : Type}

namespace LeafTree

/-- The trees that have been made, by the number of their elements. -/
abbrev Parts (α : Type) := Std.HashMap Nat (LeafTree α)

/-- The tree of `m` elements: the one in the table, or else one that is made of its halves
and added to the table. One half of a size below two is that size again; where it is not in the
table the halving goes on for ever, and there is no tree. -/
def buildFrom (m : Nat) (parts : Parts α) : Option (LeafTree α × Parts α) :=
  match parts[m]? with
  | some tree => some (tree, parts)
  | none =>
    if _h : 2 ≤ m then do
      let (left, parts) ← buildFrom (m / 2) parts
      let (right, parts) ← buildFrom (m - m / 2) parts
      let tree := branch left right
      return (tree, parts.insert m tree)
    else none
termination_by m

end LeafTree

/-- An array of `size` copies of a value, in which the parts of a size are one tree. -/
def BalancedArray.build (size : Nat) (value : α) : Option (BalancedArray α) :=
  if size = 0 then some ⟨0, none⟩
  else do
    let parts : LeafTree.Parts α := {}
    let (tree, _) ← LeafTree.buildFrom size (parts.insert 1 (.leaf value))
    return ⟨size, some tree⟩

end Submatch
