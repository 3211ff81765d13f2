import Submatch.Pattern.Basic

/-!
# The language of a pattern

`Pattern.Matches p w` says that the text `w` is one of those that the pattern `p` stands
for. Groups and laziness make no difference to it.
-/

namespace Submatch

/-- The numbers of repetitions that a quantifier allows. -/
def Quantifier.Allows (q : Quantifier) (n : Nat) : Prop := q.min ≤ n ∧ ∀ m ∈ q.max, n ≤ m

/-- The texts that a pattern stands for. -/
def Pattern.Matches : Pattern → List Char → Prop
  | .empty, w => w = []
  | .char c, w => w = [c]
  | .set ranges, w => ∃ c, w = [c] ∧ RangeSet.covers ranges c.toNat = true
  | .any, w => ∃ c, w = [c]
  | .seq left right, w => ∃ u v, w = u ++ v ∧ left.Matches u ∧ right.Matches v
  | .alt left right, w => left.Matches w ∨ right.Matches w
  | .repeated body q, w =>
    ∃ parts : List (List Char), w = parts.flatten ∧ q.Allows parts.length ∧
      ∀ u ∈ parts, body.Matches u
  | .group _ body, w => body.Matches w

/-- The pattern stands for the empty text. -/
def Pattern.Nullable (p : Pattern) : Prop := p.Matches []

end Submatch
