import Submatch.Proofs.Fault
import Submatch.Register.Construction

/-!
# Making arrays part by part

A balanced tree is determined by its elements (`Balanced.eq_of_toList`), so the balanced tree of
copies of a value is made of two such trees (`replicate_of_two_le`). The halving meets the size of
one element before it can go on for ever, and all trees in the table are balanced ones of copies
(`Parts.Holds`); so it ends with the balanced tree (`buildFrom_eq`).
-/

namespace Submatch

variable {α : Type} {value : α} {m : Nat}

namespace LeafTree

/-- **Balanced trees with the same elements are the same tree.** -/
theorem Balanced.eq_of_toList {t u : LeafTree α} (ht : Balanced m t) (hu : Balanced m u)
    (h : t.toList = u.toList) : t = u := by
  induction ht generalizing u with
  | leaf a =>
    cases hu with
    | leaf b => rw [List.singleton_inj.1 h]
    | branch two_le => exact absurd two_le (by decide)
  | branch two_le hl hr ihl ihr =>
    cases hu with
    | leaf => exact absurd two_le (by decide)
    | branch _ hl' hr' =>
      obtain ⟨hleft, hright⟩ := List.append_inj h (by rw [hl.length_toList, hl'.length_toList])
      rw [ihl hl' hleft, ihr hr' hright]

theorem replicate_one (value : α) : replicate 1 value = leaf value := by
  rw [replicate, replicatePair, if_pos (Nat.le_refl 1)]

/-- The tree of two copies or more splits into the trees of its halves. -/
theorem replicate_of_two_le (h : 2 ≤ m) :
    replicate m value = branch (replicate (m / 2) value) (replicate (m - m / 2) value) := by
  have hleft := balanced_replicate value (m / 2) (by omega)
  have hright := balanced_replicate value (m - m / 2) (by omega)
  refine (balanced_replicate value m (by omega)).eq_of_toList (.branch h hleft hright) ?_
  rw [toList, toList_replicate _ _ (by omega), toList_replicate _ _ (by omega),
    toList_replicate _ _ (by omega), List.replicate_append_replicate]
  exact congrArg (List.replicate · value) (by omega)

/-- The table holds the tree of one copy of the value, and no tree but balanced ones of copies. -/
structure Parts.Holds (value : α) (parts : Parts α) : Prop where
  one : parts[1]? = some (leaf value)
  copies : ∀ {k : Nat} {tree : LeafTree α}, parts[k]? = some tree → tree = replicate k value

theorem Parts.holds_seed (value : α) : Holds value (({} : Parts α).insert 1 (leaf value)) where
  one := Std.HashMap.getElem?_insert_self
  copies := by
    intro k tree h
    rw [Std.HashMap.getElem?_insert] at h
    by_cases hk : 1 = k
    · subst hk
      simp only [beq_self_eq_true, if_pos, Option.some.injEq] at h
      rw [← h, replicate_one]
    · simp [hk] at h

theorem Parts.Holds.insert {parts : Parts α} (h : parts.Holds value) (hm : m ≠ 1) :
    Holds value (Std.HashMap.insert parts m (replicate m value)) where
  one := by
    rw [Std.HashMap.getElem?_insert, if_neg (by simpa using hm), h.one]
  copies := by
    intro k tree hk
    rw [Std.HashMap.getElem?_insert] at hk
    split at hk
    next heq =>
      obtain rfl : m = k := by simpa using heq
      exact (Option.some.inj hk).symm
    next => exact h.copies hk

/-- **The halving ends**, with the balanced tree. -/
theorem buildFrom_eq (hm : 1 ≤ m) {parts : Parts α} (h : parts.Holds value) :
    ∃ parts', buildFrom m parts = some (replicate m value, parts') ∧ Parts.Holds value parts' := by
  induction m using Nat.strongRecOn generalizing parts with
  | ind m ih =>
    rw [buildFrom]
    cases hfind : parts[m]? with
    | some tree => exact ⟨parts, by rw [h.copies hfind], h⟩
    | none =>
      -- the table has the tree of one element, so the size can be halved
      have hne : m ≠ 1 := by
        rintro rfl
        rw [h.one] at hfind
        cases hfind
      have htwo : 2 ≤ m := by omega
      obtain ⟨parts₁, hleft, h₁⟩ := ih (m / 2) (by omega) (by omega) h
      obtain ⟨parts₂, hright, h₂⟩ := ih (m - m / 2) (by omega) (by omega) h₁
      refine ⟨_, ?_, h₂.insert hne⟩
      simp only [dif_pos htwo, hleft, hright, bind, Option.bind, pure, ← replicate_of_two_le htwo]

end LeafTree

/-- An array that is made part by part is made, and has balanced parts. -/
theorem BalancedArray.build_eq (size : Nat) (value : α) :
    build size value = some (replicate size value) := by
  unfold build replicate
  by_cases hsize : size = 0
  · rw [if_pos hsize, if_pos hsize, hsize]
  · obtain ⟨parts, hbuild, -⟩ :=
      LeafTree.buildFrom_eq (Nat.pos_of_ne_zero hsize) (LeafTree.Parts.holds_seed value)
    simp only [if_neg hsize, hbuild, bind, Option.bind, pure]

end Submatch
