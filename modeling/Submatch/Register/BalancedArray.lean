import Submatch.Fault

/-!
# Persistent arrays

An array is kept as a balanced binary tree: a part of `m` elements is a leaf if `m` is
one, and otherwise splits into `m / 2` elements and the rest. Changing an element
rebuilds the path to it and shares everything else, so older versions stay intact.

* `get_eq`, `toList_set`: on a balanced array, reading and changing elements is reading
  and changing the list of its elements;
* `isBalanced_replicate`, `isBalanced_set`: the arrays that can be made are balanced.
-/

namespace Submatch

variable {α : Type}

/-- A binary tree with elements at its leaves. -/
inductive LeafTree (α : Type) where
  | leaf (value : α)
  | branch (left right : LeafTree α)

namespace LeafTree

/-- The balanced trees of `m` and of `m + 1` copies of a value. The parts of both have one
of two sizes, so all parts of a size are one tree. -/
def replicatePair (value : α) (m : Nat) : LeafTree α × LeafTree α :=
  if m ≤ 1 then
    let one := leaf value
    (one, branch one one)
  else
    let (half, more) := replicatePair value (m / 2)
    if m % 2 = 0 then (branch half half, branch half more)
    else (branch half more, branch more more)
termination_by m

/-- The balanced tree of `m` copies of a value. -/
def replicate (m : Nat) (value : α) : LeafTree α := (replicatePair value m).1

/-- The element with the given index in a balanced tree of `m` elements. -/
def get : LeafTree α → (m index : Nat) → α
  | leaf value, _, _ => value
  | branch left right, m, index =>
    if index < m / 2 then left.get (m / 2) index else right.get (m - m / 2) (index - m / 2)

/-- A balanced tree of `m` elements with another value at the given index. -/
def set (value : α) : LeafTree α → (m index : Nat) → LeafTree α
  | leaf _, _, _ => leaf value
  | branch left right, m, index =>
    if index < m / 2 then branch (left.set value (m / 2) index) right
    else branch left (right.set value (m - m / 2) (index - m / 2))

/-- The elements from left to right. -/
def toList : LeafTree α → List α
  | leaf value => [value]
  | branch left right => left.toList ++ right.toList

/-- The length of the longest way from the root to a leaf. -/
def depth : LeafTree α → Nat
  | leaf _ => 0
  | branch left right => max left.depth right.depth + 1

/-- A tree of `m` elements that is split in halves all the way down. -/
inductive Balanced : Nat → LeafTree α → Prop where
  | leaf (value : α) : Balanced 1 (leaf value)
  | branch {m : Nat} {left right : LeafTree α} (two_le : 2 ≤ m)
      (hl : Balanced (m / 2) left) (hr : Balanced (m - m / 2) right) :
      Balanced m (branch left right)

theorem balanced_replicatePair (value : α) (m : Nat) (h : 1 ≤ m) :
    Balanced m (replicatePair value m).1 ∧ Balanced (m + 1) (replicatePair value m).2 := by
  fun_induction replicatePair value m with
  | case1 m hm =>
    obtain rfl : m = 1 := by omega
    exact ⟨.leaf value, .branch (Nat.le_refl 2) (.leaf value) (.leaf value)⟩
  | case2 m hm half more heq heven ih =>
    obtain ⟨hhalf, hmore⟩ := heq ▸ ih (by omega)
    have h₁ : m - m / 2 = m / 2 := by omega
    have h₂ : (m + 1) / 2 = m / 2 := by omega
    have h₃ : m + 1 - m / 2 = m / 2 + 1 := by omega
    exact ⟨.branch (by omega) hhalf (by rw [h₁]; exact hhalf),
      .branch (by omega) (by rw [h₂]; exact hhalf) (by rw [h₂, h₃]; exact hmore)⟩
  | case3 m hm half more heq hodd ih =>
    obtain ⟨hhalf, hmore⟩ := heq ▸ ih (by omega)
    have h₁ : m - m / 2 = m / 2 + 1 := by omega
    have h₂ : (m + 1) / 2 = m / 2 + 1 := by omega
    have h₃ : m + 1 - (m / 2 + 1) = m / 2 + 1 := by omega
    exact ⟨.branch (by omega) hhalf (by rw [h₁]; exact hmore),
      .branch (by omega) (by rw [h₂]; exact hmore) (by rw [h₂, h₃]; exact hmore)⟩

theorem balanced_replicate (value : α) (m : Nat) (h : 1 ≤ m) :
    Balanced m (replicate m value) :=
  (balanced_replicatePair value m h).1

theorem toList_replicatePair (value : α) (m : Nat) (h : 1 ≤ m) :
    (replicatePair value m).1.toList = List.replicate m value ∧
      (replicatePair value m).2.toList = List.replicate (m + 1) value := by
  fun_induction replicatePair value m with
  | case1 m hm =>
    obtain rfl : m = 1 := by omega
    exact ⟨rfl, rfl⟩
  | case2 m hm half more heq heven ih =>
    obtain ⟨hhalf, hmore⟩ := heq ▸ ih (by omega)
    simp only [toList, hhalf, hmore, List.replicate_append_replicate]
    exact ⟨congrArg (List.replicate · value) (by omega),
      congrArg (List.replicate · value) (by omega)⟩
  | case3 m hm half more heq hodd ih =>
    obtain ⟨hhalf, hmore⟩ := heq ▸ ih (by omega)
    simp only [toList, hhalf, hmore, List.replicate_append_replicate]
    exact ⟨congrArg (List.replicate · value) (by omega),
      congrArg (List.replicate · value) (by omega)⟩

theorem toList_replicate (value : α) (m : Nat) (h : 1 ≤ m) :
    (replicate m value).toList = List.replicate m value :=
  (toList_replicatePair value m h).1

variable {m : Nat} {t : LeafTree α}

theorem Balanced.length_toList (h : Balanced m t) : t.toList.length = m := by
  induction h with
  | leaf => rfl
  | branch _ _ _ ihl ihr => rw [toList, List.length_append, ihl, ihr]; omega

theorem Balanced.getElem?_toList (h : Balanced m t) (i : Nat) (hi : i < m) :
    t.toList[i]? = some (t.get m i) := by
  induction h generalizing i with
  | leaf value =>
    obtain rfl : i = 0 := by omega
    rfl
  | branch _ hl _ ihl ihr =>
    rw [toList, get]
    split
    next hlt => rw [List.getElem?_append_left (by rw [hl.length_toList]; exact hlt), ihl i hlt]
    next hge =>
      rw [List.getElem?_append_right (by rw [hl.length_toList]; omega), hl.length_toList]
      exact ihr _ (by omega)

theorem Balanced.set (h : Balanced m t) (value : α) (i : Nat) :
    Balanced m (t.set value m i) := by
  induction h generalizing i with
  | leaf => exact .leaf value
  | branch two_le hl hr ihl ihr =>
    rw [LeafTree.set]
    split
    · exact .branch two_le (ihl i) hr
    · exact .branch two_le hl (ihr _)

theorem Balanced.toList_set (h : Balanced m t) (value : α) (i : Nat) (hi : i < m) :
    (t.set value m i).toList = t.toList.set i value := by
  induction h generalizing i with
  | leaf =>
    obtain rfl : i = 0 := by omega
    rfl
  | branch _ hl _ ihl ihr =>
    rw [LeafTree.set]
    split
    next hlt =>
      rw [toList, toList, ihl i hlt, List.set_append_left _ _ (by rw [hl.length_toList]; exact hlt)]
    next hge =>
      rw [toList, toList, ihr _ (by omega),
        List.set_append_right _ _ (by rw [hl.length_toList]; omega), hl.length_toList]

end LeafTree

/-- A persistent array of a fixed length. -/
structure BalancedArray (α : Type) where
  /-- The number of elements. -/
  size : Nat
  /-- The elements, if there are any. -/
  root : Option (LeafTree α)

namespace BalancedArray

/-- An array of `size` copies of a value. -/
def replicate (size : Nat) (value : α) : BalancedArray α :=
  ⟨size, if size = 0 then none else some (.replicate size value)⟩

/-- The element with the given index. -/
def get (a : BalancedArray α) (index : Nat) : Except Fault α :=
  match a.root with
  | some tree =>
    if index < a.size then .ok (tree.get a.size index)
    else .error (.indexOutOfBounds index a.size)
  | none => .error (.indexOutOfBounds index a.size)

/-- The array with another value at the given index. -/
def set (a : BalancedArray α) (index : Nat) (value : α) : Except Fault (BalancedArray α) :=
  match a.root with
  | some tree =>
    if index < a.size then .ok ⟨a.size, some (tree.set value a.size index)⟩
    else .error (.indexOutOfBounds index a.size)
  | none => .error (.indexOutOfBounds index a.size)

/-- The elements in order. -/
def toList (a : BalancedArray α) : List α :=
  match a.root with
  | some tree => tree.toList
  | none => []

/-- The elements in order, each one read by its index. -/
def readAll (a : BalancedArray α) : Except Fault (List α) := (List.range a.size).mapM a.get

/-- The elements between brackets. -/
def text (itemText : α → String) (a : BalancedArray α) : String :=
  Text.bracketed (a.toList.map itemText)

/-- The elements form a balanced tree, or there are none. -/
inductive IsBalanced : BalancedArray α → Prop where
  | empty : IsBalanced ⟨0, none⟩
  | tree {size : Nat} {tree : LeafTree α} (h : tree.Balanced size) : IsBalanced ⟨size, some tree⟩

theorem isBalanced_replicate (size : Nat) (value : α) : (replicate size value).IsBalanced := by
  unfold replicate
  split
  next h => exact h ▸ .empty
  next h => exact .tree (LeafTree.balanced_replicate value size (by omega))

@[simp] theorem toList_replicate (size : Nat) (value : α) :
    (replicate size value).toList = List.replicate size value := by
  by_cases h : size = 0
  · subst h
    rfl
  · simp only [replicate, toList, if_neg h]
    exact LeafTree.toList_replicate value size (by omega)

theorem IsBalanced.length_toList {a : BalancedArray α} (h : a.IsBalanced) :
    a.toList.length = a.size := by
  cases h with
  | empty => rfl
  | tree h => exact h.length_toList

/-- Reading an element of the array is reading that element of its list. -/
theorem get_eq {a : BalancedArray α} (h : a.IsBalanced) (i : Nat) :
    a.get i = match a.toList[i]? with
      | some value => .ok value
      | none => .error (.indexOutOfBounds i a.size) := by
  cases h with
  | empty => rfl
  | tree h =>
    simp only [get, toList]
    split
    next hi => rw [h.getElem?_toList i hi]
    next hi => rw [List.getElem?_eq_none (by rw [h.length_toList]; omega)]

/-- Every element that there is can be changed. -/
theorem exists_set {a : BalancedArray α} (h : a.IsBalanced) {i : Nat} (hi : i < a.size)
    (value : α) : ∃ b, a.set i value = .ok b := by
  cases h with
  | empty => exact absurd hi (Nat.not_lt_zero i)
  | tree => exact ⟨_, if_pos hi⟩

theorem set_eq_error {a : BalancedArray α} (h : a.IsBalanced) {i : Nat} (hi : a.size ≤ i)
    (value : α) : a.set i value = .error (.indexOutOfBounds i a.size) := by
  cases h with
  | empty => rfl
  | tree => exact if_neg (Nat.not_lt.2 hi)

theorem isBalanced_set {a b : BalancedArray α} (h : a.IsBalanced) {i : Nat} {value : α}
    (hb : a.set i value = .ok b) : b.IsBalanced := by
  cases h with
  | empty => cases hb
  | tree h =>
    simp only [set] at hb
    split at hb
    · cases hb
      exact .tree (h.set value i)
    · cases hb

/-- Changing an element of the array is changing that element of its list. -/
theorem toList_set {a b : BalancedArray α} (h : a.IsBalanced) {i : Nat} {value : α}
    (hb : a.set i value = .ok b) : b.toList = a.toList.set i value := by
  cases h with
  | empty => cases hb
  | tree h =>
    simp only [set] at hb
    split at hb
    next hi =>
      cases hb
      exact h.toList_set value i hi
    · cases hb

theorem size_set {a b : BalancedArray α} (h : a.IsBalanced) {i : Nat} {value : α}
    (hb : a.set i value = .ok b) : b.size = a.size := by
  rw [← (isBalanced_set h hb).length_toList, toList_set h hb, List.length_set, h.length_toList]

end BalancedArray

end Submatch
