import Submatch.Order.Numbering

/-!
# Numberings that grow

A numbering keeps the numbers it has given (`Extends`), and adding an item that has a number
changes nothing (`add_of_mem`). The numbering of a list holds its items once each.
-/

namespace Submatch.Numbering

variable {α : Type} [BEq α] [Hashable α] {n n' n'' : Numbering α} {item : α}

/-- Whatever has a number in `n` has the same number in `n'`. -/
def Extends (n n' : Numbering α) : Prop :=
  ∀ (number : Nat) (item : α), n.items[number]? = some item → n'.items[number]? = some item

theorem Extends.refl (n : Numbering α) : n.Extends n := fun _ _ h => h

theorem Extends.trans (h : n.Extends n') (h' : n'.Extends n'') : n.Extends n'' :=
  fun number item hitem => h' number item (h number item hitem)

theorem Extends.mem (h : n.Extends n') (hitem : item ∈ n.items) : item ∈ n'.items := by
  obtain ⟨number, hnumber⟩ := Array.mem_iff_getElem?.1 hitem
  exact Array.mem_of_getElem? (h number item hnumber)

theorem extends_add (n : Numbering α) (item : α) : n.Extends (n.add item).2 := by
  intro number other hother
  unfold add
  split
  · exact hother
  · obtain ⟨hlt, -⟩ := Array.getElem?_eq_some_iff.1 hother
    rw [Array.getElem?_push_lt hlt, ← Array.getElem?_eq_getElem hlt, hother]

/-- The items of a numbering and one more. -/
theorem mem_items_add {other : α} :
    other ∈ (n.add item).2.items → other ∈ n.items ∨ other = item := by
  unfold add
  split
  · exact .inl
  · intro h
    exact Array.mem_push.1 h

theorem mem_foldl_add {items : List α} {other : α} :
    other ∈ (items.foldl (fun n item => (n.add item).2) n).items →
      other ∈ n.items ∨ other ∈ items := by
  induction items generalizing n with
  | nil => exact .inl
  | cons item rest ih =>
    intro h
    rcases ih h with h | h
    · rcases mem_items_add h with h | rfl
      · exact .inl h
      · exact .inr List.mem_cons_self
    · exact .inr (List.mem_cons_of_mem _ h)

/-- Only items of the list have a number. -/
theorem mem_of_mem_ofList {items : List α} {other : α} (h : other ∈ (ofList items).items) :
    other ∈ items := by
  rcases mem_foldl_add h with h | h
  · exact absurd h (by simp [empty])
  · exact h

theorem extends_foldl (items : List α) (n : Numbering α) :
    n.Extends (items.foldl (fun n item => (n.add item).2) n) := by
  induction items generalizing n with
  | nil => exact .refl n
  | cons item rest ih => exact (extends_add n item).trans (ih _)

theorem size_add_le (n : Numbering α) (item : α) : (n.add item).2.size ≤ n.size + 1 := by
  unfold add
  split
  · exact Nat.le_succ _
  · exact Nat.le_of_eq (Array.size_push item)

theorem size_foldl_le (items : List α) (n : Numbering α) :
    (items.foldl (fun n item => (n.add item).2) n).size ≤ n.size + items.length := by
  induction items generalizing n with
  | nil => exact Nat.le_refl _
  | cons item rest ih =>
    have hrest := ih (n.add item).2
    have := size_add_le n item
    rw [List.foldl_cons, List.length_cons]
    omega

/-- There are no more numbers than items in the list. -/
theorem size_ofList_le (items : List α) : (ofList items).size ≤ items.length := by
  have h := size_foldl_le items (empty : Numbering α)
  have hempty : (empty : Numbering α).size = 0 := rfl
  rw [hempty, Nat.zero_add] at h
  exact h

/-- An item that has a number keeps it. -/
theorem Consistent.add_of_mem (h : n.Consistent) {number : Nat}
    (hitem : n.items[number]? = some item) : n.add item = (number, n) := by
  unfold Numbering.add
  rw [(h item number).2 hitem]

/-- No item has two numbers. -/
theorem Consistent.index_inj (h : n.Consistent) {i j : Nat} (hi : n.items[i]? = some item)
    (hj : n.items[j]? = some item) : i = j := by
  have hnumber := (h item i).2 hi
  rw [(h item j).2 hj] at hnumber
  exact (Option.some.inj hnumber).symm

/-- What has a number keeps it, and gets no other one. -/
theorem Extends.getElem?_iff (h : n.Extends n') (hn' : n'.Consistent) (hitem : item ∈ n.items)
    {i : Nat} : n'.items[i]? = some item ↔ n.items[i]? = some item := by
  refine ⟨fun hi => ?_, h i item⟩
  obtain ⟨j, hj⟩ := Array.mem_iff_getElem?.1 hitem
  rw [hn'.index_inj hi (h j item hj)]
  exact hj

variable [LawfulBEq α] [LawfulHashable α]

theorem Consistent.mem_items_add (h : n.Consistent) {other : α} :
    other ∈ (n.add item).2.items ↔ other ∈ n.items ∨ other = item := by
  refine ⟨Numbering.mem_items_add, ?_⟩
  rintro (hother | rfl)
  · exact (extends_add n item).mem hother
  · exact Array.mem_of_getElem? (h.getElem?_add_self other)

theorem exists_number_foldl (items : List α) (h : n.Consistent) (hitem : item ∈ items) :
    ∃ number : Nat,
      (items.foldl (fun n item => (n.add item).2) n).items[number]? = some item := by
  induction items generalizing n with
  | nil => cases hitem
  | cons other rest ih =>
    rcases List.mem_cons.1 hitem with rfl | hitem
    · exact ⟨_, extends_foldl rest _ _ _ (h.getElem?_add_self item)⟩
    · exact ih (h.add other) hitem

/-- Every item of the list has a number. -/
theorem exists_number_ofList {items : List α} (hitem : item ∈ items) :
    ∃ number : Nat, (ofList items).number? item = some number ∧
      (ofList items).items[number]? = some item := by
  obtain ⟨number, hnumber⟩ := exists_number_foldl items consistent_empty hitem
  exact ⟨number, (consistent_ofList items item number).2 hnumber, hnumber⟩

end Submatch.Numbering
