import Std.Data.HashMap

/-!
# Numbering by first appearance

A `Numbering` gives every item a number, counting from zero: a new item gets the next
number, and an item that has one keeps it. So equal items share a number, and the numbers
follow the order in which the items first appear.

* `number?_add_self`: an item that has been added has the number it was given;
* `getElem?_add_self`: the item of that number is the one that was added.
-/

namespace Submatch

/-- Different items, numbered in the order in which they first appear. -/
structure Numbering (α : Type) [BEq α] [Hashable α] where
  /-- The items in the order of their numbers. -/
  items : Array α
  /-- The number of every item. -/
  numbers : Std.HashMap α Nat

namespace Numbering

variable {α : Type} [BEq α] [Hashable α]

/-- No item has a number. -/
def empty : Numbering α := ⟨#[], {}⟩

/-- How many items have a number. -/
def size (n : Numbering α) : Nat := n.items.size

/-- The number of an item, if it has one. -/
def number? (n : Numbering α) (item : α) : Option Nat := n.numbers[item]?

/-- The number of an item, which gets the next one if it is new. -/
def add (n : Numbering α) (item : α) : Nat × Numbering α :=
  match n.number? item with
  | some number => (number, n)
  | none =>
    let number := n.size
    (number, ⟨n.items.push item, n.numbers.insert item number⟩)

/-- The numbering of the items of a list. -/
def ofList (items : List α) : Numbering α := items.foldl (fun n item => (n.add item).2) empty

/-- Every item has the number of its place. -/
def Consistent (n : Numbering α) : Prop :=
  ∀ (item : α) (number : Nat), n.number? item = some number ↔ n.items[number]? = some item

@[simp] theorem number?_empty (item : α) : (empty : Numbering α).number? item = none := by
  simp [empty, number?]

theorem consistent_empty : (empty : Numbering α).Consistent := by
  intro item number
  simp [number?, empty]

variable [LawfulBEq α] [LawfulHashable α]

@[simp] theorem number?_add_self (n : Numbering α) (item : α) :
    (n.add item).2.number? item = some (n.add item).1 := by
  unfold add
  split
  next h => exact h
  next => simp [number?]

theorem Consistent.add {n : Numbering α} (h : n.Consistent) (item : α) :
    (n.add item).2.Consistent := by
  unfold Numbering.add
  split
  · exact h
  next hnew =>
    intro other number
    have hother := h other number
    have hitem := h item number
    simp only [number?, size] at *
    rw [Std.HashMap.getElem?_insert, Array.getElem?_push]
    grind

theorem Consistent.getElem?_add_self {n : Numbering α} (h : n.Consistent) (item : α) :
    (n.add item).2.items[(n.add item).1]? = some item :=
  (h.add item item _).1 (number?_add_self n item)

theorem consistent_foldl (items : List α) {n : Numbering α} (h : n.Consistent) :
    (items.foldl (fun n item => (n.add item).2) n).Consistent := by
  induction items generalizing n with
  | nil => exact h
  | cons item rest ih => exact ih (h.add item)

theorem consistent_ofList (items : List α) : (ofList items).Consistent :=
  consistent_foldl items consistent_empty

end Numbering

end Submatch
