import Mathlib.Data.List.Induction
import Mathlib.Data.List.Nodup
import Mathlib.Data.Set.Function
import Submatch.Proofs.Order.Numbering

/-!
# Orders of first appearance

`List.eraseDups` keeps the first of equal elements. Renaming the elements of a list without
making any two of them equal renames what is kept (`eraseDups_map`). A numbering of a list holds
its items in the order in which they first appear (`items_ofList`), so the numbers of the items
first appear in their natural order (`eraseDups_numbers`).
-/

namespace Submatch.Order

/-- Where a function is defined on the whole list, nothing is left out. -/
theorem map_some_filterMap {α β : Type} {f : α → Option β} {l : List α}
    (h : ∀ a ∈ l, ∃ b, f a = some b) : (l.filterMap f).map some = l.map f := by
  induction l with
  | nil => rfl
  | cons a l ih =>
    obtain ⟨⟨b, hb⟩, hl⟩ := List.forall_mem_cons.1 h
    rw [List.filterMap_cons_some hb, List.map_cons, List.map_cons, ih hl, hb]

variable {α β : Type} [BEq α] [LawfulBEq α] [BEq β] [LawfulBEq β]

/-- What is kept of a list and one more element. -/
theorem eraseDups_concat (l : List α) (a : α) :
    (l ++ [a]).eraseDups = if a ∈ l then l.eraseDups else l.eraseDups ++ [a] := by
  rw [List.eraseDups_append]
  split
  next ha =>
    have hnone : [a].removeAll l = [] := by simp [List.removeAll, ha]
    rw [hnone, List.eraseDups_nil, List.append_nil]
  next ha =>
    have hone : [a].removeAll l = [a] := by simp [List.removeAll, ha]
    rw [hone, List.eraseDups_cons]
    simp

/-- Different elements stay different, so the same ones are kept. -/
theorem eraseDups_map {f : α → β} {l : List α} (h : Set.InjOn f {a | a ∈ l}) :
    (l.map f).eraseDups = l.eraseDups.map f := by
  induction l using List.reverseRecOn with
  | nil => rfl
  | append_singleton l a ih =>
    have hl : Set.InjOn f {b | b ∈ l} := h.mono fun b hb => List.mem_append_left _ hb
    have hmem : f a ∈ l.map f ↔ a ∈ l := by
      constructor
      · intro hfa
        obtain ⟨b, hb, heq⟩ := List.mem_map.1 hfa
        have hab : b = a := h (List.mem_append_left _ hb) (List.mem_append_right _ (by simp)) heq
        exact hab ▸ hb
      · exact List.mem_map_of_mem
    rw [List.map_append, List.map_singleton, eraseDups_concat, eraseDups_concat, ih hl]
    by_cases ha : a ∈ l
    · rw [if_pos ha, if_pos (hmem.2 ha)]
    · rw [if_neg ha, if_neg (mt hmem.1 ha), List.map_append, List.map_singleton]

end Submatch.Order

namespace Submatch.Numbering

variable {α : Type} [BEq α] [Hashable α] {n : Numbering α} {item other : α} {number : Nat}

theorem Consistent.number?_eq_none (h : n.Consistent) :
    n.number? item = none ↔ item ∉ n.items := by
  rw [Option.eq_none_iff_forall_not_mem, Array.mem_iff_getElem?]
  simp only [Option.mem_def, h item, not_exists]

/-- Different items have different numbers. -/
theorem Consistent.number_inj (h : n.Consistent) (hitem : n.number? item = some number)
    (hother : n.number? other = some number) : item = other := by
  have hget := (h item number).1 hitem
  rw [(h other number).1 hother] at hget
  exact (Option.some.inj hget).symm

/-- The numbers of the items of a numbering are those below its size. -/
theorem Consistent.numbers_items (h : n.Consistent) :
    n.items.toList.map n.number? = (List.range n.size).map some := by
  refine List.ext_getElem? fun i => ?_
  rw [List.getElem?_map, List.getElem?_map, Array.getElem?_toList]
  by_cases hi : i < n.size
  · have hget : n.items[i]? = some n.items[i] := Array.getElem?_eq_getElem hi
    have hnumber : n.number? n.items[i] = some i := (h _ i).2 hget
    rw [hget, List.getElem?_range hi, Option.map_some, Option.map_some, hnumber]
  · have hget : n.items[i]? = none := Array.getElem?_eq_none (Nat.le_of_not_lt hi)
    rw [hget, List.getElem?_eq_none (by simpa using hi)]
    rfl

/-- No item stands under two numbers. -/
theorem Consistent.nodup (h : n.Consistent) : n.items.toList.Nodup := by
  have hnumbers : (n.items.toList.map n.number?).Nodup := by
    rw [h.numbers_items]
    exact List.Nodup.map (Option.some_injective _) List.nodup_range
  exact List.Nodup.of_map _ hnumbers

variable [LawfulBEq α]

theorem Consistent.items_add (h : n.Consistent) (item : α) :
    (n.add item).2.items.toList =
      if item ∈ n.items then n.items.toList else n.items.toList ++ [item] := by
  unfold Numbering.add
  split
  next number hnumber =>
    have hmem : item ∈ n.items := Array.mem_of_getElem? ((h item number).1 hnumber)
    rw [if_pos hmem]
  next hnew =>
    rw [if_neg (h.number?_eq_none.1 hnew)]
    exact Array.toList_push

variable [LawfulHashable α]

/-- **The items stand in the order in which they first appear.** -/
theorem items_ofList (items : List α) : (ofList items).items.toList = items.eraseDups := by
  induction items using List.reverseRecOn with
  | nil => rfl
  | append_singleton items item ih =>
    have hadd : ofList (items ++ [item]) = ((ofList items).add item).2 := by
      unfold ofList
      rw [List.foldl_append]
      rfl
    have hmem : item ∈ (ofList items).items ↔ item ∈ items := by
      rw [← Array.mem_toList_iff, ih, List.mem_eraseDups]
    rw [hadd, (consistent_ofList items).items_add, ih, Order.eraseDups_concat]
    by_cases hitem : item ∈ items
    · rw [if_pos hitem, if_pos (hmem.2 hitem)]
    · rw [if_neg hitem, if_neg (mt hmem.1 hitem)]

/-- **Numbers first appear in their natural order**, without gaps, where the items of a list are
read one after the other. -/
theorem eraseDups_numbers (items : List α) :
    (items.filterMap (ofList items).number?).eraseDups = List.range (ofList items).size := by
  have hconsistent := consistent_ofList items
  have hsome : ∀ item ∈ items, ∃ number, (ofList items).number? item = some number := by
    intro item hitem
    obtain ⟨number, hnumber, -⟩ := exists_number_ofList hitem
    exact ⟨number, hnumber⟩
  have hinj : Set.InjOn (ofList items).number? {item | item ∈ items} := by
    intro item hitem other _ heq
    obtain ⟨number, hnumber⟩ := hsome item hitem
    exact hconsistent.number_inj hnumber (heq.symm.trans hnumber)
  have hsomes : Set.InjOn (some : Nat → Option Nat)
      {number | number ∈ items.filterMap (ofList items).number?} :=
    (Option.some_injective _).injOn
  have hkept : (items.filterMap (ofList items).number?).eraseDups.map some =
      (List.range (ofList items).size).map some := by
    rw [← Order.eraseDups_map hsomes, Order.map_some_filterMap hsome, Order.eraseDups_map hinj,
      ← items_ofList, hconsistent.numbers_items]
  exact List.map_injective_iff.2 (Option.some_injective _) hkept

end Submatch.Numbering
