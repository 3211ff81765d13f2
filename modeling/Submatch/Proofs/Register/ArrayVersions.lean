import Mathlib.Data.List.Forall2
import Mathlib.Data.Nat.Log
import Submatch.Proofs.Register.Construction
import Submatch.Register.Versions

/-!
# Versions of an array

A balanced array does what the list of its elements does (`BalancedArray.Refines`): it reads
and lists these elements and refuses other indices, and its tree is as deep as its size asks for
(`Balanced.depth_eq`). An edit of one of several balanced arrays is the edit of their lists and
leaves them balanced (`edit_refines`), so all versions that edits make refine lists
(`versions_refine`).
-/

namespace Submatch

variable {α : Type} {m size : Nat}

/-- A tree that is split in halves has the depth that its number of elements asks for. -/
theorem LeafTree.Balanced.depth_eq {t : LeafTree α} (h : Balanced m t) :
    t.depth = Nat.clog 2 m := by
  induction h with
  | leaf => rw [depth, Nat.clog_one_right]
  | @branch m left right two_le hl hr ihl ihr =>
    have hup : (m + 2 - 1) / 2 = m - m / 2 := by omega
    have hmono : Nat.clog 2 (m / 2) ≤ Nat.clog 2 (m - m / 2) := Nat.clog_mono_right 2 (by omega)
    rw [depth, ihl, ihr, Nat.max_eq_right hmono, Nat.clog_of_two_le Nat.one_lt_two two_le, hup]

namespace BalancedArray

variable {a : BalancedArray α}

/-- An array does what a list does. -/
structure Refines (a : BalancedArray α) (l : List α) : Prop where
  size_eq : a.size = l.length
  balanced : a.IsBalanced
  depth_le : ∀ tree ∈ a.root, tree.depth ≤ Nat.clog 2 l.length
  get_inside : ∀ (i : Nat) (h : i < l.length), a.get i = .ok l[i]
  get_outside : ∀ i, l.length ≤ i → a.get i = .error (.indexOutOfBounds i l.length)
  set_outside : ∀ i value, l.length ≤ i → a.set i value = .error (.indexOutOfBounds i l.length)
  readAll_eq : a.readAll = .ok l

/-- The elements that are read index by index are the leaves from left to right. -/
theorem IsBalanced.readAll_eq (h : a.IsBalanced) : a.readAll = .ok a.toList := by
  cases h with
  | empty => rfl
  | @tree size tree h =>
    have hget : ∀ i ∈ List.range size, get ⟨size, some tree⟩ i = .ok (tree.get size i) :=
      fun i hi => if_pos (List.mem_range.1 hi)
    have hlist : (List.range size).map (tree.get size) = tree.toList := by
      refine List.ext_getElem? fun i => ?_
      rw [List.getElem?_map]
      by_cases hi : i < size
      · rw [List.getElem?_range hi, h.getElem?_toList i hi, Option.map_some]
      · rw [List.getElem?_eq_none (by rw [List.length_range]; omega),
          List.getElem?_eq_none (by rw [h.length_toList]; omega), Option.map_none]
    exact (mapM_ok hget).trans (congrArg _ hlist)

theorem IsBalanced.refines (h : a.IsBalanced) : a.Refines a.toList where
  size_eq := h.length_toList.symm
  balanced := h
  depth_le := by
    rintro tree htree
    cases h with
    | empty => cases htree
    | tree h =>
      obtain rfl := Option.some.inj htree
      rw [h.depth_eq, toList, h.length_toList]
  get_inside i hi := by rw [get_eq h, List.getElem?_eq_getElem hi]
  get_outside i hi := by rw [get_eq h, List.getElem?_eq_none hi, h.length_toList]
  set_outside i value hi := by
    rw [h.length_toList] at hi ⊢
    exact set_eq_error h hi value
  readAll_eq := h.readAll_eq

variable {arrays : List (BalancedArray α)}

/-- An edit adds nothing, or it names an element that there is and adds an array. -/
theorem edit_cases (h : ∀ a ∈ arrays, a.IsBalanced ∧ a.size = size) (e : Edit α) :
    (edit arrays e = arrays ∧ e.applyPlain (arrays.map toList) = arrays.map toList) ∨
    e.index < size ∧ ∃ b, b.IsBalanced ∧ b.size = size ∧ edit arrays e = arrays ++ [b] ∧
      e.applyPlain (arrays.map toList) = arrays.map toList ++ [b.toList] := by
  unfold edit Edit.applyPlain
  rw [List.getElem?_map]
  cases hbase : arrays[e.base]? with
  | none => exact .inl ⟨rfl, rfl⟩
  | some a =>
    obtain ⟨hbalanced, hsize⟩ := h a (List.mem_of_getElem? hbase)
    simp only [Option.map_some, hbalanced.length_toList, hsize]
    by_cases hi : e.index < size
    · obtain ⟨b, hset⟩ := exists_set hbalanced (hsize ▸ hi) e.value
      have hlist := toList_set hbalanced hset
      exact .inr ⟨hi, b, isBalanced_set hbalanced hset, (size_set hbalanced hset).trans hsize,
        by rw [hset], by rw [if_pos hi, hlist]⟩
    · have hset := set_eq_error hbalanced (hsize ▸ Nat.le_of_not_lt hi) e.value
      exact .inl ⟨by rw [hset], if_neg hi⟩

/-- **One edit** of arrays is the edit of the lists of their elements, and keeps them balanced. -/
theorem edit_refines (h : ∀ a ∈ arrays, a.IsBalanced ∧ a.size = size) (e : Edit α) :
    (edit arrays e).map toList = e.applyPlain (arrays.map toList) ∧
      ∀ a ∈ edit arrays e, a.IsBalanced ∧ a.size = size := by
  rcases edit_cases h e with ⟨hedit, hplain⟩ | ⟨-, b, hb, hsize, hedit, hplain⟩
  · rw [hedit, hplain]
    exact ⟨rfl, h⟩
  · rw [hedit, hplain, List.map_append]
    exact ⟨rfl, List.forall_mem_append.2 ⟨h, List.forall_mem_singleton.2 ⟨hb, hsize⟩⟩⟩

/-- **Several edits** of arrays are the edits of the lists. -/
theorem foldl_edit_refines (h : ∀ a ∈ arrays, a.IsBalanced ∧ a.size = size)
    (edits : List (Edit α)) :
    (edits.foldl edit arrays).map toList = edits.foldl Edit.applyPlain (arrays.map toList) ∧
      ∀ a ∈ edits.foldl edit arrays, a.IsBalanced ∧ a.size = size := by
  induction edits generalizing arrays with
  | nil => exact ⟨rfl, h⟩
  | cons e edits ih =>
    obtain ⟨hplain, hedit⟩ := edit_refines h e
    rw [List.foldl_cons, List.foldl_cons, ← hplain]
    exact ih hedit

/-- Edits keep the versions that there are. -/
theorem prefix_foldl_edit (arrays : List (BalancedArray α)) (edits : List (Edit α)) :
    arrays <+: edits.foldl edit arrays := by
  refine List.foldlRecOn edits edit (List.prefix_refl arrays) fun later hlater e _ => ?_
  refine hlater.trans ?_
  unfold edit
  split
  · split
    · exact List.prefix_append ..
    · exact List.prefix_refl later
  · exact List.prefix_refl later

/-- **Versions of an array are versions of a list.** Take an array of copies of one value, which
is made part by part, and edit any of the versions in any order. The versions are as many as
those of the list, each does what its list does, and all have the same size. An edit behind the
end makes no version, and later edits change none of those that are there. -/
theorem versions_refine (size : Nat) (fill : α) (edits : List (Edit α)) :
    build size fill = some (replicate size fill) ∧
      List.Forall₂ Refines (versions size fill edits) (Edit.plainVersions size fill edits) ∧
      (∀ a ∈ versions size fill edits, a.size = size) ∧
      (∀ e : Edit α, size ≤ e.index →
        edit (versions size fill edits) e = versions size fill edits) ∧
      ∀ before after, edits = before ++ after →
        versions size fill before <+: versions size fill edits := by
  have hstart : ∀ a ∈ [replicate size fill], a.IsBalanced ∧ a.size = size :=
    List.forall_mem_singleton.2 ⟨isBalanced_replicate size fill, rfl⟩
  obtain ⟨hlists, hbalanced⟩ := foldl_edit_refines hstart edits
  have hplain : Edit.plainVersions size fill edits = (versions size fill edits).map toList := by
    rw [versions, hlists, List.map_singleton, toList_replicate, Edit.plainVersions]
  refine ⟨build_eq size fill, ?_, fun a ha => (hbalanced a ha).2, fun e he => ?_, ?_⟩
  · rw [hplain, List.forall₂_map_right_iff, List.forall₂_same]
    exact fun a ha => (hbalanced a ha).1.refines
  · rcases edit_cases hbalanced e with ⟨hedit, -⟩ | ⟨hlt, -⟩
    · exact hedit
    · exact absurd hlt (Nat.not_lt.2 he)
  · rintro before after rfl
    rw [versions, versions, List.foldl_append]
    exact prefix_foldl_edit _ after

/-- Two versions go on from the first one; in between an edit fails. -/
theorem versions_refine_branching :
    let edits : List (Edit Nat) := [⟨0, 2, 7⟩, ⟨1, 3, 9⟩, ⟨0, 0, 5⟩]
    List.Forall₂ Refines (versions 3 0 edits) [[0, 0, 0], [0, 0, 7], [5, 0, 0]] ∧
      edit (versions 3 0 edits) ⟨2, 3, 1⟩ = versions 3 0 edits ∧
      versions 3 0 [⟨0, 2, 7⟩] <+: versions 3 0 edits := by
  intro edits
  obtain ⟨-, hrefines, -, hoff, hprefix⟩ := versions_refine 3 0 edits
  exact ⟨hrefines, hoff ⟨2, 3, 1⟩ (by decide), hprefix [⟨0, 2, 7⟩] _ rfl⟩

end BalancedArray

end Submatch
