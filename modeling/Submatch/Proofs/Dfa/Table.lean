import Submatch.Dfa.Table
import Submatch.Proofs.Order.Repeats

/-!
# Lookups in a transition table

Bisection finds in a sorted array exactly its entries (`lookupPacked_eq_some`). Packing a table
moves every transition into the array (`mem_packed_pack`). So it answers the same before and after
it is packed (`lookup_pack`), and adding a transition changes the answer for its key alone
(`lookup_insert`).
-/

namespace Submatch

theorem StepKey.le_antisymm {a b : StepKey} (h₁ : a.le b = true) (h₂ : b.le a = true) :
    a = b := by
  obtain ⟨s, x⟩ := a
  obtain ⟨t, y⟩ := b
  simp only [StepKey.le, Bool.or_eq_true, Bool.and_eq_true, decide_eq_true_eq, beq_iff_eq] at *
  obtain rfl : s = t := by omega
  have hx : x.le y = true := by
    rcases h₁ with h | h
    · exact absurd h (Nat.lt_irrefl s)
    · exact h.2
  have hy : y.le x = true := by
    rcases h₂ with h | h
    · exact absurd h (Nat.lt_irrefl s)
    · exact h.2
  rw [InputSymbol.le_antisymm hx hy]

namespace TransitionTable

variable {τ : Type} {t : TransitionTable τ} {key : StepKey}

/-- The entries ascend by their keys, which are all different. -/
def Sorted (entries : List (StepKey × τ)) : Prop :=
  entries.Pairwise fun a b => a.1.le b.1 = true ∧ a.1 ≠ b.1

/-- A table that answers for no key twice. -/
structure Valid (t : TransitionTable τ) : Prop where
  sorted : Sorted t.packed.toList
  apart : ∀ entry ∈ t.packed.toList, entry.1 ∉ t.recent

theorem valid_empty : (empty : TransitionTable τ).Valid :=
  ⟨.nil, nofun⟩

theorem partitioned_key {entries : List (StepKey × τ)} (h : Sorted entries) (key : StepKey) :
    Order.Partitioned entries.toArray fun entry => !key.le entry.1 := by
  refine Order.partitioned_of_pairwise h fun x y hxy hy => ?_
  rw [Bool.not_eq_true'] at hy ⊢
  refine Bool.eq_false_iff.2 fun hkey => ?_
  rw [StepKey.le_trans hkey hxy.1] at hy
  cases hy

/-- The entries in front of the one for a key have smaller keys. -/
theorem partitionPoint_key {entries : List (StepKey × τ)} (h : Sorted entries) {v : τ} {j : Nat}
    (hj : entries[j]? = some (key, v)) :
    Order.partitionPoint entries.toArray (fun entry => !key.le entry.1) = j := by
  refine Order.partitionPoint_eq (partitioned_key h key) ((List.getElem?_toArray ..).trans hj) ?_ ?_
  · have hself : key.le key = true := by simpa using StepKey.le_total key key
    rw [hself]
    rfl
  · intro i y hij hy
    rw [List.getElem?_toArray] at hy
    obtain ⟨hi, rfl⟩ := List.getElem?_eq_some_iff.1 hy
    obtain ⟨hlt, hget⟩ := List.getElem?_eq_some_iff.1 hj
    obtain ⟨hle, hne⟩ := List.pairwise_iff_getElem.1 h i j hi hlt hij
    rw [hget] at hle hne
    rw [Bool.not_eq_true']
    exact Bool.eq_false_iff.2 fun hkey => hne (StepKey.le_antisymm hle hkey)

/-- Bisection finds exactly the entries of a sorted list. -/
theorem lookupPacked_eq_some {entries : List (StepKey × τ)} (h : Sorted entries)
    {key : StepKey} {v : τ} :
    lookupPacked entries.toArray key = some v ↔ (key, v) ∈ entries := by
  unfold lookupPacked
  rw [List.getElem?_toArray]
  constructor
  · intro hlook
    split at hlook
    next entry hentry =>
      split at hlook
      next heq =>
        cases hlook
        subst heq
        exact List.mem_of_getElem? hentry
      next => cases hlook
    next => cases hlook
  · intro hmem
    obtain ⟨j, hj⟩ := List.getElem?_of_mem hmem
    rw [partitionPoint_key h hj, hj]
    exact if_pos rfl

/-- A valid table answers with its entries, packed or not. -/
theorem lookup_eq_some (h : t.Valid) {v : τ} :
    t.lookup key = some v ↔ (key, v) ∈ t.packed.toList ∨ t.recent[key]? = some v := by
  have hpacked := @lookupPacked_eq_some _ _ h.sorted key v
  rw [Array.toArray_toList] at hpacked
  unfold lookup
  cases hlook : lookupPacked t.packed key with
  | none =>
    rw [hlook] at hpacked
    have hnot : (key, v) ∉ t.packed.toList := fun hmem => nomatch hpacked.2 hmem
    rw [or_iff_right hnot]
  | some w =>
    have hw : (key, w) ∈ t.packed.toList :=
      (lookupPacked_eq_some h.sorted).1 (by rw [Array.toArray_toList, hlook])
    have hrecent : t.recent[key]? = none :=
      Std.HashMap.getElem?_eq_none (h.apart _ hw)
    rw [← hpacked, hlook, hrecent]
    simp

theorem lookup_empty (key : StepKey) : (empty : TransitionTable τ).lookup key = none := by
  cases h : (empty : TransitionTable τ).lookup key with
  | none => rfl
  | some v =>
    rcases (lookup_eq_some valid_empty).1 h with hmem | hrecent
    · cases hmem
    · exact nomatch (Std.HashMap.getElem?_empty (α := StepKey) (β := τ)).symm.trans hrecent

theorem lookup_eq_none :
    t.lookup key = none ↔ lookupPacked t.packed key = none ∧ t.recent[key]? = none := by
  unfold lookup
  cases lookupPacked t.packed key <;> simp

theorem lookup_insert (hnew : t.lookup key = none) (v : τ) (k : StepKey) :
    (t.insert key v).lookup k = if k = key then some v else t.lookup k := by
  obtain ⟨hpacked, -⟩ := lookup_eq_none.1 hnew
  unfold insert lookup
  simp only [Std.HashMap.getElem?_insert]
  by_cases hk : k = key
  · subst hk
    rw [hpacked, if_pos rfl]
    simp
  · rw [if_neg hk]
    have hne : (key == k) = false := by simpa using Ne.symm hk
    simp [hne]

theorem Valid.insert (h : t.Valid) (hnew : t.lookup key = none) (v : τ) :
    (t.insert key v).Valid := by
  refine ⟨h.sorted, fun entry hentry hmem => ?_⟩
  rcases Std.HashMap.mem_insert.1 hmem with heq | hmem
  · -- a key that is packed would have had an answer before
    rw [beq_iff_eq] at heq
    have hsome : t.lookup key = some entry.2 := (lookup_eq_some h).2 (.inl (heq ▸ hentry))
    rw [hnew] at hsome
    cases hsome
  · exact h.apart entry hentry hmem

/-- Entries with different keys are only put in order. -/
theorem sorted_mergeSort {entries : List (StepKey × τ)}
    (h : entries.Pairwise fun a b => a.1 ≠ b.1) :
    Sorted ((entries.mergeSort fun a b => a.1.le b.1).eraseRepsBy fun a b => a.1 == b.1) ∧
      ((entries.mergeSort fun a b => a.1.le b.1).eraseRepsBy fun a b => a.1 == b.1).Perm
        entries := by
  have hsorted := @List.pairwise_mergeSort _ (fun a b : StepKey × τ => a.1.le b.1)
    (fun _ _ _ => StepKey.le_trans) (fun a b => StepKey.le_total a.1 b.1) entries
  have hperm := List.mergeSort_perm entries fun a b => a.1.le b.1
  have hne : (entries.mergeSort fun a b => a.1.le b.1).Pairwise fun a b => a.1 ≠ b.1 :=
    hperm.symm.pairwise h fun hab => hab.symm
  have hkeep := Order.eraseRepsBy_of_pairwise (hne.imp fun hab => beq_eq_false_iff_ne.2 hab)
  rw [hkeep]
  exact ⟨hsorted.and hne, hperm⟩

theorem Valid.pairwise_entries (h : t.Valid) :
    (t.packed.toList ++ t.recent.toList).Pairwise fun a b => a.1 ≠ b.1 := by
  refine List.pairwise_append.2 ⟨h.sorted.imp And.right, ?_, fun a ha b hb => ?_⟩
  · exact Std.HashMap.distinct_keys_toList.imp fun hab => beq_eq_false_iff_ne.1 hab
  · rw [Std.HashMap.mem_toList_iff_getElem?_eq_some] at hb
    intro heq
    have := h.apart a ha
    rw [heq, Std.HashMap.mem_iff_isSome_getElem?, hb] at this
    exact this rfl

/-- What a packed table consists of. -/
theorem Valid.packed (h : t.Valid) :
    Sorted t.pack.packed.toList ∧ (∀ k : StepKey, t.pack.recent[k]? = none) ∧
      ∀ entry, entry ∈ t.pack.packed.toList ↔
        entry ∈ t.packed.toList ∨ t.recent[entry.1]? = some entry.2 := by
  unfold TransitionTable.pack
  split
  next hempty =>
    have hnone : ∀ k : StepKey, t.recent[k]? = none := fun k =>
      Std.HashMap.getElem?_of_isEmpty hempty
    refine ⟨h.sorted, hnone, fun entry => ?_⟩
    rw [hnone, or_iff_left nofun]
  next =>
    obtain ⟨hsorted, hperm⟩ := sorted_mergeSort h.pairwise_entries
    refine ⟨hsorted, fun k => Std.HashMap.getElem?_empty, fun entry => ?_⟩
    rw [hperm.mem_iff, List.mem_append, Std.HashMap.mem_toList_iff_getElem?_eq_some]

theorem Valid.pack (h : t.Valid) : t.pack.Valid := by
  obtain ⟨hsorted, hnone, -⟩ := h.packed
  refine ⟨hsorted, fun entry _ hmem => ?_⟩
  rw [Std.HashMap.mem_iff_isSome_getElem?, hnone] at hmem
  cases hmem

/-- What a table finds is in the array once it is packed. -/
theorem mem_packed_pack (h : t.Valid) {v : τ} :
    (key, v) ∈ t.pack.packed.toList ↔ t.lookup key = some v := by
  obtain ⟨-, -, hmem⟩ := h.packed
  rw [hmem, lookup_eq_some h]

/-- **Packing changes no answer.** -/
theorem lookup_pack (h : t.Valid) (key : StepKey) : t.pack.lookup key = t.lookup key := by
  obtain ⟨-, hnone, -⟩ := h.packed
  refine Option.ext fun v => ?_
  rw [lookup_eq_some h.pack, mem_packed_pack h, hnone, or_iff_left nofun]

/-- Packing loses no transition. -/
theorem size_pack (h : t.Valid) : t.pack.size = t.size := by
  unfold TransitionTable.pack
  split
  · rfl
  · obtain ⟨-, hperm⟩ := sorted_mergeSort h.pairwise_entries
    have hlength := hperm.length_eq
    rw [List.length_append, Array.length_toList, Std.HashMap.length_toList] at hlength
    exact hlength

/-- A new key makes the table grow by one. -/
theorem size_insert (hnew : t.lookup key = none) (v : τ) :
    (t.insert key v).size = t.size + 1 := by
  have hnot : key ∉ t.recent := by
    rw [Std.HashMap.mem_iff_isSome_getElem?, (lookup_eq_none.1 hnew).2]
    exact Bool.false_ne_true
  unfold insert size
  rw [Std.HashMap.size_insert, if_neg hnot, Nat.add_assoc]

end TransitionTable

end Submatch
