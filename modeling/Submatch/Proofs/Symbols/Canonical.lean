import Mathlib
import Submatch.Proofs.Symbols.RangeSet
import Submatch.Symbols.Width

/-!
# The normal form is canonical

A list of ranges that ascend with gaps between them is determined by the symbols that it
covers (`Separated.eq_of_covers`): the first range of two such lists starts at the first
symbol and ends in front of the first one that is missing, and the others cover what is left. So
`normalize` gives two lists the same form if and only if they denote the same set
(`normalize_canonical`). Adding the ranges one by one with bounds of limited width comes to the
same (`mergeAll_eq`).
-/

namespace Submatch.RangeSet

variable {rs ss : List SymbolRange} {r s current : SymbolRange} {x : Nat}

/-- Nothing is covered in front of the first range. -/
theorem Separated.lo_le (h : Separated (r :: rs)) (hx : covers (r :: rs) x = true) : r.lo ≤ x := by
  have hr := r.lo_le_hi
  obtain ⟨t, ht, hcontains⟩ := covers_eq_true.1 hx
  have hlo := (SymbolRange.contains_iff.1 hcontains).1
  rcases List.mem_cons.1 ht with rfl | ht
  · exact hlo
  · have hapart := (List.pairwise_cons.1 h).1 t ht
    omega

/-- Behind the first range a symbol is missing. -/
theorem Separated.not_covers_behind (h : Separated (r :: rs)) :
    covers (r :: rs) (r.hi + 1) = false := by
  have hrest : covers rs (r.hi + 1) = false := not_covers_of_lt (List.pairwise_cons.1 h).1
  have hout : r.contains (r.hi + 1) = false := by
    rw [Bool.eq_false_iff, Ne, SymbolRange.contains_iff]
    omega
  rw [covers_cons, hrest, hout, Bool.or_false]

theorem covers_lo (r : SymbolRange) (rs : List SymbolRange) : covers (r :: rs) r.lo = true := by
  rw [covers_cons, SymbolRange.contains_iff.2 ⟨Nat.le_refl _, r.lo_le_hi⟩, Bool.true_or]

/-- A list that covers what another one does starts no later, and if both start with one symbol,
its first range ends no earlier. -/
theorem Separated.bounds_le (hs : Separated (s :: ss))
    (hcovers : ∀ x, covers (r :: rs) x = true → covers (s :: ss) x = true) :
    s.lo ≤ r.lo ∧ (s.lo = r.lo → r.hi ≤ s.hi) := by
  refine ⟨hs.lo_le (hcovers _ (covers_lo r rs)), fun hlo => Nat.le_of_not_lt fun hlt => ?_⟩
  -- the symbol behind `s` would lie in `r`
  have hsrange := s.lo_le_hi
  have hinside : r.contains (s.hi + 1) = true := SymbolRange.contains_iff.2 ⟨by omega, hlt⟩
  have hboth := hcovers (s.hi + 1) (by rw [covers_cons, hinside, Bool.true_or])
  rw [hs.not_covers_behind] at hboth
  cases hboth

/-- Without its first range a list covers what lies behind that range. -/
theorem Separated.covers_tail (h : Separated (r :: rs)) (x : Nat) :
    covers rs x = (decide (r.hi < x) && covers (r :: rs) x) := by
  by_cases hx : r.hi < x
  · rw [decide_eq_true hx, Bool.true_and, covers_cons, SymbolRange.contains,
      decide_eq_false (Nat.not_le.2 hx), Bool.and_false, Bool.false_or]
  · rw [decide_eq_false hx, Bool.false_and]
    refine not_covers_of_lt fun t ht => ?_
    have hapart := (List.pairwise_cons.1 h).1 t ht
    omega

/-- **Lists in normal form that cover the same symbols are the same list.** -/
theorem Separated.eq_of_covers (hr : Separated rs) (hs : Separated ss)
    (h : ∀ x, covers rs x = covers ss x) : rs = ss := by
  induction rs generalizing ss with
  | nil =>
    cases ss with
    | nil => rfl
    | cons s ss =>
      have hs := h s.lo
      rw [covers_lo, covers_nil] at hs
      cases hs
  | cons r rs ih =>
    cases ss with
    | nil =>
      have hr := h r.lo
      rw [covers_lo, covers_nil] at hr
      cases hr
    | cons s ss =>
      obtain ⟨hslo, hrhi⟩ := hs.bounds_le fun x hx => h x ▸ hx
      obtain ⟨hrlo, hshi⟩ := hr.bounds_le fun x hx => (h x).symm ▸ hx
      have hlo : r.lo = s.lo := Nat.le_antisymm hrlo hslo
      have hhi : r.hi = s.hi := Nat.le_antisymm (hrhi hlo.symm) (hshi hlo)
      have htail : rs = ss := by
        refine ih hr.of_cons hs.of_cons fun x => ?_
        rw [hr.covers_tail, hs.covers_tail, h x, hhi]
      obtain ⟨rlo, rhi, _⟩ := r
      obtain ⟨slo, shi, _⟩ := s
      cases hlo
      cases hhi
      rw [htail]

/-- Two lists have one normal form if and only if they cover the same symbols. -/
theorem normalize_eq_iff : normalize rs = normalize ss ↔ ∀ x, covers rs x = covers ss x := by
  constructor
  · intro h x
    rw [← covers_normalize rs, h, covers_normalize]
  · intro h
    refine (separated_normalize rs).eq_of_covers (separated_normalize ss) fun x => ?_
    rw [covers_normalize, covers_normalize, h]

/-- The order of the ranges does not matter to the symbols that they cover. -/
theorem covers_perm (h : rs.Perm ss) (x : Nat) : covers rs x = covers ss x := h.any_eq

/-- Where bounds can be stored, the bound behind the largest one need not be. -/
theorem le_min_lastBound (h : r.hi ≤ lastBound) (x : Nat) :
    r.lo ≤ min x lastBound ↔ r.lo ≤ x := by
  have hr := r.lo_le_hi
  omega

theorem reverse_foldl_absorb (before : List SymbolRange) (h : InWidth rs) :
    (rs.foldl absorb (current :: before)).reverse = before.reverse ++ joinFrom current rs := by
  induction rs generalizing current before with
  | nil => rw [List.foldl_nil, List.reverse_cons, joinFrom]
  | cons r rs ih =>
    obtain ⟨hr, hrest⟩ := List.forall_mem_cons.1 h
    simp only [List.foldl_cons, absorb, joinFrom, le_min_lastBound hr]
    split
    · exact ih before hrest
    · rw [ih (current :: before) hrest, List.reverse_cons, List.append_assoc, List.singleton_append]

/-- Merging the ranges one by one gives the normal form. -/
theorem mergeAll_eq (h : InWidth rs) : mergeAll rs = normalize rs := by
  have hsorted : InWidth (rs.mergeSort SymbolRange.le) := fun r hr =>
    h r ((List.mergeSort_perm rs SymbolRange.le).mem_iff.1 hr)
  unfold mergeAll normalize
  cases hs : rs.mergeSort SymbolRange.le with
  | nil => rfl
  | cons r rest =>
    rw [hs] at hsorted
    exact reverse_foldl_absorb [] (List.forall_mem_cons.1 hsorted).2

/-- **The normal form of a set of symbols.** Take ranges whose bounds can be stored, in any order
and however they overlap. Merging them one by one gives their normal form: ranges that ascend
with a symbol missing between any two, and cover what the ranges of the list do. Another list
has the same form if and only if it covers the same symbols. So a normal form is its own one, and
the order of the ranges does not matter. -/
theorem normalize_canonical (h : InWidth rs) :
    mergeAll rs = normalize rs ∧ Separated (normalize rs) ∧
      (∀ x, covers (normalize rs) x = covers rs x) ∧
      (∀ ss, normalize rs = normalize ss ↔ ∀ x, covers rs x = covers ss x) ∧
      normalize (normalize rs) = normalize rs ∧
      ∀ ss, rs.Perm ss → normalize rs = normalize ss :=
  ⟨mergeAll_eq h, separated_normalize rs, covers_normalize rs, fun _ => normalize_eq_iff,
    (separated_normalize rs).normalize_eq, fun _ hperm => normalize_eq_iff.2 (covers_perm hperm)⟩

/-- Ranges that overlap, touch and lie in one another, up to the largest bound. -/
theorem normalize_canonical_largest_bound :
    let rs : List SymbolRange := [⟨0xfffffff0, 0xffffffff, by decide⟩, ⟨10, 12, by decide⟩,
      ⟨0xffffffff, 0xffffffff, by decide⟩, ⟨3, 9, by decide⟩, ⟨4, 6, by decide⟩]
    InWidth rs ∧ mergeAll rs = [⟨3, 12, by decide⟩, ⟨0xfffffff0, 0xffffffff, by decide⟩] ∧
      mergeAll rs = normalize rs.reverse := by
  intro rs
  have hwidth : InWidth rs := by decide
  obtain ⟨hmerge, -, -, -, -, hperm⟩ := normalize_canonical hwidth
  have hresult : normalize rs = [⟨3, 12, by decide⟩, ⟨0xfffffff0, 0xffffffff, by decide⟩] := by cbv
  exact ⟨hwidth, hmerge.trans hresult, hmerge.trans (hperm _ rs.reverse_perm.symm)⟩

end Submatch.RangeSet
