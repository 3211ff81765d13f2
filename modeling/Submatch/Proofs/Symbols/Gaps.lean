import Submatch.Proofs.Symbols.Canonical

/-!
# Gaps with bounds of limited width

Within the input domain no bound that is computed for a gap leaves its width and no gap
descends, so collecting the gaps one by one gives the complement (`collectGaps_eq_ok`). The
complement of a list in normal form has that form too, and its own complement covers the symbols
of the list. So that is the list itself (`Separated.complement_complement`); `complement_exact`
puts both together.
-/

namespace Submatch.RangeSet

variable {rs : List SymbolRange} {x : Nat}

/-- In front of a range that starts behind `next` there is room for a gap. -/
theorem gapBefore_eq_ok (next : Nat) (r : SymbolRange) :
    gapBefore next r =
      .ok (if h : next < r.lo then [⟨next, r.lo - 1, Nat.le_sub_one_of_lt h⟩] else []) := by
  unfold gapBefore
  by_cases h : next < r.lo
  · have hbound : boundBefore r.lo = .ok (r.lo - 1) := if_neg (Nat.ne_zero_of_lt h)
    rw [if_pos h, dif_pos h, hbound]
    simp only [bind, Except.bind, pure, Except.pure,
      SymbolRange.ofBounds_eq_ok (Nat.le_sub_one_of_lt h)]
  · rw [if_neg h, dif_neg h]
    rfl

/-- Within the domain, a symbol follows every range that does not end with it. -/
theorem boundAfter_eq_ok {bound : Nat} (h : bound < lastSymbol) :
    boundAfter bound = .ok (bound + 1) := by
  have hwidth : lastSymbol < lastBound := by decide
  exact if_pos (by omega)

theorem collectGapsFrom_eq_ok (h : InDomain rs) {next : Nat} (hnext : next ≤ lastSymbol) :
    collectGapsFrom next rs = .ok (gapsFrom next rs) := by
  induction rs generalizing next with
  | nil =>
    rw [collectGapsFrom, SymbolRange.ofBounds_eq_ok hnext, gapsFrom, dif_pos hnext]
    rfl
  | cons r rs ih =>
    obtain ⟨hhi, hrest⟩ := List.forall_mem_cons.1 h
    rw [collectGapsFrom, gapBefore_eq_ok, gapsFrom_cons]
    by_cases hlast : r.hi = lastSymbol
    · simp only [bind, Except.bind, pure, Except.pure, if_pos hlast, List.append_nil]
    · have hlt : r.hi < lastSymbol := Nat.lt_of_le_of_ne hhi hlast
      simp only [bind, Except.bind, pure, Except.pure, if_neg hlast, boundAfter_eq_ok hlt,
        ih hrest (Nat.succ_le_of_lt hlt)]

/-- Collecting the gaps of ranges within the domain does not fail, and gives the complement. -/
theorem collectGaps_eq_ok (h : InDomain rs) : collectGaps rs = .ok (complement rs) :=
  collectGapsFrom_eq_ok h (Nat.zero_le _)

theorem InDomain.not_covers (h : InDomain rs) (hx : lastSymbol < x) : covers rs x = false := by
  rw [Bool.eq_false_iff]
  intro hcovers
  obtain ⟨r, hr, hcontains⟩ := covers_eq_true.1 hcovers
  have hhi := h r hr
  have hle := (SymbolRange.contains_iff.1 hcontains).2
  omega

/-- **The complement of the complement is the list itself.** -/
theorem Separated.complement_complement (h : Separated rs) (hdomain : InDomain rs) :
    RangeSet.complement (RangeSet.complement rs) = rs := by
  obtain ⟨hgaps, hgapsDomain⟩ := h.complement hdomain
  obtain ⟨htwice, htwiceDomain⟩ := hgaps.complement hgapsDomain
  refine htwice.eq_of_covers h fun x => ?_
  by_cases hx : x ≤ lastSymbol
  · rw [hgaps.covers_complement hgapsDomain hx, h.covers_complement hdomain hx, Bool.not_not]
  · rw [htwiceDomain.not_covers (Nat.lt_of_not_le hx), hdomain.not_covers (Nat.lt_of_not_le hx)]

/-- **The complement within the domain.** Let a list be in normal form and within the domain.
Collecting its gaps one by one does not fail: no bound leaves its width and no gap descends. What
is collected is the complement. It is in normal form and within the domain as well, it covers the
symbols of the domain that the list does not, and its own gaps are the ranges of the list. -/
theorem complement_exact (h : Separated rs) (hdomain : InDomain rs) :
    collectGaps rs = .ok (complement rs) ∧ complement? rs = .ok (complement rs) ∧
      Separated (complement rs) ∧ InDomain (complement rs) ∧
      (∀ x ≤ lastSymbol, covers (complement rs) x = true ↔ ¬covers rs x = true) ∧
      complement (complement rs) = rs ∧ collectGaps (complement rs) = .ok rs := by
  obtain ⟨hgaps, hgapsDomain⟩ := h.complement hdomain
  have htwice := h.complement_complement hdomain
  refine ⟨collectGaps_eq_ok hdomain, complement?_eq_ok hdomain, hgaps, hgapsDomain, fun x hx => ?_,
    htwice, ?_⟩
  · rw [h.covers_complement hdomain hx, Bool.not_eq_true', Bool.eq_false_iff]
  · rw [collectGaps_eq_ok hgapsDomain, htwice]

/-- Ranges at both ends of the domain, with a gap of one symbol. -/
theorem complement_exact_both_ends :
    let rs : List SymbolRange := [⟨0, 9, by decide⟩, ⟨11, 11, by decide⟩,
      ⟨0x10fff0, 0x10ffff, by decide⟩]
    let gaps : List SymbolRange := [⟨10, 10, by decide⟩, ⟨12, 0x10ffef, by decide⟩]
    Separated rs ∧ InDomain rs ∧ collectGaps rs = .ok gaps ∧ collectGaps gaps = .ok rs := by
  intro rs gaps
  have hsep : Separated rs := by decide
  have hdomain : InDomain rs := by decide
  obtain ⟨hcollect, -, -, -, -, -, hback⟩ := complement_exact hsep hdomain
  have hgaps : complement rs = gaps := by decide
  rw [hgaps] at hcollect hback
  exact ⟨hsep, hdomain, hcollect, hback⟩

end Submatch.RangeSet
