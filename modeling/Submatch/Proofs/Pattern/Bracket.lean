import Submatch.Pattern.Bracket
import Submatch.Proofs.Symbols.RangeSet

/-!
# The sets of classes

Whatever a class names, in a bracket or by a letter, it denotes a set in normal form: the ranges
ascend with gaps between them, and end within the input domain (`Shorthand.proper_ranges`,
`Bracket.proper_ranges`).
-/

namespace Submatch

/-- Ranges in normal form within the input domain. -/
structure RangeSet.Proper (rs : List SymbolRange) : Prop where
  separated : Separated rs
  inDomain : InDomain rs

theorem RangeSet.Proper.complement {rs : List SymbolRange} (h : Proper rs) :
    Proper (complement rs) := by
  obtain ⟨hsep, hdomain⟩ := h.separated.complement h.inDomain
  exact ⟨hsep, hdomain⟩

/-- A character lies in the input domain. -/
theorem Char.toNat_le_lastSymbol (c : Char) : c.toNat ≤ lastSymbol := by
  have hvalid := c.valid
  have hval : c.toNat = c.val.toNat := rfl
  unfold lastSymbol
  simp only [UInt32.isValidChar, Nat.isValidChar] at hvalid
  omega

theorem Shorthand.proper_ranges (s : Shorthand) : RangeSet.Proper s.ranges := by
  have hdigits : RangeSet.Proper digits := ⟨by decide, by decide⟩
  have hwords : RangeSet.Proper wordCharacters := ⟨by decide, by decide⟩
  have hblanks : RangeSet.Proper blanks := ⟨by decide, by decide⟩
  cases s with
  | digit => exact hdigits
  | nonDigit => exact hdigits.complement
  | word => exact hwords
  | nonWord => exact hwords.complement
  | space => exact hblanks
  | nonSpace => exact hblanks.complement

theorem BracketItem.inDomain_ranges (i : BracketItem) : RangeSet.InDomain i.ranges := by
  cases i with
  | char c => exact List.forall_mem_singleton.2 (Char.toNat_le_lastSymbol c)
  | span lo hi h => exact List.forall_mem_singleton.2 (Char.toNat_le_lastSymbol hi)
  | shorthand s => exact s.proper_ranges.inDomain

namespace Bracket

/-- The items may overlap and come in any order; their union does not show it. -/
theorem proper_union (b : Bracket) : RangeSet.Proper b.union := by
  refine ⟨RangeSet.separated_normalize _, RangeSet.InDomain.normalize fun r hr => ?_⟩
  obtain ⟨item, -, hmem⟩ := List.mem_flatMap.1 hr
  exact item.inDomain_ranges r hmem

theorem proper_ranges (b : Bracket) : RangeSet.Proper b.ranges := by
  unfold ranges
  split
  · exact b.proper_union.complement
  · exact b.proper_union

variable {b : Bracket} {position : Nat} {c : Char} {ranges : List SymbolRange}

theorem eq_ranges_of_readItem (h : b.readItem position c = .closed ranges) :
    ranges = b.ranges := by
  unfold readItem at h
  split at h
  · cases h
    rfl
  · split at h <;> cases h

theorem eq_ranges_of_readFirst (h : b.readFirst position c = .closed ranges) :
    ranges = b.ranges := by
  unfold readFirst at h
  split at h
  · cases h
  · exact eq_ranges_of_readItem h

theorem readUpper_ne_closed {start stop : Nat} {lo hi : Char} :
    b.readUpper start stop lo hi ≠ .ok (.closed ranges) := by
  unfold readUpper
  split <;> nofun

/-- The set that is denoted when a bracket closes is that of the items read. -/
theorem exists_ranges_of_closed (h : b.step position c = .ok (.closed ranges)) :
    ∃ b' : Bracket, ranges = b'.ranges := by
  unfold step at h
  split at h
  · split at h
    · cases h
    · exact ⟨b, eq_ranges_of_readFirst (Except.ok.inj h)⟩
  · exact ⟨b, eq_ranges_of_readFirst (Except.ok.inj h)⟩
  · exact ⟨b, eq_ranges_of_readItem (Except.ok.inj h)⟩
  · split at h <;> cases h
  · split at h
    · cases h
    · exact ⟨_, eq_ranges_of_readItem (Except.ok.inj h)⟩
  · split at h
    · cases h
      exact ⟨_, rfl⟩
    · split at h
      · cases h
      · exact absurd h readUpper_ne_closed
  · exact absurd h readUpper_ne_closed

end Bracket

end Submatch
