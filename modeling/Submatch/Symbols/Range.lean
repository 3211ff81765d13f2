import Submatch.Fault
import Submatch.Text.Quoted

/-!
# Ranges of symbols

A symbol is a code point. `SymbolRange` is an inclusive range of symbols whose bounds
ascend, by a field of the type; `SymbolRange.ofBounds` is the checked way to make one.
-/

namespace Submatch

/-- The last symbol of the input domain, which starts at zero. -/
def lastSymbol : Nat := 0x10ffff

/-- The symbols from `lo` to `hi`, both included. -/
structure SymbolRange where
  /-- The first symbol of the range. -/
  lo : Nat
  /-- The last symbol of the range. -/
  hi : Nat
  /-- The bounds ascend. -/
  lo_le_hi : lo ≤ hi
  deriving DecidableEq

namespace SymbolRange

/-- The range between two bounds, which must ascend. -/
def ofBounds (lo hi : Nat) : Except Fault SymbolRange :=
  if h : lo ≤ hi then .ok ⟨lo, hi, h⟩ else .error (.descendingRange lo hi)

/-- The range of a single symbol. -/
def single (symbol : Nat) : SymbolRange := ⟨symbol, symbol, Nat.le_refl _⟩

/-- The range of a single character. -/
def ofChar (c : Char) : SymbolRange := single c.toNat

/-- The whole input domain. -/
def full : SymbolRange := ⟨0, lastSymbol, Nat.zero_le _⟩

/-- Whether a symbol lies in the range. -/
def contains (r : SymbolRange) (symbol : Nat) : Bool := r.lo ≤ symbol && symbol ≤ r.hi

/-- The range with its upper bound raised to `hi`, unless it is that high already. -/
def extendTo (r : SymbolRange) (hi : Nat) : SymbolRange :=
  ⟨r.lo, max r.hi hi, Nat.le_trans r.lo_le_hi (Nat.le_max_left ..)⟩

/-- Ranges are ordered by their lower bound, then by their upper one. -/
def le (r s : SymbolRange) : Bool := r.lo < s.lo || (r.lo == s.lo && r.hi ≤ s.hi)

/-- The text of a range shows both bounds between brackets. -/
def text (r : SymbolRange) : String :=
  "[" ++ Text.symbol r.lo ++ "," ++ Text.symbol r.hi ++ "]"

@[simp] theorem contains_iff {r : SymbolRange} {symbol : Nat} :
    r.contains symbol = true ↔ r.lo ≤ symbol ∧ symbol ≤ r.hi := by
  simp [contains]

theorem ofBounds_eq_ok {lo hi : Nat} (h : lo ≤ hi) : ofBounds lo hi = .ok ⟨lo, hi, h⟩ := by
  simp [ofBounds, h]

theorem le_trans {r s t : SymbolRange} (h₁ : r.le s = true) (h₂ : s.le t = true) :
    r.le t = true := by
  simp only [le, Bool.or_eq_true, Bool.and_eq_true, decide_eq_true_eq, beq_iff_eq] at *
  omega

theorem le_total (r s : SymbolRange) : (r.le s || s.le r) = true := by
  simp only [le, Bool.or_eq_true, Bool.and_eq_true, decide_eq_true_eq, beq_iff_eq]
  omega

end SymbolRange

end Submatch
