import Submatch.Symbols.RangeSet

/-!
# Normal form of lists of ranges

`RangeSet.normalize` keeps the symbols that are covered (`covers_normalize`), and leaves
gaps between the ranges (`separated_normalize`). Ranges within the input domain stay there
(`InDomain.normalize`), and a list that has the form already stays as it is
(`Separated.normalize_eq`). The complement of a list in this form has it as well
(`Separated.complement`), and contains the rest of the domain (`Separated.covers_complement`).
-/

namespace Submatch.RangeSet

variable {rs : List SymbolRange} {current : SymbolRange}

theorem covers_eq_true {rs : List SymbolRange} {x : Nat} :
    covers rs x = true ↔ ∃ r ∈ rs, r.contains x = true :=
  List.any_eq_true

/-- Two ranges that overlap or touch are joined without a change to what they contain. -/
theorem contains_extendTo {r : SymbolRange} (hlo : current.lo ≤ r.lo)
    (htouch : r.lo ≤ current.hi + 1) (x : Nat) :
    (current.extendTo r.hi).contains x = (current.contains x || r.contains x) := by
  have := r.lo_le_hi
  rw [Bool.eq_iff_iff, Bool.or_eq_true, SymbolRange.contains_iff, SymbolRange.contains_iff,
    SymbolRange.contains_iff]
  simp only [SymbolRange.extendTo]
  omega

theorem covers_joinFrom (h : (current :: rs).Pairwise fun r s => r.lo ≤ s.lo) (x : Nat) :
    covers (joinFrom current rs) x = (current.contains x || covers rs x) := by
  induction rs generalizing current with
  | nil => rfl
  | cons r rs ih =>
    obtain ⟨hcur, hrs⟩ := List.pairwise_cons.1 h
    unfold joinFrom
    split
    next htouch =>
      -- the range that is extended still starts first
      have hsub : ((current.extendTo r.hi) :: rs).Pairwise fun r s => r.lo ≤ s.lo :=
        List.pairwise_cons.2 ⟨fun s hs => hcur s (List.mem_cons_of_mem _ hs), hrs.of_cons⟩
      rw [ih hsub, contains_extendTo (hcur r List.mem_cons_self) htouch, covers_cons,
        Bool.or_assoc]
    next => rw [covers_cons, ih hrs, covers_cons]

theorem separated_joinFrom (h : (current :: rs).Pairwise fun r s => r.lo ≤ s.lo) :
    Separated (joinFrom current rs) ∧ ∀ s ∈ joinFrom current rs, current.lo ≤ s.lo := by
  induction rs generalizing current with
  | nil =>
    refine ⟨List.pairwise_singleton .., fun s hs => ?_⟩
    exact Nat.le_of_eq (congrArg _ (List.mem_singleton.1 hs).symm)
  | cons r rs ih =>
    obtain ⟨hcur, hrs⟩ := List.pairwise_cons.1 h
    have hle := hcur r List.mem_cons_self
    unfold joinFrom
    split
    next htouch =>
      exact ih (List.pairwise_cons.2
        ⟨fun s hs => hcur s (List.mem_cons_of_mem _ hs), hrs.of_cons⟩)
    next hapart =>
      obtain ⟨hsep, hlo⟩ := ih hrs
      refine ⟨List.pairwise_cons.2 ⟨fun s hs => ?_, hsep⟩, ?_⟩
      · have := hlo s hs
        omega
      · exact List.forall_mem_cons.2 ⟨Nat.le_refl _, fun s hs => Nat.le_trans hle (hlo s hs)⟩

theorem pairwise_lo_mergeSort (rs : List SymbolRange) :
    (rs.mergeSort SymbolRange.le).Pairwise fun r s => r.lo ≤ s.lo := by
  have hsorted := @List.pairwise_mergeSort _ SymbolRange.le (fun _ _ _ => SymbolRange.le_trans)
    SymbolRange.le_total rs
  refine hsorted.imp fun {r s} hle => ?_
  simp only [SymbolRange.le, Bool.or_eq_true, Bool.and_eq_true, decide_eq_true_eq,
    beq_iff_eq] at hle
  omega

theorem covers_mergeSort (rs : List SymbolRange) (x : Nat) :
    covers (rs.mergeSort SymbolRange.le) x = covers rs x :=
  (List.mergeSort_perm rs SymbolRange.le).any_eq

/-- Normalizing keeps the symbols that are covered. -/
@[simp] theorem covers_normalize (rs : List SymbolRange) (x : Nat) :
    covers (normalize rs) x = covers rs x := by
  have hsorted := pairwise_lo_mergeSort rs
  rw [← covers_mergeSort rs x]
  unfold normalize
  cases hs : rs.mergeSort SymbolRange.le with
  | nil => rfl
  | cons r rest => exact covers_joinFrom (hs ▸ hsorted) x

theorem separated_normalize (rs : List SymbolRange) : Separated (normalize rs) := by
  have hsorted := pairwise_lo_mergeSort rs
  unfold normalize
  cases hs : rs.mergeSort SymbolRange.le with
  | nil => exact .nil
  | cons r rest => exact (separated_joinFrom (hs ▸ hsorted)).1

theorem InDomain.joinFrom (hcurrent : current.hi ≤ lastSymbol) (h : InDomain rs) :
    InDomain (joinFrom current rs) := by
  induction rs generalizing current with
  | nil => exact List.forall_mem_singleton.2 hcurrent
  | cons r rs ih =>
    obtain ⟨hr, hrs⟩ := List.forall_mem_cons.1 h
    unfold RangeSet.joinFrom
    split
    · have hextended : (current.extendTo r.hi).hi ≤ lastSymbol := Nat.max_le.2 ⟨hcurrent, hr⟩
      exact ih hextended hrs
    · exact List.forall_mem_cons.2 ⟨hcurrent, ih hr hrs⟩

/-- Normalizing joins ranges and adds no bound. -/
theorem InDomain.normalize (h : InDomain rs) : InDomain (normalize rs) := by
  have hsorted : InDomain (rs.mergeSort SymbolRange.le) := by
    intro r hr
    exact h r ((List.mergeSort_perm rs SymbolRange.le).mem_iff.1 hr)
  unfold RangeSet.normalize
  cases hs : rs.mergeSort SymbolRange.le with
  | nil => exact nofun
  | cons r rest =>
    rw [hs] at hsorted
    obtain ⟨hr, hrest⟩ := List.forall_mem_cons.1 hsorted
    exact InDomain.joinFrom hr hrest

theorem Separated.joinFrom_eq (h : Separated (current :: rs)) :
    RangeSet.joinFrom current rs = current :: rs := by
  induction rs generalizing current with
  | nil => rfl
  | cons r rs ih =>
    obtain ⟨hcurrent, hrest⟩ := List.pairwise_cons.1 h
    have hapart := hcurrent r List.mem_cons_self
    unfold RangeSet.joinFrom
    rw [if_neg (by omega), ih hrest]

/-- There is nothing to sort or to join in a list that is in normal form. -/
theorem Separated.normalize_eq (h : Separated rs) : RangeSet.normalize rs = rs := by
  have hsorted : rs.Pairwise fun r s => r.le s = true := by
    refine h.imp fun {r s} hlt => ?_
    have hr := r.lo_le_hi
    simp only [SymbolRange.le, Bool.or_eq_true, decide_eq_true_eq]
    omega
  unfold RangeSet.normalize
  rw [List.mergeSort_of_pairwise hsorted]
  cases rs with
  | nil => rfl
  | cons r rest => exact h.joinFrom_eq

theorem gapsFrom_cons (next : Nat) (r : SymbolRange) (rs : List SymbolRange) :
    gapsFrom next (r :: rs) =
      (if h : next < r.lo then [⟨next, r.lo - 1, Nat.le_sub_one_of_lt h⟩] else []) ++
        if r.hi = lastSymbol then [] else gapsFrom (r.hi + 1) rs := by
  rw [gapsFrom]
  split
  · rw [List.append_nil]
  · rfl

/-- The gaps from a symbol on lie behind it, apart from each other and within the domain. -/
theorem Separated.gapsFrom (h : Separated rs) (hdomain : InDomain rs) {next : Nat}
    (hnext : ∀ r ∈ rs, next ≤ r.lo) :
    Separated (gapsFrom next rs) ∧
      ∀ gap ∈ gapsFrom next rs, next ≤ gap.lo ∧ gap.hi ≤ lastSymbol := by
  induction rs generalizing next with
  | nil =>
    unfold RangeSet.gapsFrom
    split
    · exact ⟨List.pairwise_singleton .., List.forall_mem_singleton.2 ⟨Nat.le_refl _, Nat.le_refl _⟩⟩
    · exact ⟨.nil, nofun⟩
  | cons r rs ih =>
    obtain ⟨happart, hrest⟩ := List.pairwise_cons.1 h
    obtain ⟨hhi, hdomain⟩ := List.forall_mem_cons.1 hdomain
    have hle := hnext r List.mem_cons_self
    have hr := r.lo_le_hi
    obtain ⟨hsep, hgaps⟩ := @ih hrest hdomain (r.hi + 1) fun s hs => Nat.le_of_lt (happart s hs)
    rw [gapsFrom_cons]
    -- a gap in front of the range, if there is one, and gaps behind it
    obtain ⟨rest, hlist, hrestsep, hrestgaps⟩ : ∃ rest,
        (if r.hi = lastSymbol then [] else RangeSet.gapsFrom (r.hi + 1) rs) = rest ∧
        Separated rest ∧ ∀ gap ∈ rest, r.hi + 1 ≤ gap.lo ∧ gap.hi ≤ lastSymbol := by
      split
      · exact ⟨[], rfl, .nil, nofun⟩
      · exact ⟨_, rfl, hsep, hgaps⟩
    rw [hlist]
    split
    next hlt =>
      refine ⟨List.pairwise_cons.2 ⟨fun gap hgap => ?_, hrestsep⟩, List.forall_mem_cons.2 ⟨?_, ?_⟩⟩
      · have := (hrestgaps gap hgap).1
        simp only
        omega
      · simp only
        omega
      · intro gap hgap
        obtain ⟨hlo, hhigh⟩ := hrestgaps gap hgap
        exact ⟨by omega, hhigh⟩
    next =>
      refine ⟨hrestsep, fun gap hgap => ?_⟩
      obtain ⟨hlo, hhigh⟩ := hrestgaps gap hgap
      exact ⟨by omega, hhigh⟩

theorem not_covers_of_lt {rs : List SymbolRange} {x : Nat} (h : ∀ r ∈ rs, x < r.lo) :
    covers rs x = false := by
  rw [Bool.eq_false_iff]
  intro hcovers
  obtain ⟨r, hr, hx⟩ := covers_eq_true.1 hcovers
  have hlo := (SymbolRange.contains_iff.1 hx).1
  have hlt := h r hr
  omega

/-- From a symbol on the gaps contain what the ranges do not. -/
theorem Separated.covers_gapsFrom (h : Separated rs) (hdomain : InDomain rs) {next x : Nat}
    (hnext : ∀ r ∈ rs, next ≤ r.lo) (hx : next ≤ x) (hlast : x ≤ lastSymbol) :
    covers (RangeSet.gapsFrom next rs) x = !covers rs x := by
  induction rs generalizing next with
  | nil =>
    have hle : next ≤ lastSymbol := Nat.le_trans hx hlast
    unfold RangeSet.gapsFrom
    rw [dif_pos hle, covers_cons, SymbolRange.contains, decide_eq_true hx, decide_eq_true hlast]
    rfl
  | cons r rs ih =>
    have hrest : Separated rs := h.of_cons
    have hapart := (List.pairwise_cons.1 h).1
    obtain ⟨hhi, hdomain⟩ := List.forall_mem_cons.1 hdomain
    have hr := r.lo_le_hi
    have hlater : ∀ s ∈ rs, r.hi + 1 ≤ s.lo := fun s hs => Nat.le_of_lt (hapart s hs)
    have hgap : covers (if h : next < r.lo then [⟨next, r.lo - 1, Nat.le_sub_one_of_lt h⟩] else [])
        x = decide (x < r.lo) := by
      split
      next hlt =>
        rw [covers_cons, covers_nil, Bool.or_false, Bool.eq_iff_iff, SymbolRange.contains_iff,
          decide_eq_true_iff]
        simp only
        omega
      next hge =>
        rw [covers_nil, eq_comm, decide_eq_false_iff_not]
        omega
    rw [gapsFrom_cons, covers_append, covers_cons, hgap]
    by_cases hin : x ≤ r.hi
    · -- the gaps and the ranges behind this range start later
      have hgaps : covers (if r.hi = lastSymbol then [] else RangeSet.gapsFrom (r.hi + 1) rs) x =
          false := by
        split
        · rfl
        · refine not_covers_of_lt fun gap hgap => ?_
          have hlo := ((hrest.gapsFrom hdomain hlater).2 gap hgap).1
          omega
      have hranges : covers rs x = false := by
        refine not_covers_of_lt fun s hs => ?_
        have hlo := hlater s hs
        omega
      rw [hgaps, hranges, Bool.or_false, Bool.or_false, SymbolRange.contains, decide_eq_true hin,
        Bool.and_true, ← decide_not, decide_eq_decide, Nat.not_le]
    · have hne : r.hi ≠ lastSymbol := by omega
      have hlt : r.hi + 1 ≤ x := by omega
      rw [if_neg hne, ih hrest hdomain hlater hlt, SymbolRange.contains, decide_eq_false hin,
        Bool.and_false, Bool.false_or, decide_eq_false (by omega), Bool.false_or]

/-- The complement of a list in normal form is one as well. -/
theorem Separated.complement (h : Separated rs) (hdomain : InDomain rs) :
    Separated (complement rs) ∧ InDomain (complement rs) := by
  obtain ⟨hsep, hgaps⟩ := h.gapsFrom hdomain fun r _ => Nat.zero_le r.lo
  exact ⟨hsep, fun gap hgap => (hgaps gap hgap).2⟩

/-- The complement contains the symbols of the domain that the ranges do not. -/
theorem Separated.covers_complement (h : Separated rs) (hdomain : InDomain rs) {x : Nat}
    (hx : x ≤ lastSymbol) : covers (RangeSet.complement rs) x = !covers rs x :=
  h.covers_gapsFrom hdomain (fun r _ => Nat.zero_le r.lo) (Nat.zero_le x) hx

end Submatch.RangeSet
