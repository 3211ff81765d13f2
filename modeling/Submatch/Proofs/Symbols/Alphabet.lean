import Submatch.Proofs.Order.Repeats
import Submatch.Proofs.Symbols.RangeSet
import Submatch.Symbols.Alphabet

/-!
# The classes of an alphabet

No range of a list tells the symbols of a class of `Alphabet.ofRanges` apart
(`contains_eq_of_classify`), and a symbol that lies in no class lies in no range
(`covers_eq_false_of_classify`).
-/

namespace Submatch.Alphabet

/-- The classes ascend and do not overlap. -/
def Ascending (classes : List SymbolRange) : Prop := classes.Pairwise fun r s => r.hi < s.lo

variable {classes : List SymbolRange} {rs : List SymbolRange} {c i : Nat}

theorem partitioned_hi (h : Ascending classes) (c : Nat) :
    Order.Partitioned classes.toArray fun r => decide (r.hi < c) := by
  refine Order.partitioned_of_pairwise h fun x y hxy hy => ?_
  have := y.lo_le_hi
  rw [decide_eq_true_eq] at hy ⊢
  omega

/-- A symbol is classified by a class that contains it. -/
theorem classify_eq_some (h : classify ⟨classes.toArray⟩ c = some i) :
    ∃ r, classes[i]? = some r ∧ r.contains c = true := by
  unfold classify at h
  simp only [List.getElem?_toArray] at h
  split at h
  next r hr =>
    split at h
    next hc =>
      cases h
      exact ⟨r, hr, hc⟩
    next => cases h
  next => cases h

/-- The classes in front of the one that contains a symbol end before the symbol. -/
theorem partitionPoint_hi (h : Ascending classes) {r : SymbolRange} {j : Nat}
    (hj : classes[j]? = some r) (hc : r.contains c = true) :
    Order.partitionPoint classes.toArray (fun r => decide (r.hi < c)) = j := by
  rw [SymbolRange.contains_iff] at hc
  refine Order.partitionPoint_eq (partitioned_hi h c) ((List.getElem?_toArray ..).trans hj) ?_ ?_
  · rw [decide_eq_false_iff_not]
    omega
  · intro i s hij hs
    rw [List.getElem?_toArray] at hs
    obtain ⟨hi, rfl⟩ := List.getElem?_eq_some_iff.1 hs
    obtain ⟨hj', rfl⟩ := List.getElem?_eq_some_iff.1 hj
    have hbelow := List.pairwise_iff_getElem.1 h i j hi hj' hij
    rw [decide_eq_true_eq]
    omega

/-- A symbol that some class contains is classified. -/
theorem isSome_classify (h : Ascending classes) {r : SymbolRange} (hr : r ∈ classes)
    (hc : r.contains c = true) : (classify ⟨classes.toArray⟩ c).isSome = true := by
  obtain ⟨j, hj⟩ := List.getElem?_of_mem hr
  unfold classify
  simp only [partitionPoint_hi h hj hc, List.getElem?_toArray, hj, hc]
  rfl

theorem isSome_classify_iff (h : Ascending classes) :
    (classify ⟨classes.toArray⟩ c).isSome = true ↔ RangeSet.covers classes c = true := by
  rw [RangeSet.covers_eq_true]
  constructor
  · intro hsome
    obtain ⟨i, hi⟩ := Option.isSome_iff_exists.1 hsome
    obtain ⟨r, hr, hc⟩ := classify_eq_some hi
    exact ⟨r, List.mem_of_getElem? hr, hc⟩
  · rintro ⟨r, hr, hc⟩
    exact isSome_classify h hr hc

theorem mem_cuts {x : Nat} : x ∈ cuts rs ↔ ∃ r ∈ rs, x = r.lo ∨ x = r.hi + 1 := by
  unfold cuts
  rw [Order.mem_eraseReps, (List.mergeSort_perm ..).mem_iff, List.mem_flatMap]
  simp

theorem pairwise_cuts (rs : List SymbolRange) : (cuts rs).Pairwise (· < ·) := by
  refine Order.pairwise_eraseReps ?_
  have h := @List.pairwise_mergeSort _ (fun a b : Nat => decide (a ≤ b)) (by simp; omega)
    (by simp; omega) (rs.flatMap fun r => [r.lo, r.hi + 1])
  exact h.imp of_decide_eq_true

/-- Two neighbours in an ascending list, with the first at most `c` and the second above it. -/
theorem exists_neighbours {l : List Nat} (h : l.Pairwise (· < ·)) {a b : Nat} (ha : a ∈ l)
    (hac : a ≤ c) (hb : b ∈ l) (hcb : c < b) :
    ∃ lo stop, (lo, stop) ∈ l.zip l.tail ∧ lo ≤ c ∧ c < stop := by
  induction l generalizing a with
  | nil => cases ha
  | cons x l ih =>
    obtain ⟨hx, hl⟩ := List.pairwise_cons.1 h
    cases l with
    | nil =>
      rw [List.mem_singleton] at ha hb
      omega
    | cons y l =>
      rw [List.tail_cons, List.zip_cons_cons]
      by_cases hyc : y ≤ c
      · -- the neighbours lie further on
        have hb' : b ∈ y :: l := by
          rcases List.mem_cons.1 hb with rfl | hb
          · have := hx y List.mem_cons_self
            omega
          · exact hb
        obtain ⟨lo, stop, hmem, hle, hlt⟩ := ih hl List.mem_cons_self hyc hb'
        exact ⟨lo, stop, List.mem_cons_of_mem _ hmem, hle, hlt⟩
      · refine ⟨x, y, List.mem_cons_self, ?_, by omega⟩
        rcases List.mem_cons.1 ha with rfl | ha
        · exact hac
        · have := hx a ha
          omega

/-- Nothing of an ascending list lies between two neighbours. -/
theorem not_between {l : List Nat} (h : l.Pairwise (· < ·)) {lo stop : Nat}
    (hp : (lo, stop) ∈ l.zip l.tail) : lo < stop ∧ ∀ x ∈ l, x ≤ lo ∨ stop ≤ x := by
  induction l with
  | nil => cases hp
  | cons a l ih =>
    obtain ⟨ha, hl⟩ := List.pairwise_cons.1 h
    cases l with
    | nil => cases hp
    | cons b l =>
      have hb := (List.pairwise_cons.1 hl).1
      rw [List.tail_cons, List.zip_cons_cons] at hp
      rcases List.mem_cons.1 hp with heq | hp
      · cases heq
        refine ⟨ha stop List.mem_cons_self, List.forall_mem_cons.2 ⟨.inl (Nat.le_refl lo), ?_⟩⟩
        exact List.forall_mem_cons.2
          ⟨.inr (Nat.le_refl stop), fun x hx => .inr (Nat.le_of_lt (hb x hx))⟩
      · obtain ⟨hlt, hout⟩ := ih hl hp
        have hlo : lo ∈ b :: l := (List.of_mem_zip hp).1
        exact ⟨hlt, List.forall_mem_cons.2 ⟨.inl (Nat.le_of_lt (ha lo hlo)), hout⟩⟩

theorem pairwise_zip_tail {l : List Nat} (h : l.Pairwise (· < ·)) :
    (l.zip l.tail).Pairwise fun p q => p.2 ≤ q.1 := by
  induction l with
  | nil => exact .nil
  | cons a l ih =>
    cases l with
    | nil => exact .nil
    | cons b l =>
      obtain ⟨-, hl⟩ := List.pairwise_cons.1 h
      rw [List.tail_cons, List.zip_cons_cons]
      refine List.pairwise_cons.2 ⟨fun q hq => ?_, ih hl⟩
      rcases List.mem_cons.1 (List.of_mem_zip hq).1 with heq | hmem
      · exact Nat.le_of_eq heq.symm
      · exact Nat.le_of_lt ((List.pairwise_cons.1 hl).1 _ hmem)

theorem ascending_normalize (rs : List SymbolRange) : Ascending (RangeSet.normalize rs) :=
  (RangeSet.separated_normalize rs).imp fun h => by omega

theorem piece?_eq_some {lo stop : Nat} {r : SymbolRange} :
    piece? ⟨(RangeSet.normalize rs).toArray⟩ lo stop = some r ↔
      lo < stop ∧ RangeSet.covers rs lo = true ∧ r.lo = lo ∧ r.hi = stop - 1 := by
  have hsome := isSome_classify_iff (c := lo) (ascending_normalize rs)
  rw [RangeSet.covers_normalize] at hsome
  unfold piece?
  split
  next h =>
    rw [hsome] at h
    rw [Option.some_inj]
    constructor
    · rintro rfl
      exact ⟨h.1, h.2, rfl, rfl⟩
    · rintro ⟨-, -, hlo, hhi⟩
      obtain ⟨rlo, rhi, _⟩ := r
      cases hlo
      cases hhi
      rfl
  next h =>
    rw [hsome] at h
    constructor
    · intro hnone
      cases hnone
    · rintro ⟨hlt, hc, -⟩
      exact absurd ⟨hlt, hc⟩ h

/-- The classes of the alphabet of a list of ranges. -/
theorem mem_classes {r : SymbolRange} :
    r ∈ (ofRanges rs).classes.toList ↔
      RangeSet.covers rs r.lo = true ∧ (r.lo, r.hi + 1) ∈ (cuts rs).zip (cuts rs).tail := by
  unfold ofRanges
  simp only [List.mem_filterMap, Prod.exists, piece?_eq_some]
  constructor
  · rintro ⟨lo, stop, hmem, hlt, hc, rfl, hhi⟩
    refine ⟨hc, ?_⟩
    rwa [hhi, Nat.sub_add_cancel (by omega)]
  · rintro ⟨hc, hmem⟩
    have := r.lo_le_hi
    exact ⟨_, _, hmem, by omega, hc, rfl, by omega⟩

theorem ascending_classes (rs : List SymbolRange) : Ascending (ofRanges rs).classes.toList := by
  refine (pairwise_zip_tail (pairwise_cuts rs)).filterMap _ fun p q hpq r hr s hs => ?_
  obtain ⟨hlt, -, -, hhi⟩ := piece?_eq_some.1 hr
  obtain ⟨-, -, hlo, -⟩ := piece?_eq_some.1 hs
  omega

/-- A range contains all symbols of a class or none. -/
theorem contains_eq_of_mem_classes {r s : SymbolRange} (hr : r ∈ (ofRanges rs).classes.toList)
    (hs : s ∈ rs) (hc : r.contains c = true) : s.contains r.lo = s.contains c := by
  obtain ⟨-, hout⟩ := not_between (pairwise_cuts rs) (mem_classes.1 hr).2
  have hlo := hout s.lo (mem_cuts.2 ⟨s, hs, .inl rfl⟩)
  have hhi := hout (s.hi + 1) (mem_cuts.2 ⟨s, hs, .inr rfl⟩)
  rw [SymbolRange.contains_iff] at hc
  rw [Bool.eq_iff_iff, SymbolRange.contains_iff, SymbolRange.contains_iff]
  omega

/-- Every symbol that is covered lies in a class. -/
theorem exists_class {s : SymbolRange} (hs : s ∈ rs) (hc : s.contains c = true) :
    ∃ r ∈ (ofRanges rs).classes.toList, r.contains c = true := by
  rw [SymbolRange.contains_iff] at hc
  obtain ⟨lo, stop, hmem, hle, hlt⟩ := exists_neighbours (pairwise_cuts rs)
    (mem_cuts.2 ⟨s, hs, .inl rfl⟩) hc.1 (mem_cuts.2 ⟨s, hs, .inr rfl⟩) (Nat.lt_succ_of_le hc.2)
  obtain ⟨hlo, hout⟩ := not_between (pairwise_cuts rs) hmem
  -- the range has no bound between the cuts, so it contains the lower one as well
  have hcover : RangeSet.covers rs lo = true := by
    refine RangeSet.covers_eq_true.2 ⟨s, hs, ?_⟩
    have := hout s.lo (mem_cuts.2 ⟨s, hs, .inl rfl⟩)
    have := hout (s.hi + 1) (mem_cuts.2 ⟨s, hs, .inr rfl⟩)
    rw [SymbolRange.contains_iff]
    omega
  refine ⟨⟨lo, stop - 1, by omega⟩, mem_classes.2 ⟨hcover, ?_⟩, ?_⟩
  · rwa [Nat.sub_add_cancel (by omega)]
  · rw [SymbolRange.contains_iff]
    simp only
    omega

/-- **The ranges do not tell the symbols of a class apart.** The class of a symbol exists, and
its first symbol lies in the same ranges. -/
theorem contains_eq_of_classify (h : (ofRanges rs).classify c = some i) :
    ∃ r, (ofRanges rs).getClass i = .ok r ∧ ∀ s ∈ rs, s.contains r.lo = s.contains c := by
  obtain ⟨r, hr, hc⟩ := @classify_eq_some (ofRanges rs).classes.toList _ _ h
  refine ⟨r, ?_, fun s hs => contains_eq_of_mem_classes (List.mem_of_getElem? hr) hs hc⟩
  unfold getClass
  rw [← Array.getElem?_toList, hr]

/-- A symbol without a class lies in no range. -/
theorem covers_eq_false_of_classify (h : (ofRanges rs).classify c = none) :
    RangeSet.covers rs c = false := by
  refine Bool.eq_false_iff.2 fun hcover => ?_
  obtain ⟨s, hs, hc⟩ := RangeSet.covers_eq_true.1 hcover
  obtain ⟨r, hr, hrc⟩ := exists_class hs hc
  have hsome := isSome_classify (ascending_classes rs) hr hrc
  rw [show (⟨(ofRanges rs).classes.toList.toArray⟩ : Alphabet) = ofRanges rs from rfl, h] at hsome
  cases hsome

end Submatch.Alphabet
