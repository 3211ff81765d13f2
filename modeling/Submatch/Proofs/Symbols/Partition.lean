import Mathlib
import Submatch.Proofs.Symbols.Coverage

/-!
# The coarsest partition

The classes of `Alphabet.ofRanges` partition the symbols that the ranges cover, and every range
is a union of neighbouring classes (`partitions_classes`). No partition into intervals with this
property is coarser: the parts of any other one lie inside the classes
(`Partitions.exists_class`). A symbol is classified exactly by the class that contains it
(`classify_eq_some_iff`). So says `Alphabet.sweep_induced`, of the sweep over the coverage.
-/

namespace Submatch.Alphabet

/-- The intervals ascend without overlap, cover what the ranges cover, and every range is a
union of neighbouring ones. -/
structure Partitions (rs parts : List SymbolRange) : Prop where
  ascending : Ascending parts
  covers : ∀ x, RangeSet.covers parts x = RangeSet.covers rs x
  unions : ∀ s ∈ rs, ∃ run, run <:+: parts ∧ ∀ x, s.contains x = RangeSet.covers run x

/-- The classes are the coarsest partition for the ranges, and symbols are found in them. -/
structure Induced (rs : List SymbolRange) (A : Alphabet) : Prop where
  /-- The classes are a partition. -/
  partitions : Partitions rs A.classes.toList
  /-- All symbols of a class lie in the same ranges as the first one. -/
  uniform : ∀ r ∈ A.classes, ∀ s ∈ rs, ∀ x, r.contains x = true → s.contains x = s.contains r.lo
  /-- Classes that touch do not lie in the same ranges. -/
  apart : ∀ (i : Nat) (r t : SymbolRange), A.classes[i]? = some r → A.classes[i + 1]? = some t →
    r.hi + 1 = t.lo → ∃ s ∈ rs, s.contains r.lo ≠ s.contains t.lo
  /-- The parts of any other partition lie inside the classes. -/
  coarsest : ∀ parts, Partitions rs parts →
    ∀ q ∈ parts, ∃ r ∈ A.classes, r.lo ≤ q.lo ∧ q.hi ≤ r.hi
  /-- A symbol has the class that contains it. -/
  classified : ∀ x i, A.classify x = some i ↔ ∃ r, A.classes[i]? = some r ∧ r.contains x = true
  /-- A symbol has no class if no range contains it. -/
  unclassified : ∀ x, A.classify x = none ↔ ∀ s ∈ rs, s.contains x = false

variable {rs parts : List SymbolRange} {q r s : SymbolRange} {x y : Nat}

theorem Ascending.mem_takeWhile (h : Ascending parts) (last : Nat) :
    r ∈ parts.takeWhile (·.lo ≤ last) ↔ r ∈ parts ∧ r.lo ≤ last := by
  induction parts with
  | nil => simp
  | cons p parts ih =>
    obtain ⟨hp, hparts⟩ := List.pairwise_cons.1 h
    have hbounds := p.lo_le_hi
    rw [List.takeWhile_cons]
    by_cases hle : p.lo ≤ last
    · rw [if_pos (decide_eq_true hle), List.mem_cons, ih hparts, List.mem_cons]
      constructor
      · rintro (rfl | ⟨hr, hrle⟩)
        · exact ⟨.inl rfl, hle⟩
        · exact ⟨.inr hr, hrle⟩
      · rintro ⟨rfl | hr, hrle⟩
        · exact .inl rfl
        · exact .inr ⟨hr, hrle⟩
    · -- what comes later starts later
      rw [if_neg (by simpa using hle)]
      refine iff_of_false List.not_mem_nil ?_
      rintro ⟨hr, hrle⟩
      rcases List.mem_cons.1 hr with rfl | hr
      · exact hle hrle
      · have := hp r hr
        omega

/-- The parts of an ascending list that meet a range are neighbours. -/
theorem Ascending.exists_run (h : Ascending parts) (s : SymbolRange) :
    ∃ run, run <:+: parts ∧ ∀ r, r ∈ run ↔ r ∈ parts ∧ s.lo ≤ r.hi ∧ r.lo ≤ s.hi := by
  induction parts with
  | nil => exact ⟨[], List.infix_rfl, fun r => by simp⟩
  | cons p parts ih =>
    obtain ⟨hp, hparts⟩ := List.pairwise_cons.1 h
    have hbounds := p.lo_le_hi
    by_cases hbefore : p.hi < s.lo
    · obtain ⟨run, hrun, hmem⟩ := ih hparts
      refine ⟨run, hrun.trans (List.suffix_cons p parts).isInfix, fun r => ?_⟩
      rw [hmem, List.mem_cons]
      constructor
      · rintro ⟨hr, hmeet⟩
        exact ⟨.inr hr, hmeet⟩
      · rintro ⟨rfl | hr, hmeet⟩
        · omega
        · exact ⟨hr, hmeet⟩
    · -- from here on nothing ends in front of the range
      have hmeets : ∀ r ∈ p :: parts, s.lo ≤ r.hi := by
        intro r hr
        rcases List.mem_cons.1 hr with rfl | hr
        · omega
        · have := hp r hr
          have := r.lo_le_hi
          omega
      refine ⟨_, (List.takeWhile_prefix (·.lo ≤ s.hi)).isInfix, fun r => ?_⟩
      rw [h.mem_takeWhile]
      exact ⟨fun ⟨hr, hle⟩ => ⟨hr, hmeets r hr, hle⟩, fun ⟨hr, _, hle⟩ => ⟨hr, hle⟩⟩

/-- A symbol lies in one part of an ascending list at most. -/
theorem Ascending.eq_of_contains (h : Ascending parts) (hq : q ∈ parts) (hr : r ∈ parts)
    (hqx : q.contains x = true) (hrx : r.contains x = true) : q = r := by
  rw [SymbolRange.contains_iff] at hqx hrx
  induction parts with
  | nil => cases hq
  | cons p parts ih =>
    obtain ⟨hp, hparts⟩ := List.pairwise_cons.1 h
    rcases List.mem_cons.1 hq with hqp | hq' <;> rcases List.mem_cons.1 hr with hrp | hr'
    · rw [hqp, hrp]
    · have := hp r hr'
      subst hqp
      omega
    · have := hp q hq'
      subst hrp
      omega
    · exact ih hparts hq' hr'

/-- The classes cover what the ranges cover. -/
theorem covers_classes (rs : List SymbolRange) (x : Nat) :
    RangeSet.covers (ofRanges rs).classes.toList x = RangeSet.covers rs x := by
  rw [Bool.eq_iff_iff, RangeSet.covers_eq_true, RangeSet.covers_eq_true]
  constructor
  · rintro ⟨r, hr, hrx⟩
    obtain ⟨s, hs, hslo⟩ := RangeSet.covers_eq_true.1 (mem_classes.1 hr).1
    exact ⟨s, hs, (contains_eq_of_mem_classes hr hs hrx).symm.trans hslo⟩
  · rintro ⟨s, hs, hsx⟩
    exact exists_class hs hsx

/-- **The classes are a partition**, and every range is a union of neighbouring ones. -/
theorem partitions_classes (rs : List SymbolRange) :
    Partitions rs (ofRanges rs).classes.toList where
  ascending := ascending_classes rs
  covers := covers_classes rs
  unions := by
    intro s hs
    obtain ⟨run, hrun, hmem⟩ := (ascending_classes rs).exists_run s
    refine ⟨run, hrun, fun x => ?_⟩
    rw [Bool.eq_iff_iff, RangeSet.covers_eq_true]
    constructor
    · intro hsx
      obtain ⟨r, hr, hrx⟩ := exists_class hs hsx
      rw [SymbolRange.contains_iff] at hsx hrx
      exact ⟨r, (hmem r).2 ⟨hr, by omega, by omega⟩, SymbolRange.contains_iff.2 hrx⟩
    · rintro ⟨r, hr, hrx⟩
      obtain ⟨hr, hlo, hhi⟩ := (hmem r).1 hr
      -- the range and the class have a symbol in common, so the range contains the whole class
      have hcommon : r.contains (max r.lo s.lo) = true ∧ s.contains (max r.lo s.lo) = true := by
        have := r.lo_le_hi
        have := s.lo_le_hi
        rw [SymbolRange.contains_iff, SymbolRange.contains_iff]
        omega
      rw [← contains_eq_of_mem_classes hr hs hrx,
        contains_eq_of_mem_classes hr hs hcommon.1, hcommon.2]

/-- A part of a partition lies inside every range or outside of it. -/
theorem Partitions.contains_eq (h : Partitions rs parts) (hq : q ∈ parts) (hs : s ∈ rs)
    (hx : q.contains x = true) (hy : q.contains y = true) : s.contains x = s.contains y := by
  obtain ⟨run, hrun, hunion⟩ := h.unions s hs
  have hwhole : ∀ {x : Nat}, q.contains x = true → (RangeSet.covers run x = true ↔ q ∈ run) := by
    intro x hx
    rw [RangeSet.covers_eq_true]
    constructor
    · rintro ⟨r, hr, hrx⟩
      rwa [h.ascending.eq_of_contains hq (hrun.subset hr) hx hrx]
    · exact fun hr => ⟨q, hr, hx⟩
  rw [hunion, hunion, Bool.eq_iff_iff, hwhole hx, hwhole hy]

/-- Behind the last symbol of a class some range ends or starts. -/
theorem exists_bound (hr : r ∈ (ofRanges rs).classes.toList) :
    ∃ s ∈ rs, s.contains r.hi ≠ s.contains (r.hi + 1) := by
  have hstop := (List.of_mem_zip (mem_classes.1 hr).2).2
  obtain ⟨s, hs, hbound⟩ := mem_cuts.1 (List.mem_of_mem_tail hstop)
  have hbounds := s.lo_le_hi
  refine ⟨s, hs, fun heq => ?_⟩
  rw [Bool.eq_iff_iff, SymbolRange.contains_iff, SymbolRange.contains_iff] at heq
  omega

/-- **No partition is coarser.** A part of any partition lies inside a class. -/
theorem Partitions.exists_class (h : Partitions rs parts) (hq : q ∈ parts) :
    ∃ r ∈ (ofRanges rs).classes.toList, r.lo ≤ q.lo ∧ q.hi ≤ r.hi := by
  have hqbounds := q.lo_le_hi
  have hfirst : q.contains q.lo = true := SymbolRange.contains_iff.2 ⟨Nat.le_refl _, hqbounds⟩
  have hcover : RangeSet.covers (ofRanges rs).classes.toList q.lo = true := by
    rw [covers_classes, ← h.covers, RangeSet.covers_eq_true]
    exact ⟨q, hq, hfirst⟩
  obtain ⟨r, hr, hrlo⟩ := RangeSet.covers_eq_true.1 hcover
  rw [SymbolRange.contains_iff] at hrlo
  refine ⟨r, hr, hrlo.1, Nat.le_of_not_lt fun hlong => ?_⟩
  -- the part goes on behind the class, where some range does not tell its symbols alike
  obtain ⟨s, hs, hne⟩ := exists_bound hr
  exact hne (h.contains_eq hq hs (SymbolRange.contains_iff.2 ⟨hrlo.2, Nat.le_of_lt hlong⟩)
    (SymbolRange.contains_iff.2 ⟨by omega, hlong⟩))

theorem classify_eq_some_iff {classes : List SymbolRange} (h : Ascending classes) {i : Nat} :
    classify ⟨classes.toArray⟩ x = some i ↔ ∃ r, classes[i]? = some r ∧ r.contains x = true := by
  constructor
  · exact classify_eq_some
  · rintro ⟨r, hr, hx⟩
    unfold classify
    simp only [partitionPoint_hi h hr hx, List.getElem?_toArray, hr]
    rw [if_pos hx]

theorem induced_ofRanges (rs : List SymbolRange) : (ofRanges rs).Induced rs where
  partitions := partitions_classes rs
  uniform := fun r hr s hs x hx =>
    (contains_eq_of_mem_classes (Array.mem_toList_iff.2 hr) hs hx).symm
  apart := by
    intro i r t hr ht htouch
    have hmem := Array.mem_toList_iff.2 (Array.mem_of_getElem? hr)
    obtain ⟨s, hs, hne⟩ := exists_bound hmem
    have hlast : r.contains r.hi = true :=
      SymbolRange.contains_iff.2 ⟨r.lo_le_hi, Nat.le_refl _⟩
    exact ⟨s, hs, by rwa [contains_eq_of_mem_classes hmem hs hlast, ← htouch]⟩
  coarsest := by
    intro parts hparts q hq
    obtain ⟨r, hr, hinside⟩ := hparts.exists_class hq
    exact ⟨r, Array.mem_toList_iff.1 hr, hinside⟩
  classified := fun x i => by
    have hiff := @classify_eq_some_iff x _ (ascending_classes rs) i
    rwa [Array.toArray_toList, Array.getElem?_toList] at hiff
  unclassified := by
    intro x
    constructor
    · intro hnone s hs
      have hcover := covers_eq_false_of_classify hnone
      exact Bool.eq_false_iff.2 fun hsx =>
        Bool.eq_false_iff.1 hcover (RangeSet.covers_eq_true.2 ⟨s, hs, hsx⟩)
    · intro hnever
      refine Option.eq_none_iff_forall_ne_some.2 fun i hi => ?_
      obtain ⟨r, hr, hrx⟩ := @classify_eq_some (ofRanges rs).classes.toList _ _ hi
      have hcover := covers_classes rs x
      rw [RangeSet.covers_eq_true.2 ⟨r, List.mem_of_getElem? hr, hrx⟩, eq_comm,
        RangeSet.covers_eq_true] at hcover
      obtain ⟨s, hs, hsx⟩ := hcover
      exact Bool.eq_false_iff.1 (hnever s hs) hsx

/-- **The sweep induces the coarsest alphabet.** For ranges of 32-bit symbols the sweep builds no
range that descends, and its numbers fit: the places reach up to `2 ^ 32`, the counts to the number
of ranges, and the classes end below `2 ^ 32`. The classes are the coarsest partition for the
ranges. -/
theorem sweep_induced (h : ∀ r ∈ rs, r.hi ≤ 2 ^ 32 - 1) :
    Coverage.sweep rs = .ok (ofRanges rs) ∧ Coverage.Fits rs (2 ^ 32 - 1) ∧
      (ofRanges rs).Induced rs :=
  ⟨Coverage.sweep_eq_ok rs, Coverage.fits_of_le h, induced_ofRanges rs⟩

/-- One range inside another, one that starts where that one ends and goes on to the last 32-bit
symbol, and the first one again. -/
theorem sweep_induced_touching :
    (∀ r ∈ [⟨97, 103, by decide⟩, ⟨98, 100, by decide⟩, ⟨101, 4294967295, by decide⟩,
      (⟨97, 103, by decide⟩ : SymbolRange)], r.hi ≤ 2 ^ 32 - 1) ∧
    Coverage.sweep [⟨97, 103, by decide⟩, ⟨98, 100, by decide⟩, ⟨101, 4294967295, by decide⟩,
      ⟨97, 103, by decide⟩] = .ok ⟨#[.single 97, ⟨98, 100, by decide⟩, ⟨101, 103, by decide⟩,
        ⟨104, 4294967295, by decide⟩]⟩ ∧
    Induced [⟨97, 103, by decide⟩, ⟨98, 100, by decide⟩, ⟨101, 4294967295, by decide⟩,
      ⟨97, 103, by decide⟩] ⟨#[.single 97, ⟨98, 100, by decide⟩, ⟨101, 103, by decide⟩,
        ⟨104, 4294967295, by decide⟩]⟩ := by
  have hclasses : ofRanges [⟨97, 103, by decide⟩, ⟨98, 100, by decide⟩,
      ⟨101, 4294967295, by decide⟩, ⟨97, 103, by decide⟩] =
        ⟨#[.single 97, ⟨98, 100, by decide⟩, ⟨101, 103, by decide⟩,
          ⟨104, 4294967295, by decide⟩]⟩ := by
    cbv
  have hbounds : ∀ r ∈ [⟨97, 103, by decide⟩, ⟨98, 100, by decide⟩,
      ⟨101, 4294967295, by decide⟩, (⟨97, 103, by decide⟩ : SymbolRange)], r.hi ≤ 2 ^ 32 - 1 := by
    decide
  obtain ⟨hsweep, -, hinduced⟩ := sweep_induced hbounds
  rw [hclasses] at hsweep hinduced
  exact ⟨hbounds, hsweep, hinduced⟩

end Submatch.Alphabet
