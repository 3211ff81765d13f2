import Submatch.Proofs.Fault
import Submatch.Proofs.Symbols.Alphabet
import Submatch.Symbols.Coverage

/-!
# The sweep finds the classes

At every place where the coverage may change, the changes up to there add up to the number of
ranges that contain the symbol (`Coverage.depths_eq`). So a sweep over these places meets a
number above zero exactly where some range covers what follows, and makes the classes of
`Alphabet.ofRanges` (`Coverage.sweep_eq_ok`). No number that it computes leaves the bounds that
the ranges and their number give (`Coverage.fits_of_le`).
-/

namespace Submatch.Coverage

variable {rs : List SymbolRange} {m : Changes} {p q x : Nat}

/-- How many of the ranges contain a symbol. -/
def depthAt (rs : List SymbolRange) (x : Nat) : Int := rs.countP (·.contains x)

/-- How many more ranges start at a place than end in front of it. -/
def changeAt (rs : List SymbolRange) (x : Nat) : Int :=
  (rs.countP (·.lo == x) : Int) - rs.countP (·.hi + 1 == x)

theorem getD_add (m : Changes) (place : Nat) (change : Int) (x : Nat) :
    (m.add place change).getD x 0 = m.getD x 0 + if place = x then change else 0 := by
  unfold Changes.add
  rw [Std.TreeMap.getD_insert]
  by_cases h : place = x
  · subst h
    simp
  · simp [h]

theorem mem_add {place : Nat} {change : Int} : x ∈ m.add place change ↔ x = place ∨ x ∈ m := by
  unfold Changes.add
  rw [Std.TreeMap.mem_insert, Nat.compare_eq_eq, eq_comm]

theorem getD_foldl (m : Changes) (rs : List SymbolRange) (x : Nat) :
    (rs.foldl Changes.addRange m).getD x 0 = m.getD x 0 + changeAt rs x := by
  induction rs generalizing m with
  | nil => simp [changeAt]
  | cons r rs ih =>
    have hrange : (m.addRange r).getD x 0 =
        m.getD x 0 + (if r.lo = x then 1 else 0) + if r.hi + 1 = x then -1 else 0 := by
      unfold Changes.addRange
      rw [getD_add, getD_add]
    rw [List.foldl_cons, ih, hrange]
    simp only [changeAt, List.countP_cons, beq_iff_eq]
    split <;> split <;> omega

theorem mem_foldl {rs : List SymbolRange} : x ∈ rs.foldl Changes.addRange m ↔
    x ∈ m ∨ ∃ r ∈ rs, x = r.lo ∨ x = r.hi + 1 := by
  induction rs generalizing m with
  | nil => simp
  | cons r rs ih =>
    rw [List.foldl_cons, ih, Changes.addRange, mem_add, mem_add]
    simp only [List.mem_cons, exists_eq_or_imp]
    constructor
    · rintro ((hend | hstart | hx) | hrest)
      · exact .inr (.inl (.inr hend))
      · exact .inr (.inl (.inl hstart))
      · exact .inl hx
      · exact .inr (.inr hrest)
    · rintro (hx | (hstart | hend) | hrest)
      · exact .inl (.inr (.inr hx))
      · exact .inl (.inr (.inl hstart))
      · exact .inl (.inl hend)
      · exact .inr hrest

/-- The places of the changes are the cuts of the ranges. -/
theorem toList_changes (rs : List SymbolRange) :
    (changes rs).toList = (Alphabet.cuts rs).map fun x => (x, changeAt rs x) := by
  have hkeys : (changes rs).toList.Pairwise fun a b => a.1 < b.1 :=
    Std.TreeMap.ordered_keys_toList.imp fun h => Nat.compare_eq_lt.1 h
  have hcuts : ((Alphabet.cuts rs).map fun x => (x, changeAt rs x)).Pairwise
      fun a b => a.1 < b.1 :=
    List.pairwise_map.2 (Alphabet.pairwise_cuts rs)
  have hmem : ∀ e : Nat × Int, e ∈ (changes rs).toList ↔
      e ∈ (Alphabet.cuts rs).map fun x => (x, changeAt rs x) := by
    rintro ⟨x, change⟩
    have hplace : x ∈ changes rs ↔ x ∈ Alphabet.cuts rs := by
      rw [changes, mem_foldl, Alphabet.mem_cuts]
      simp
    have hvalue : (changes rs).getD x 0 = changeAt rs x := by
      rw [changes, getD_foldl]
      simp
    have hget : x ∈ changes rs → (changes rs)[x]? = some ((changes rs).getD x 0) :=
      Std.TreeMap.getElem?_eq_some_getD
    rw [Std.TreeMap.mem_toList_iff_getElem?_eq_some, List.mem_map]
    constructor
    · intro h
      have hx : x ∈ changes rs := Std.TreeMap.mem_iff_isSome_getElem?.2 (by rw [h]; rfl)
      rw [hget hx, hvalue] at h
      exact ⟨x, hplace.1 hx, by rw [Option.some.inj h]⟩
    · rintro ⟨y, hy, heq⟩
      obtain ⟨rfl, rfl⟩ := Prod.mk.inj heq
      rw [hget (hplace.2 hy), hvalue]
  -- two lists with the same members that strictly ascend are one list
  exact List.Perm.eq_of_pairwise (fun a b _ _ hab hba => by omega) hkeys hcuts
    ((List.perm_ext_iff_of_nodup (hkeys.imp fun h heq => by simp [heq] at h)
      (hcuts.imp fun h heq => by simp [heq] at h)).2 hmem)

/-- Where no range starts or ends between two places, the numbers of ranges there differ by
the change at the second one. -/
theorem depthAt_step (h : ∀ r ∈ rs, (r.lo ≤ p ∨ q ≤ r.lo) ∧ (r.hi + 1 ≤ p ∨ q ≤ r.hi + 1))
    (hpq : p < q) : depthAt rs q = depthAt rs p + changeAt rs q := by
  induction rs with
  | nil => rfl
  | cons r rs ih =>
    obtain ⟨hr, hrest⟩ := List.forall_mem_cons.1 h
    have hrange := r.lo_le_hi
    have ih := ih hrest
    simp only [depthAt, changeAt, List.countP_cons, SymbolRange.contains_iff, beq_iff_eq] at ih ⊢
    -- the range covers both places or none, starts at the second one or ends in front of it
    split <;> split <;> split <;> split <;> omega

/-- In front of the first place there is no range. -/
theorem depthAt_first (h : ∀ r ∈ rs, p ≤ r.lo) : depthAt rs p = changeAt rs p := by
  induction rs with
  | nil => rfl
  | cons r rs ih =>
    obtain ⟨hr, hrest⟩ := List.forall_mem_cons.1 h
    have hrange := r.lo_le_hi
    have ih := ih hrest
    simp only [depthAt, changeAt, List.countP_cons, SymbolRange.contains_iff, beq_iff_eq] at ih ⊢
    split <;> split <;> split <;> omega

/-- The changes add up to the numbers of ranges if they do at the first place and from every
place to the next one. -/
theorem totals_map {places : List Nat} {depth : Int}
    (hfirst : ∀ x ∈ places.head?, depthAt rs x = depth + changeAt rs x)
    (hstep : ∀ p q, (p, q) ∈ places.zip places.tail → depthAt rs q = depthAt rs p + changeAt rs q) :
    totals depth (places.map fun x => (x, changeAt rs x)) =
      places.map fun x => (x, depthAt rs x) := by
  induction places generalizing depth with
  | nil => rfl
  | cons x places ih =>
    have hx := hfirst x rfl
    rw [List.map_cons, List.map_cons, totals, ← hx]
    congr 1
    cases places with
    | nil => rfl
    | cons y places =>
      rw [List.tail_cons, List.zip_cons_cons] at hstep
      refine ih ?_ fun p q hpq => hstep p q (List.mem_cons_of_mem _ hpq)
      rintro z ⟨⟩
      exact hstep x y List.mem_cons_self

/-- **The changes up to a place add up to the number of ranges there.** -/
theorem depths_eq (rs : List SymbolRange) :
    depths rs = (Alphabet.cuts rs).map fun x => (x, depthAt rs x) := by
  have hascend := Alphabet.pairwise_cuts rs
  have hbound : ∀ r ∈ rs, r.lo ∈ Alphabet.cuts rs ∧ r.hi + 1 ∈ Alphabet.cuts rs := fun r hr =>
    ⟨Alphabet.mem_cuts.2 ⟨r, hr, .inl rfl⟩, Alphabet.mem_cuts.2 ⟨r, hr, .inr rfl⟩⟩
  unfold depths
  rw [toList_changes]
  refine totals_map (fun x hx => ?_) fun p q hpq => ?_
  · rw [Int.zero_add]
    refine depthAt_first fun r hr => ?_
    obtain ⟨rest, hcuts⟩ := List.head?_eq_some_iff.1 hx
    have hlo := (hbound r hr).1
    rw [hcuts] at hascend hlo
    rcases List.mem_cons.1 hlo with heq | hlo
    · omega
    · exact Nat.le_of_lt ((List.pairwise_cons.1 hascend).1 _ hlo)
  · obtain ⟨hlt, hout⟩ := Alphabet.not_between hascend hpq
    exact depthAt_step (fun r hr => ⟨hout _ (hbound r hr).1, hout _ (hbound r hr).2⟩) hlt

theorem depthAt_pos : 0 < depthAt rs x ↔ RangeSet.covers rs x = true := by
  unfold depthAt
  rw [Int.natCast_pos, List.countP_pos_iff, RangeSet.covers_eq_true]

/-- Between two cuts a range can be made, and it is the class there if there is one. -/
theorem pieceBetween_eq {lo stop : Nat} (hlt : lo < stop) (after : Int) :
    pieceBetween ((lo, depthAt rs lo), (stop, after)) =
      .ok (Alphabet.piece? ⟨(RangeSet.normalize rs).toArray⟩ lo stop) := by
  have hle : lo ≤ stop - 1 := by omega
  simp only [pieceBetween]
  by_cases hcover : RangeSet.covers rs lo = true
  · have hpiece : Alphabet.piece? ⟨(RangeSet.normalize rs).toArray⟩ lo stop =
        some ⟨lo, stop - 1, hle⟩ := Alphabet.piece?_eq_some.2 ⟨hlt, hcover, rfl, rfl⟩
    rw [if_pos (depthAt_pos.2 hcover), SymbolRange.ofBounds_eq_ok hle, hpiece]
    rfl
  · have hpiece : Alphabet.piece? ⟨(RangeSet.normalize rs).toArray⟩ lo stop = none := by
      refine Option.eq_none_iff_forall_ne_some.2 fun r hr => ?_
      exact hcover (Alphabet.piece?_eq_some.1 hr).2.1
    rw [if_neg (fun h => hcover (depthAt_pos.1 h)), hpiece]
    rfl

theorem filterMapM_pieceBetween {pairs : List (Nat × Nat)} (h : ∀ e ∈ pairs, e.1 < e.2) :
    (pairs.map (Prod.map (fun x => (x, depthAt rs x)) fun x => (x, depthAt rs x))).filterMapM
        pieceBetween =
      .ok (pairs.filterMap fun e =>
        Alphabet.piece? ⟨(RangeSet.normalize rs).toArray⟩ e.1 e.2) := by
  induction pairs with
  | nil => rfl
  | cons e pairs ih =>
    obtain ⟨he, hrest⟩ := List.forall_mem_cons.1 h
    rw [List.map_cons, List.filterMapM_cons, Prod.map, pieceBetween_eq he, ih hrest,
      List.filterMap_cons]
    cases Alphabet.piece? ⟨(RangeSet.normalize rs).toArray⟩ e.1 e.2 <;> rfl

/-- **The sweep makes the classes**, and no range that it makes descends. -/
theorem sweep_eq_ok (rs : List SymbolRange) : sweep rs = .ok (Alphabet.ofRanges rs) := by
  have hascend : ∀ e ∈ (Alphabet.cuts rs).zip (Alphabet.cuts rs).tail, e.1 < e.2 := fun e he =>
    (Alphabet.not_between (Alphabet.pairwise_cuts rs) he).1
  simp only [sweep]
  rw [depths_eq, ← List.map_tail, List.zip_map, filterMapM_pieceBetween hascend]
  rfl

/-- The numbers of a sweep, where no symbol of the ranges lies above `last`: the places ascend up
to the one behind it, no count is larger than the number of ranges, and the classes end with the
ranges. -/
structure Fits (rs : List SymbolRange) (last : Nat) : Prop where
  places : ∀ e ∈ (changes rs).toList, e.1 ≤ last + 1
  ascending : ∀ e ∈ (depths rs).zip (depths rs).tail, e.1.1 < e.2.1
  changes : ∀ e ∈ (changes rs).toList, -(rs.length : Int) ≤ e.2 ∧ e.2 ≤ rs.length
  depths : ∀ e ∈ depths rs, 0 ≤ e.2 ∧ e.2 ≤ rs.length
  classes : ∀ r ∈ (Alphabet.ofRanges rs).classes.toList, r.hi ≤ last

theorem changeAt_bounds (rs : List SymbolRange) (x : Nat) :
    -(rs.length : Int) ≤ changeAt rs x ∧ changeAt rs x ≤ rs.length := by
  have hstart : rs.countP (·.lo == x) ≤ rs.length := List.countP_le_length
  have hstop : rs.countP (·.hi + 1 == x) ≤ rs.length := List.countP_le_length
  unfold changeAt
  omega

theorem cut_le {last : Nat} (h : ∀ r ∈ rs, r.hi ≤ last) (hx : x ∈ Alphabet.cuts rs) :
    x ≤ last + 1 := by
  obtain ⟨r, hr, hbound⟩ := Alphabet.mem_cuts.1 hx
  have := h r hr
  have := r.lo_le_hi
  omega

/-- **No number of a sweep leaves its bounds.** -/
theorem fits_of_le {last : Nat} (h : ∀ r ∈ rs, r.hi ≤ last) : Fits rs last where
  places := by
    intro e he
    rw [toList_changes] at he
    obtain ⟨x, hx, rfl⟩ := List.mem_map.1 he
    exact cut_le h hx
  ascending := by
    intro e he
    rw [depths_eq, ← List.map_tail, List.zip_map] at he
    obtain ⟨pair, hpair, rfl⟩ := List.mem_map.1 he
    exact (Alphabet.not_between (Alphabet.pairwise_cuts rs) hpair).1
  changes := by
    intro e he
    rw [toList_changes] at he
    obtain ⟨x, -, rfl⟩ := List.mem_map.1 he
    exact changeAt_bounds rs x
  depths := by
    intro e he
    rw [depths_eq] at he
    obtain ⟨x, -, rfl⟩ := List.mem_map.1 he
    exact ⟨Int.natCast_nonneg _, Int.ofNat_le.2 List.countP_le_length⟩
  classes := by
    intro r hr
    have hstop := (List.of_mem_zip (Alphabet.mem_classes.1 hr).2).2
    have := cut_le h (List.mem_of_mem_tail hstop)
    omega

end Submatch.Coverage
