import Mathlib.Data.List.Induction
import Submatch.Capture.Tree

/-!
# The tree of a match

A tree of iterations is known once it is known below which one each of them hangs:
`SpanTree.ofHosts` is the tree for given hosts. The tree of some spans is that in which every
iteration hangs below the latest iteration of its parent that was placed before it and contains it
(`SpanTree.nest_eq_ofHosts`). Where parents come before their groups, all their iterations were
placed before (`SpanTree.nest_eq`).
-/

namespace Submatch

/-- An iteration of a group, counted from zero. -/
structure Iteration where
  /-- The number of the group. -/
  group : Nat
  /-- How many iterations of the group come before. -/
  index : Nat
  deriving DecidableEq, Repr

namespace Iteration

/-- The iteration of group zero that is the whole match. -/
def root : Iteration := ⟨0, 0⟩

/-- The span of an iteration, if there is one of that index. -/
def span? (spans : List (List Span)) (c : Iteration) : Option Span :=
  spans[c.group]?.bind fun ofGroup => ofGroup[c.index]?

/-- The iterations of a group, oldest first. -/
def ofGroup (spans : List (List Span)) (group : Nat) : List (Iteration × Span) :=
  (spans[group]?.getD []).zipIdx.map fun (span, index) => (⟨group, index⟩, span)

/-- The iterations of the groups from one up to but not including the given one, oldest first. -/
def upTo (spans : List (List Span)) (group : Nat) : List (Iteration × Span) :=
  (List.range' 1 (group - 1)).flatMap (ofGroup spans)

/-- The order in which iterations are placed: group by group, each oldest first. -/
def Precedes (c d : Iteration) : Prop :=
  c.group < d.group ∨ c.group = d.group ∧ c.index < d.index

/-- The iterations that are placed before an iteration. -/
def before (spans : List (List Span)) (c : Iteration) : List (Iteration × Span) :=
  upTo spans c.group ++ (ofGroup spans c.group).take c.index

/-- The last of the listed iterations of a group that contains a span; the whole match if there is
none. -/
def latestOf (listed : List (Iteration × Span)) (group : Nat) (span : Span) : Iteration :=
  ((listed.filter fun e => e.1.group = group).reverse.find? fun e => e.2.contains span).elim
    root Prod.fst

/-- The iteration below which an iteration hangs: of those of the parent that are placed before it,
the latest that contains it. -/
def host (parents : Array Nat) (spans : List (List Span)) (c : Iteration) : Iteration :=
  match c.span? spans with
  | some span => latestOf (before spans c) (parents[c.group]?.getD 0) span
  | none => root

/-- The latest iteration of the parent that contains an iteration; the whole match if there is
none. -/
def latest (parents : Array Nat) (spans : List (List Span)) (c : Iteration) : Iteration :=
  match c.span? spans with
  | some span =>
    ((ofGroup spans (parents[c.group]?.getD 0)).reverse.find? fun d => d.2.contains span).elim
      root Prod.fst
  | none => root

end Iteration

namespace SpanTree

/-- The trees below an iteration, given the iterations behind it in the order in which they are
placed, and below which one each of them hangs. -/
def under (host : Iteration → Iteration) : List (Iteration × Span) → Iteration → List SpanTree
  | [], _ => []
  | (c, span) :: later, it =>
    if host c = it then branch c.group span (under host later c) :: under host later it
    else under host later it

/-- The tree of a match in which every iteration hangs below its host. -/
def ofHosts (host : Iteration → Iteration) (whole : Span) (spans : List (List Span)) : SpanTree :=
  branch 0 whole (under host (Iteration.upTo spans spans.length) .root)

/-- The trees below a place, given the spans that are placed behind it. -/
def underPlace : List Placement → Nat → List SpanTree
  | [], _ => []
  | p :: later, place =>
    if p.host = place then
      branch p.group p.span (underPlace later p.place) :: underPlace later place
    else underPlace later place

/-- **What is assembled is the tree of the placements.** Once the trees below every place are
complete as far as the later placements go, the earlier ones are put in front. -/
theorem assemble_eq (whole : Span) (earlier later : List Placement) {hung : Array (List SpanTree)}
    (hhosts : ∀ p ∈ earlier, p.host < hung.size)
    (hhung : ∀ place, hung[place]?.getD [] = underPlace later place) :
    assemble whole hung earlier.reverse = branch 0 whole (underPlace (earlier ++ later) 0) := by
  induction earlier using List.reverseRecOn generalizing hung later with
  | nil => rw [List.reverse_nil, assemble, hhung, List.nil_append]
  | append_singleton earlier p ih =>
    have hlt : p.host < hung.size := hhosts p (by simp)
    rw [List.reverse_append, List.reverse_singleton, List.singleton_append, assemble,
      List.append_assoc, List.singleton_append]
    refine ih (p :: later) (fun q hq => ?_) (fun place => ?_)
    · rw [Array.size_modify]
      exact hhosts q (List.mem_append_left _ hq)
    · rw [Array.getElem?_modify, underPlace]
      have hplace := hhung place
      by_cases h : p.host = place
      · subst h
        rw [if_pos rfl, if_pos rfl, hhung p.place, ← hplace, Array.getElem?_eq_getElem hlt]
        rfl
      · rw [if_neg h, if_neg h, hplace]

end SpanTree

namespace Iteration

variable {parents : Array Nat} {spans : List (List Span)} {c d : Iteration} {g k : Nat}

theorem mem_ofGroup {e : Iteration × Span} :
    e ∈ ofGroup spans g ↔ e.1.group = g ∧ e.1.span? spans = some e.2 := by
  obtain ⟨⟨group, index⟩, span⟩ := e
  unfold ofGroup span?
  simp only [List.mem_map, Prod.exists, Prod.mk.injEq, Iteration.mk.injEq,
    List.mk_mem_zipIdx_iff_getElem?]
  constructor
  · rintro ⟨s, i, hs, ⟨rfl, rfl⟩, rfl⟩
    refine ⟨rfl, ?_⟩
    cases hg : spans[g]? with
    | none => simp [hg] at hs
    | some spansOf => simpa [hg] using hs
  · rintro ⟨rfl, hs⟩
    refine ⟨span, index, ?_, ⟨rfl, rfl⟩, rfl⟩
    cases hg : spans[group]? with
    | none => simp [hg] at hs
    | some spansOf => simpa [hg] using hs

theorem getElem?_ofGroup (spans : List (List Span)) (g i : Nat) :
    (ofGroup spans g)[i]? = (span? spans ⟨g, i⟩).map fun span => (⟨g, i⟩, span) := by
  unfold ofGroup span?
  rw [List.getElem?_map, List.getElem?_zipIdx, Option.map_map]
  cases spans[g]? <;> simp [Function.comp_def]

theorem map_snd_ofGroup (spans : List (List Span)) (g : Nat) :
    (ofGroup spans g).map Prod.snd = spans[g]?.getD [] := by
  refine List.ext_getElem? fun i => ?_
  rw [List.getElem?_map, getElem?_ofGroup, Option.map_map, span?]
  cases spans[g]? <;> simp [Function.comp_def]

theorem upTo_succ (hg : 0 < g) : upTo spans (g + 1) = upTo spans g ++ ofGroup spans g := by
  obtain ⟨m, rfl⟩ := Nat.exists_eq_succ_of_ne_zero (Nat.ne_of_gt hg)
  unfold upTo
  rw [Nat.add_sub_cancel, Nat.succ_sub_one, Nat.succ_eq_add_one, List.range'_concat,
    List.flatMap_append, List.flatMap_singleton, Nat.one_mul, Nat.add_comm 1]

theorem length_upTo_le {g' : Nat} (hg : 0 < g) (h : g ≤ g') :
    (upTo spans g).length ≤ (upTo spans g').length := by
  induction h with
  | refl => exact Nat.le_refl _
  | @step m hm ih =>
    rw [upTo_succ (Nat.lt_of_lt_of_le hg hm), List.length_append]
    omega

/-- The iterations of a group among those listed. -/
theorem filter_upTo (hg : 0 < g) (k : Nat) :
    (upTo spans g).filter (fun e => e.1.group = k) =
      if 0 < k ∧ k < g then ofGroup spans k else [] := by
  obtain ⟨m, rfl⟩ := Nat.exists_eq_succ_of_ne_zero (Nat.ne_of_gt hg)
  induction m with
  | zero => rw [if_neg (by omega)]; rfl
  | succ m ih =>
    have hold := ih (Nat.succ_pos m)
    rw [Nat.succ_eq_add_one, upTo_succ (Nat.succ_pos m), List.filter_append, hold]
    by_cases hk : k = m + 1
    · subst hk
      have hall : (ofGroup spans (m + 1)).filter (fun e => e.1.group = m + 1) =
          ofGroup spans (m + 1) :=
        List.filter_eq_self.2 fun e he => decide_eq_true (mem_ofGroup.1 he).1
      rw [hall, if_neg (by omega), if_pos (by omega), List.nil_append]
    · have hnone : (ofGroup spans (m + 1)).filter (fun e => e.1.group = k) = [] := by
        rw [List.filter_eq_nil_iff]
        intro e he hgroup
        have := (mem_ofGroup.1 he).1
        exact hk ((of_decide_eq_true hgroup).symm.trans this)
      rw [Nat.succ_eq_add_one, hnone, List.append_nil]
      by_cases hlt : 0 < k ∧ k < m + 1
      · rw [if_pos hlt, if_pos (by omega)]
      · rw [if_neg hlt, if_neg (by omega)]

/-- The place that an iteration is given: the whole match has place zero, and the others count
from one. -/
def place (spans : List (List Span)) (c : Iteration) : Nat :=
  if c.group = 0 then 0 else (upTo spans c.group).length + c.index + 1

/-- The iteration is the whole match or one of those that are placed. -/
def Placed (spans : List (List Span)) (c : Iteration) : Prop :=
  c = root ∨ 0 < c.group ∧ c.group < spans.length ∧ (c.span? spans).isSome

theorem mem_upTo {e : Iteration × Span} (hg : 0 < g) :
    e ∈ upTo spans g ↔ 0 < e.1.group ∧ e.1.group < g ∧ e.1.span? spans = some e.2 := by
  unfold upTo
  simp only [List.mem_flatMap, List.mem_range'_1, mem_ofGroup]
  constructor
  · rintro ⟨group, hrange, hgroup, hspan⟩
    exact ⟨by omega, by omega, hspan⟩
  · rintro ⟨hpos, hlt, hspan⟩
    exact ⟨e.1.group, by omega, rfl, hspan⟩

theorem index_lt (h : (c.span? spans).isSome) : c.index < (ofGroup spans c.group).length := by
  unfold span? at h
  unfold ofGroup
  cases hg : spans[c.group]? with
  | none => simp [hg] at h
  | some spansOf => simpa [hg] using h

/-- The place lies among those of the group. -/
theorem place_le (hpos : 0 < c.group) (h : (c.span? spans).isSome) :
    (upTo spans c.group).length < place spans c ∧
      place spans c ≤ (upTo spans (c.group + 1)).length := by
  have hindex := index_lt h
  have hplace : place spans c = (upTo spans c.group).length + c.index + 1 :=
    if_neg (Nat.ne_of_gt hpos)
  rw [upTo_succ hpos, List.length_append]
  omega

theorem place_le_length (h : Placed spans c) :
    place spans c ≤ (upTo spans spans.length).length := by
  rcases h with rfl | ⟨hpos, hlt, hspan⟩
  · exact Nat.zero_le _
  · exact Nat.le_trans (place_le hpos hspan).2 (length_upTo_le (Nat.succ_pos _) hlt)

/-- Different iterations have different places. -/
theorem place_inj (hc : Placed spans c) (hd : Placed spans d) (h : place spans c = place spans d) :
    c = d := by
  rcases hc with rfl | ⟨hcpos, -, hcspan⟩ <;> rcases hd with rfl | ⟨hdpos, -, hdspan⟩
  · rfl
  · have hbound := place_le hdpos hdspan
    have hroot : place spans root = 0 := rfl
    omega
  · have hbound := place_le hcpos hcspan
    have hroot : place spans root = 0 := rfl
    omega
  · have hcbound := place_le hcpos hcspan
    have hdbound := place_le hdpos hdspan
    -- groups are placed one after the other
    rcases Nat.lt_trichotomy c.group d.group with hlt | heq | hgt
    · have hle : (upTo spans (c.group + 1)).length ≤ (upTo spans d.group).length :=
        length_upTo_le (Nat.succ_pos _) hlt
      omega
    · obtain ⟨group, index⟩ := c
      obtain ⟨group', index'⟩ := d
      simp only at heq hcpos
      subst heq
      unfold place at h
      simp only [if_neg (Nat.ne_of_gt hcpos)] at h
      rw [show index = index' by omega]
    · have hle : (upTo spans (d.group + 1)).length ≤ (upTo spans c.group).length :=
        length_upTo_le (Nat.succ_pos _) hgt
      omega

theorem mem_before {e : Iteration × Span} (hpos : 0 < c.group) :
    e ∈ before spans c ↔ 0 < e.1.group ∧ e.1.span? spans = some e.2 ∧ e.1.Precedes c := by
  have htake : e ∈ (ofGroup spans c.group).take c.index ↔
      e.1.group = c.group ∧ e.1.index < c.index ∧ e.1.span? spans = some e.2 := by
    obtain ⟨⟨group, index⟩, span⟩ := e
    simp only [List.mem_iff_getElem?, List.getElem?_take, Option.ite_none_right_eq_some,
      getElem?_ofGroup, Option.map_eq_some_iff, Prod.mk.injEq, Iteration.mk.injEq]
    constructor
    · rintro ⟨i, hi, s, hspan, ⟨rfl, rfl⟩, rfl⟩
      exact ⟨rfl, hi, hspan⟩
    · rintro ⟨rfl, hi, hspan⟩
      exact ⟨index, hi, span, hspan, ⟨rfl, rfl⟩, rfl⟩
  unfold before
  rw [List.mem_append, mem_upTo hpos, htake]
  constructor
  · rintro (⟨hgroup, hlt, hspan⟩ | ⟨hgroup, hlt, hspan⟩)
    · exact ⟨hgroup, hspan, .inl hlt⟩
    · exact ⟨hgroup ▸ hpos, hspan, .inr ⟨hgroup, hlt⟩⟩
  · rintro ⟨hgroup, hspan, hlt | ⟨heq, hlt⟩⟩
    · exact .inl ⟨hgroup, hlt, hspan⟩
    · exact .inr ⟨heq, hlt, hspan⟩

/-- The last iteration of a list that contains a span is one of the list, unless it is the whole
match. -/
theorem latestOf_eq_root_or (listed : List (Iteration × Span)) (k : Nat) (span : Span) :
    latestOf listed k span = root ∨ ∃ e ∈ listed, latestOf listed k span = e.1 := by
  unfold latestOf
  cases hfind : (listed.filter fun e => e.1.group = k).reverse.find? fun e => e.2.contains span with
  | none => exact .inl rfl
  | some e =>
    have hmem := List.mem_reverse.1 (List.mem_of_find?_eq_some hfind)
    exact .inr ⟨e, (List.mem_filter.1 hmem).1, rfl⟩

/-- An iteration hangs below one of those that are placed. -/
theorem placed_host (hpos : 0 < c.group) (hlt : c.group < spans.length) :
    Placed spans (host parents spans c) := by
  unfold host
  cases c.span? spans with
  | none => exact .inl rfl
  | some span =>
    obtain hroot | ⟨e, he, heq⟩ :=
      latestOf_eq_root_or (before spans c) (parents[c.group]?.getD 0) span
    · exact .inl hroot
    · obtain ⟨hgroup, hspan, hprecedes⟩ := (mem_before hpos).1 he
      unfold Precedes at hprecedes
      simp only
      rw [heq]
      exact .inr ⟨hgroup, by omega, Option.isSome_of_eq_some hspan⟩

/-- All iterations of a parent with a smaller number are placed before an iteration. -/
theorem host_eq_latest {whole span : Span} {k : Nat} (hzero : spans[0]? = some [whole])
    (hparent : parents[c.group]? = some k) (hk : k < c.group) (hspan : c.span? spans = some span) :
    host parents spans c = latest parents spans c := by
  have hpos : 0 < c.group := Nat.lt_of_le_of_lt (Nat.zero_le k) hk
  have hlisted : ((before spans c).filter fun e => e.1.group = k) =
      if 0 < k then ofGroup spans k else [] := by
    have hnone : (((ofGroup spans c.group).take c.index).filter fun e => e.1.group = k) = [] := by
      rw [List.filter_eq_nil_iff]
      intro e he hek
      have hgroup := (mem_ofGroup.1 (List.mem_of_mem_take he)).1
      rw [of_decide_eq_true hek] at hgroup
      omega
    unfold before
    rw [List.filter_append, hnone, List.append_nil, filter_upTo hpos]
    simp [hk]
  unfold host latest latestOf
  rw [hspan, hparent]
  simp only [Option.getD_some, hlisted]
  by_cases hroot : 0 < k
  · rw [if_pos hroot]
  · obtain rfl : k = 0 := Nat.eq_zero_of_not_pos hroot
    -- group zero has one iteration, which is the whole match
    have hone : ofGroup spans 0 = [(root, whole)] := by
      unfold ofGroup
      rw [hzero]
      rfl
    rw [if_neg hroot, hone]
    cases hfind : [(root, whole)].reverse.find? fun e => e.2.contains span with
    | none => rfl
    | some e =>
      obtain rfl := List.mem_singleton.1 (List.mem_of_find?_eq_some hfind)
      rfl

/-- How an iteration is placed. -/
def placement (parents : Array Nat) (spans : List (List Span)) (e : Iteration × Span) :
    Placement :=
  ⟨place spans e.1, e.1.group, e.2, place spans (host parents spans e.1)⟩

end Iteration

namespace Placements

open Iteration

variable {parents : Array Nat} {spans : List (List Span)} {p : Placements} {g : Nat}

/-- The iterations of a list have been placed, and no others. -/
structure Holds (parents : Array Nat) (spans : List (List Span)) (listed : List (Iteration × Span))
    (p : Placements) : Prop where
  count : p.count = listed.length
  groups : p.byGroup.size = spans.length
  byGroup : ∀ k < spans.length,
    p.byGroup[k]? = some ((listed.filter fun e => e.1.group = k).map
      (placement parents spans)).reverse

theorem holds_empty : Holds parents spans [] (.empty spans.length) where
  count := rfl
  groups := Array.size_replicate
  byGroup := by
    intro k hk
    unfold empty
    simp [hk]

/-- The host of a span is the latest of the group that contains it, among those placed. -/
theorem Holds.hostOf_eq {listed : List (Iteration × Span)} (h : Holds parents spans listed p)
    {k : Nat} (hk : k < spans.length) (span : Span) :
    p.hostOf k span = place spans (latestOf listed k span) := by
  unfold hostOf latestOf
  rw [h.byGroup k hk]
  simp only [Option.getD_some]
  rw [← List.map_reverse, List.find?_map, Option.map_map]
  show Option.getD (((listed.filter fun e => e.1.group = k).reverse.find?
    fun e => e.2.contains span).map _) 0 = _
  cases (listed.filter fun e => e.1.group = k).reverse.find? fun e => e.2.contains span with
  | none => rfl
  | some e => rfl

theorem Holds.add {listed : List (Iteration × Span)} (h : Holds parents spans listed p)
    {c : Iteration} {span : Span} {k : Nat} (hplace : place spans c = listed.length + 1)
    (hhost : p.hostOf k span = place spans (host parents spans c)) :
    Holds parents spans (listed ++ [(c, span)]) (add k c.group p span) where
  count := by
    rw [List.length_append, List.length_singleton, ← h.count]
    rfl
  groups := by
    rw [← h.groups]
    exact Array.size_modify
  byGroup := by
    intro j hj
    have hnew : (⟨p.count + 1, c.group, span, p.hostOf k span⟩ : Placement) =
        placement parents spans (c, span) := by
      rw [hhost, h.count, ← hplace]
      rfl
    show (p.byGroup.modify c.group (_ :: ·))[j]? = _
    rw [Array.getElem?_modify, h.byGroup j hj, hnew, List.filter_append]
    by_cases hgroup : c.group = j
    · rw [if_pos hgroup, List.filter_cons_of_pos (by simpa using hgroup)]
      simp
    · rw [if_neg hgroup, List.filter_cons_of_neg (by simpa using hgroup)]
      simp

/-- The iterations of a group are placed one after the other. -/
theorem Holds.addGroup {k : Nat} (hparent : parents[g]? = some k) (hk : k < spans.length)
    (hpos : 0 < g) {earlier later : List (Iteration × Span)}
    (hsplit : ofGroup spans g = earlier ++ later)
    (h : Holds parents spans (upTo spans g ++ earlier) p) :
    Holds parents spans (upTo spans (g + 1))
      ((later.map Prod.snd).foldl (Placements.add k g) p) := by
  induction later generalizing earlier p with
  | nil =>
    rw [List.append_nil] at hsplit
    rw [upTo_succ hpos, hsplit]
    exact h
  | cons e later ih =>
    obtain ⟨c, span⟩ := e
    have hmem : (c, span) ∈ ofGroup spans g := hsplit ▸ List.mem_append_right _ List.mem_cons_self
    obtain ⟨hgroup, hspan⟩ := mem_ofGroup.1 hmem
    simp only at hgroup hspan
    subst hgroup
    have hindex : c.index = earlier.length := by
      have hget := getElem?_ofGroup spans c.group earlier.length
      rw [hsplit, List.getElem?_append_right (Nat.le_refl _), Nat.sub_self] at hget
      obtain ⟨s, -, heq⟩ := Option.map_eq_some_iff.1 hget.symm
      exact (congrArg (fun e => e.1.index) heq).symm
    have hplace : place spans c = (upTo spans c.group ++ earlier).length + 1 := by
      rw [List.length_append, ← hindex]
      exact if_neg (Nat.ne_of_gt hpos)
    have hbefore : before spans c = upTo spans c.group ++ earlier := by
      unfold before
      rw [hsplit, hindex, List.take_left]
    have hhost : p.hostOf k span = place spans (host parents spans c) := by
      rw [h.hostOf_eq hk, ← hbefore]
      unfold host
      rw [hspan, hparent, Option.getD_some]
    have hadd := h.add hplace hhost
    rw [List.append_assoc] at hadd
    exact ih (by rw [hsplit, List.append_assoc, List.singleton_append]) hadd

/-- Once all groups have been placed, everything has been placed. -/
theorem Holds.addFrom
    (hparents : ∀ g, 0 < g → g < spans.length → ∃ k, parents[g]? = some k ∧ k < spans.length)
    {g : Nat} {p : Placements} (hpos : 0 < g) (hle : g ≤ spans.length)
    (h : Holds parents spans (upTo spans g) p) :
    Holds parents spans (upTo spans spans.length)
      (Placements.addFrom parents g p (spans.drop g)) := by
  by_cases hg : g = spans.length
  · subst hg
    rw [List.drop_length]
    exact h
  · have hlt : g < spans.length := by omega
    obtain ⟨k, hparent, hk⟩ := hparents g hpos hlt
    rw [List.drop_eq_getElem_cons hlt, Placements.addFrom, hparent, Option.getD_some]
    rw [← List.append_nil (upTo spans g)] at h
    have hgroup := h.addGroup hparent hk hpos (List.nil_append (ofGroup spans g)).symm
    rw [map_snd_ofGroup, List.getElem?_eq_getElem hlt, Option.getD_some] at hgroup
    exact Holds.addFrom hparents (Nat.succ_pos g) hlt hgroup
termination_by spans.length - g

/-- The iterations as they are placed, newest first. -/
theorem Holds.newestFirst (h : Holds parents spans (upTo spans spans.length) p)
    (hpos : 0 < spans.length) :
    p.newestFirst = ((upTo spans spans.length).map (placement parents spans)).reverse := by
  obtain ⟨m, hm⟩ := Nat.exists_eq_succ_of_ne_zero (Nat.ne_of_gt hpos)
  have hgroups : p.byGroup.toList = (List.range spans.length).map fun k =>
      if 0 < k then ((ofGroup spans k).map (placement parents spans)).reverse else [] := by
    refine List.ext_getElem? fun k => ?_
    rw [Array.getElem?_toList, List.getElem?_map]
    by_cases hk : k < spans.length
    · rw [h.byGroup k hk, List.getElem?_range hk, filter_upTo hpos]
      by_cases hzero : 0 < k <;> simp [hzero, hk]
    · rw [List.getElem?_eq_none (by simpa using hk),
        Array.getElem?_eq_none (by rw [h.groups]; omega)]
      rfl
  have hrest : ((List.range' 1 m).map fun k =>
      if 0 < k then ((ofGroup spans k).map (placement parents spans)).reverse else []) =
      ((List.range' 1 m).map fun k => (ofGroup spans k).map (placement parents spans)).map
        List.reverse := by
    rw [List.map_map]
    refine List.map_congr_left fun k hk => ?_
    rw [if_pos (by have := List.mem_range'_1.1 hk; omega)]
    rfl
  unfold Placements.newestFirst upTo
  rw [hgroups, hm, Nat.succ_sub_one, List.range_eq_range', Nat.succ_eq_add_one, List.range'_succ,
    List.map_cons, if_neg (Nat.lt_irrefl 0), hrest, List.reverse_cons, List.flatten_append,
    List.map_flatMap, List.flatMap_def, List.reverse_flatten]
  simp

end Placements

namespace SpanTree

open Iteration

variable {parents : Array Nat} {spans : List (List Span)}

/-- Below a place hangs what hangs below the iteration that is placed there. -/
theorem underPlace_placement {listed : List (Iteration × Span)} {it : Iteration}
    (hit : Placed spans it)
    (hlisted : ∀ e ∈ listed, Placed spans e.1 ∧ Placed spans (host parents spans e.1)) :
    underPlace (listed.map (placement parents spans)) (place spans it) =
      under (host parents spans) listed it := by
  induction listed generalizing it with
  | nil => rfl
  | cons e later ih =>
    obtain ⟨c, span⟩ := e
    obtain ⟨⟨hc, hplaced⟩, hlater⟩ := List.forall_mem_cons.1 hlisted
    have hhost : place spans (host parents spans c) = place spans it ↔
        host parents spans c = it :=
      ⟨place_inj hplaced hit, congrArg _⟩
    have hself := ih hc hlater
    have hother := ih hit hlater
    show (if place spans (host parents spans c) = place spans it then
        branch c.group span (underPlace _ (place spans c)) :: underPlace _ _
      else underPlace _ _) = _
    rw [under, hself, hother]
    by_cases h : host parents spans c = it
    · rw [if_pos h, if_pos (hhost.2 h)]
    · rw [if_neg h, if_neg (mt hhost.1 h)]

theorem under_congr {host host' : Iteration → Iteration} {listed : List (Iteration × Span)}
    (h : ∀ e ∈ listed, host e.1 = host' e.1) (it : Iteration) :
    under host listed it = under host' listed it := by
  induction listed generalizing it with
  | nil => rfl
  | cons e later ih =>
    obtain ⟨heq, hlater⟩ := List.forall_mem_cons.1 h
    rw [under, under, ih hlater, ih hlater, heq]

/-- **The tree of some spans.** Every iteration hangs below the latest iteration of its parent that
was placed before it and contains it. -/
theorem nest_eq_ofHosts {whole : Span} (hpos : 0 < spans.length)
    (hparents : ∀ g, 0 < g → g < spans.length → ∃ k, parents[g]? = some k ∧ k < spans.length) :
    nest parents whole spans = ofHosts (host parents spans) whole spans := by
  have hempty : Placements.Holds parents spans (upTo spans 1) (.empty spans.length) :=
    Placements.holds_empty
  have hplaced := hempty.addFrom hparents Nat.zero_lt_one hpos
  have hlisted : ∀ e ∈ upTo spans spans.length,
      Placed spans e.1 ∧ Placed spans (host parents spans e.1) := by
    intro e he
    obtain ⟨hgroup, hlt, hspan⟩ := (mem_upTo hpos).1 he
    exact ⟨.inr ⟨hgroup, hlt, Option.isSome_of_eq_some hspan⟩, placed_host hgroup hlt⟩
  have hhosts : ∀ p ∈ (upTo spans spans.length).map (placement parents spans), p.host <
      (Array.replicate ((upTo spans spans.length).length + 1) ([] : List SpanTree)).size := by
    intro p hp
    obtain ⟨e, he, rfl⟩ := List.mem_map.1 hp
    have hle := place_le_length (hlisted e he).2
    rw [Array.size_replicate]
    exact Nat.lt_succ_of_le hle
  have hassemble := assemble_eq whole _ [] hhosts fun place => by
    rw [Array.getElem?_replicate]
    split <;> rfl
  rw [List.append_nil] at hassemble
  unfold nest ofHosts
  rw [← List.drop_one]
  simp only
  rw [hplaced.newestFirst hpos, hplaced.count, hassemble,
    ← underPlace_placement (.inl rfl) hlisted]
  rfl

/-- Where every group has a parent with a smaller number, every iteration hangs below the latest
iteration of its parent that contains it. -/
theorem nest_eq {whole : Span} (hzero : spans[0]? = some [whole])
    (hparents : ∀ g, 0 < g → g < spans.length → ∃ k, parents[g]? = some k ∧ k < g) :
    nest parents whole spans = ofHosts (latest parents spans) whole spans := by
  obtain ⟨hpos, -⟩ := List.getElem?_eq_some_iff.1 hzero
  have hexist : ∀ g, 0 < g → g < spans.length → ∃ k, parents[g]? = some k ∧ k < spans.length := by
    intro g hg hlt
    obtain ⟨k, hparent, hk⟩ := hparents g hg hlt
    exact ⟨k, hparent, Nat.lt_trans hk hlt⟩
  rw [nest_eq_ofHosts hpos hexist]
  unfold ofHosts
  rw [under_congr fun e he => ?_]
  obtain ⟨hgroup, hlt, hspan⟩ := (mem_upTo hpos).1 he
  obtain ⟨k, hparent, hk⟩ := hparents e.1.group hgroup hlt
  exact host_eq_latest hzero hparent hk hspan

end SpanTree

end Submatch
