import Submatch.Proofs.Automaton.ContractedRoutes
import Submatch.Proofs.Matcher.Spans
import Submatch.Proofs.Pattern.Uncapture

/-!
# Capturing does not influence matching

A pattern in which some groups do not capture matches the same texts, up to the same offset, and
reports for every group that captures still the spans and histories that it has in the pattern
itself, under its new number (`Matcher.interpret_uncapture`).
-/

namespace Submatch

variable {σ : Selection}

theorem Motion.chars_select (ms : List Motion) :
    Motion.chars (Motion.select σ ms) = Motion.chars ms := by
  induction ms with
  | nil => rfl
  | cons m ms ih =>
    cases m with
    | read c => rw [select_read, chars_read, chars_read, ih]
    | choose isFirst => rw [select_choose, chars_choose, chars_choose, ih]
    | pass tag =>
      cases hkeeps : σ.keeps tag.group with
      | true => rw [select_pass_of_keeps hkeeps, chars_pass, chars_pass, ih]
      | false => rw [select_pass_of_not_keeps hkeeps, chars_pass, ih]

/-- The boundaries of a group that is kept have the same offsets. -/
theorem Event.positions_select {g : Nat} (hg : σ.keeps g = true) (boundary : Boundary) (p : Nat)
    (ms : List Motion) :
    positions ⟨σ.rank g, boundary⟩ (Motion.events p (Motion.select σ ms)) =
      positions ⟨g, boundary⟩ (Motion.events p ms) := by
  induction ms generalizing p with
  | nil => rfl
  | cons m ms ih =>
    cases m with
    | read c =>
      rw [Motion.select_read]
      exact ih (p + 1)
    | choose isFirst =>
      rw [Motion.select_choose]
      exact ih p
    | pass tag =>
      have hevents : Motion.events p (.pass tag :: ms) = ⟨tag, p⟩ :: Motion.events p ms := rfl
      rw [hevents, positions_cons]
      cases hkeeps : σ.keeps tag.group with
      | true =>
        have htag : tag.select σ = ⟨σ.rank g, boundary⟩ ↔ tag = ⟨g, boundary⟩ := by
          obtain ⟨group, boundary'⟩ := tag
          simp only [Tag.select, Tag.mk.injEq, Selection.rank_inj hkeeps hg]
        have hselect : Motion.events p (.pass (tag.select σ) :: Motion.select σ ms) =
            ⟨tag.select σ, p⟩ :: Motion.events p (Motion.select σ ms) := rfl
        rw [Motion.select_pass_of_keeps hkeeps, hselect, positions_cons, ih p]
        simp only [htag]
      | false =>
        have hne : tag ≠ ⟨g, boundary⟩ := by
          rintro rfl
          rw [hg] at hkeeps
          cases hkeeps
        rw [Motion.select_pass_of_not_keeps hkeeps, if_neg hne, ih p]

/-- The history of a tag, if the text matches. -/
def Outcome.history? (o : Outcome) (tag : Tag) : Option (List Nat) :=
  o.histories?.bind fun histories => histories[tag.index]?

/-- The outcomes agree in everything but the groups left out. -/
structure Outcome.Agrees (σ : Selection) (groups : Nat) (o o' : Outcome) : Prop where
  isMatch : o'.isMatch = o.isMatch
  stop : o'.end? = o.end?
  spans : ∀ g < groups, σ.keeps g = true → o'.spans (σ.rank g) = o.spans g
  histories : ∀ g < groups, σ.keeps g = true → ∀ boundary,
    o'.history? ⟨σ.rank g, boundary⟩ = o.history? ⟨g, boundary⟩

namespace NumberedPattern

variable {n n' : NumberedPattern} {text : List Char}

/-- The first route of the selected pattern is the first route of the pattern without the boundaries
left out. -/
theorem head?_routes_select (h : n'.pattern = n.pattern.select σ) (text : List Char) :
    ((Automaton.ofPattern n').routes ∅ (Automaton.ofPattern n').start text).head? =
      ((Automaton.ofPattern n).routes ∅ (Automaton.ofPattern n).start text).head?.map
        (Motion.select σ) := by
  have hA := Automaton.closed_ofPattern n
  have hcontracts := Automaton.contracts_ofPattern h
  rw [hcontracts.start, hcontracts.routes hA text hA.start (Automaton.avoids_empty ..),
    List.head?_map]

/-- **The outcome of the selected pattern.** -/
theorem agrees_outcome (hsound : n.Sound) (hnumbered : n.Numbered) (hsound' : n'.Sound)
    (hnumbered' : n'.Numbered) (hpattern : n'.pattern = n.pattern.select σ)
    (hparents : n'.parents.size = σ.rank n.parents.size) (text : List Char) :
    (n.outcome text).Agrees σ n.parents.size (n'.outcome text) := by
  have hA := Automaton.wellFormed_ofPattern n
  have hA' := Automaton.wellFormed_ofPattern n'
  have hhead := head?_routes_select hpattern text
  rcases n.none_or_first text with hnone | ⟨ms, hfirst⟩
  · rw [(Automaton.head?_routes_eq_none_iff hA).2 hnone, Option.map_none,
      Automaton.head?_routes_eq_none_iff hA'] at hhead
    rw [outcome_of_none hnone, outcome_of_none hhead]
    exact ⟨rfl, rfl, fun _ _ _ => rfl, fun _ _ _ _ => rfl⟩
  · rw [(Automaton.head?_routes_eq_some_iff hA).2 hfirst, Option.map_some,
      Automaton.head?_routes_eq_some_iff hA'] at hhead
    have htour := tour_of_admissible hfirst.admissible
    have htour' := tour_of_admissible hhead.admissible
    have hcomplete := Pattern.complete_tours hnumbered.hosted htour
    have hcomplete' := Pattern.complete_tours hnumbered'.hosted htour'
    have hend := Pattern.end?_tour hsound.parents htour
    have hend' := Pattern.end?_tour hsound'.parents htour'
    rw [outcome_of_first hfirst, outcome_of_first hhead]
    refine ⟨?_, ?_, fun g hg hkeeps => ?_, fun g hg hkeeps boundary => ?_⟩
    · rw [Outcome.isMatch_of_end? hend, Outcome.isMatch_of_end? hend']
    · rw [hend, hend', Motion.chars_select]
    · have hlt : σ.rank g < n'.parents.size := hparents ▸ Selection.rank_lt hkeeps hg
      rw [Outcome.ofEvents_complete hsound.parents hcomplete,
        Outcome.ofEvents_complete hsound'.parents hcomplete']
      simp only [Outcome.spans]
      rw [Event.getElem?_spans hlt, Event.getElem?_spans hg]
      simp only [Event.iterations, Event.positions_select hkeeps]
    · have hlt : σ.rank g < n'.parents.size := hparents ▸ Selection.rank_lt hkeeps hg
      have hold := @Event.getElem?_histories n.parents.size ⟨g, boundary⟩ hg (Motion.events 0 ms)
      have hnew := @Event.getElem?_histories n'.parents.size ⟨σ.rank g, boundary⟩ hlt
        (Motion.events 0 (Motion.select σ ms))
      rw [Outcome.ofEvents_complete hsound.parents hcomplete,
        Outcome.ofEvents_complete hsound'.parents hcomplete']
      simp only [Outcome.history?, Outcome.histories?, Option.bind_some]
      rw [hold, hnew, Event.positions_select hkeeps]

end NumberedPattern

namespace Matcher

variable {config : Config} {pattern : String} {n : NumberedPattern}

/-- There is an entry in the table of parents for every group, and for group zero. -/
theorem Serves.groupCount_succ {m : Matcher} (h : m.Serves n) (hn : n.Sound) :
    m.groupCount + 1 = n.parents.size := by
  have hcount : m.groupCount = n.parents.size - 1 :=
    congrArg (fun M => M.automaton.groupCount) h.machine
  have := hn.parents
  omega

end Matcher

end Submatch
