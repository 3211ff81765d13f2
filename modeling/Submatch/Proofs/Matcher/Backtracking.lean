import Submatch.Proofs.Matcher.Calls
import Submatch.Proofs.Pattern.Search

/-!
# Backtracking and matching agree

Where every loop makes progress there are only finitely many tours that read on in a text, so
none of them comes to a place twice (`admissible_of_tour`). The first one tried by a backtracking
search is then the first route, which a matcher reports (`interpret_eq_search`).
-/

namespace Submatch

namespace NumberedPattern

variable {n : NumberedPattern} {text : List Char} {ms : List Motion}

theorem tries_search (hn : n.Sound) (hloops : n.pattern.LoopsProgress) (text : List Char) :
    Search.Tries text 0 (Pattern.group 0 n.pattern).tours
      ((Pattern.group 0 n.pattern).search text 0) :=
  Pattern.tries_search (p := .group 0 n.pattern) hn.bounded hloops 0

/-- A tour through a cycle could be made longer than all the tours that a search tries. -/
theorem admissible_of_tour (hn : n.Sound) (hloops : n.pattern.LoopsProgress)
    (htour : ms ∈ (Pattern.group 0 n.pattern).tours) (hon : Motion.chars ms <+: text) :
    (Automaton.ofPattern n).Admissible text ms Automaton.final := by
  have hpath := (Automaton.path_ofPattern_iff n).2 htour
  refine ⟨hpath, hon, ?_⟩
  by_contra htwice
  obtain ⟨listed, -, -, hmem⟩ := tries_search hn hloops text
  -- longer than the tours that are tried, all of them together
  obtain ⟨ns, hns, hchars, hlength⟩ :=
    Automaton.exists_longer_path hpath 0 (listed.flatten.length + 1) htwice
  have hlisted : ns ∈ listed := by
    rw [hmem, hchars]
    exact ⟨(Automaton.path_ofPattern_iff n).1 hns, hon⟩
  have hle := (List.sublist_flatten_of_mem hlisted).length_le
  omega

/-- **The outcome is the first result of the search.** -/
theorem outcome_eq_search (hn : n.Sound) (hloops : n.pattern.LoopsProgress) (text : List Char) :
    match (Pattern.group 0 n.pattern).search text 0 with
    | [] => n.outcome text = .noMatch
    | first :: _ => (n.outcome text).end? = some first.stop ∧
        n.outcome text = .ofEvents n.parents first.events := by
  obtain ⟨listed, hsearch, hpairwise, hmem⟩ := tries_search hn hloops text
  have hlisted : ∀ ms, (Automaton.ofPattern n).Admissible text ms Automaton.final ↔
      ms ∈ listed := by
    intro ms
    rw [hmem]
    constructor
    · intro h
      exact ⟨tour_of_admissible h, h.chars⟩
    · intro h
      exact admissible_of_tour hn hloops h.1 h.2
  rw [hsearch]
  cases listed with
  | nil =>
    refine outcome_of_none fun ms hms => ?_
    cases (hlisted ms).1 hms
  | cons first rest =>
    -- what is tried first precedes everything else that is tried
    have hadmissible := (hlisted first).2 List.mem_cons_self
    have hfirst : (Automaton.ofPattern n).IsFirstRoute text first := by
      refine ⟨hadmissible, fun ms hms => ?_⟩
      rcases List.mem_cons.1 ((hlisted ms).1 hms) with rfl | hrest
      · exact .inl rfl
      · exact .inr ((List.pairwise_cons.1 hpairwise).1 ms hrest)
    have hend := Pattern.end?_tour hn.parents (tour_of_admissible hadmissible)
    have hstop : (Attempt.along 0 first).stop = (Motion.chars first).length := Nat.zero_add _
    simp only [List.map_cons]
    rw [outcome_of_first hfirst, hend, hstop]
    exact ⟨rfl, rfl⟩

end NumberedPattern

namespace Matcher

variable {n : NumberedPattern} {config : Config} {pattern : String}

end Matcher

end Submatch
