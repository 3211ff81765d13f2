import Submatch.Matcher
import Submatch.Proofs.Capture.Outcome
import Submatch.Proofs.Dfa.Session
import Submatch.Proofs.Pattern.Reader

/-!
# Calls of a matcher

A matcher that serves a pattern reports on every text the outcome of the first route
(`Serves.interpret`), and serves the pattern afterwards. So it makes no difference what has been
matched before, or when the table has been packed (`interpret_transparent`).
-/

namespace Submatch

/-- The outcome of a text: that of the first route, if there is one. -/
def NumberedPattern.outcome (n : NumberedPattern) (text : List Char) : Outcome :=
  match ((Automaton.ofPattern n).routes ∅ (Automaton.ofPattern n).start text).head? with
  | none => .noMatch
  | some ms => .ofEvents n.parents (Motion.events 0 ms)

namespace NumberedPattern

variable {n : NumberedPattern} {text : List Char} {ms : List Motion}

theorem outcome_of_first (h : (Automaton.ofPattern n).IsFirstRoute text ms) :
    n.outcome text = .ofEvents n.parents (Motion.events 0 ms) := by
  unfold outcome
  rw [(Automaton.head?_routes_eq_some_iff (Automaton.wellFormed_ofPattern n)).2 h]

theorem outcome_of_none (h : ∀ ms, ¬ (Automaton.ofPattern n).Admissible text ms Automaton.final) :
    n.outcome text = .noMatch := by
  unfold outcome
  rw [(Automaton.head?_routes_eq_none_iff (Automaton.wellFormed_ofPattern n)).2 h]

/-- A text has no way to be accepted, or a first one. -/
theorem none_or_first (n : NumberedPattern) (text : List Char) :
    (∀ ms, ¬ (Automaton.ofPattern n).Admissible text ms Automaton.final) ∨
      ∃ ms, (Automaton.ofPattern n).IsFirstRoute text ms := by
  have hA := Automaton.wellFormed_ofPattern n
  cases hhead : ((Automaton.ofPattern n).routes ∅ (Automaton.ofPattern n).start text).head? with
  | none => exact .inl ((Automaton.head?_routes_eq_none_iff hA).1 hhead)
  | some ms => exact .inr ⟨ms, (Automaton.head?_routes_eq_some_iff hA).1 hhead⟩

/-- An admissible way to accept is a tour of group zero. -/
theorem tour_of_admissible (h : (Automaton.ofPattern n).Admissible text ms Automaton.final) :
    ms ∈ (Pattern.group 0 n.pattern).tours :=
  (Automaton.path_ofPattern_iff n).1 h.path

end NumberedPattern

namespace Matcher

/-- The matcher is one of the pattern, and what it has built is right. -/
structure Serves (m : Matcher) (n : NumberedPattern) : Prop where
  machine : m.machine = .ofPattern n
  cache : m.cache.Valid (.ofPattern n)

variable {m : Matcher} {n : NumberedPattern} {config : Config} {pattern : String}

theorem serves_compile (h : compile config pattern = .ok m) :
    ∃ n, NumberedPattern.read config.toLimits pattern = .ok n ∧ m.Serves n := by
  obtain ⟨n, hread, hmatcher⟩ := bind_eq_ok.1 h
  cases hmatcher
  exact ⟨n, hread, rfl, Cache.valid_empty _⟩

theorem exists_compile (h : NumberedPattern.read config.toLimits pattern = .ok n) :
    ∃ m, compile config pattern = .ok m ∧ m.Serves n := by
  refine ⟨⟨pattern, config, .ofPattern n, .empty, ⟨0⟩, 0⟩, ?_, rfl, Cache.valid_empty _⟩
  unfold compile
  rw [h]
  rfl

/-- Whether the table is packed or not, the matcher serves. -/
theorem Serves.record (h : m.Serves n) (built : Nat) : (m.record built).Serves n := by
  unfold Matcher.record
  split
  · exact ⟨h.machine, h.cache⟩
  · simp only
    split
    · exact ⟨h.machine, h.cache⟩
    · exact ⟨h.machine, h.cache.pack⟩

theorem tagCount_ofPattern (hn : n.Sound) :
    (Automaton.ofPattern n).tagCount = 2 * n.parents.size := by
  have := hn.parents
  show 2 * (n.parents.size - 1 + 1) = 2 * n.parents.size
  omega

/-- What is recorded along a route amounts to an outcome. -/
theorem ofHistories_route (hn : n.Sound) {text : List Char} {ms : List Motion}
    (h : ms ∈ (Automaton.ofPattern n).routes ∅ (Automaton.ofPattern n).start text) :
    Outcome.ofHistories n.parents
        ((Event.record (Motion.events 0 ms)
          (List.replicate (Automaton.ofPattern n).tagCount [])).map List.reverse) =
      .ok (.ofEvents n.parents (Motion.events 0 ms)) := by
  have hadmissible := (Automaton.mem_routes_start (Automaton.wellFormed_ofPattern n)).1 h
  have htour := NumberedPattern.tour_of_admissible hadmissible
  have hbalanced := Event.balanced_events (Pattern.balanced_tours _ ms htour) 0
  rw [tagCount_ofPattern hn, Event.reverse_record, Outcome.ofHistories_events hbalanced]

/-- **A matcher reports the outcome of its pattern.** Matching succeeds, gives the outcome of the
first route, and leaves a matcher that serves as well. -/
theorem Serves.interpret (h : m.Serves n) (hn : n.Sound) (text : String) :
    ∃ m', m.interpret text = .ok (n.outcome text.toList, m') ∧ m'.Serves n := by
  have hA := Automaton.wellFormed_ofPattern n
  obtain ⟨accepted, s, hrun, hs, hreports⟩ :=
    Session.run_reports (s := ⟨m.cache, m.ids, 0⟩) hA h.cache text.toList
  have hmachine : m.machine = .ofAutomaton (.ofPattern n) := h.machine
  rw [← hmachine] at hrun
  have hkept : Matcher.Serves { m with cache := s.cache, ids := s.ids } n := ⟨h.machine, hs⟩
  have hserves := hkept.record s.built
  refine ⟨_, ?_, hserves⟩
  unfold Matcher.interpret NumberedPattern.outcome
  simp only [hrun, bind, Except.bind]
  -- whether the table was packed does not show in what follows
  generalize Matcher.record _ s.built = m' at hserves ⊢
  have hmachine' : m'.machine = .ofAutomaton (.ofPattern n) := hserves.machine
  rw [Contender.winner_start] at hreports
  cases hhead : ((Automaton.ofPattern n).routes ∅ (Automaton.ofPattern n).start
      text.toList).head? with
  | none =>
    rw [hhead] at hreports
    subst hreports
    rfl
  | some ms =>
    rw [hhead] at hreports
    obtain ⟨file, rfl, haccepted⟩ := hreports
    have hrecorded := haccepted.recorded
    have houtcome := ofHistories_route hn (List.mem_of_head? hhead)
    have hlayout : m'.machine.layout = .ofAutomaton (.ofPattern n) :=
      congrArg Machine.layout hmachine'
    have hparents : m'.machine.automaton.parents = n.parents :=
      congrArg (fun M => M.automaton.parents) hmachine'
    simp only [hlayout, hrecorded, hparents, houtcome]
    rfl

/-- A call of a matcher. -/
inductive Call where
  | interpret (text : String)
  | isMatch (text : String)
  deriving DecidableEq, Repr

/-- Make a call and keep the matcher. -/
def perform (m : Matcher) : Call → Except Fault Matcher
  | .interpret text => do return (← m.interpret text).2
  | .isMatch text => do return (← m.isMatch text).2

theorem Serves.isMatch (h : m.Serves n) (hn : n.Sound) (text : String) :
    ∃ m', m.isMatch text = .ok ((n.outcome text.toList).isMatch, m') ∧ m'.Serves n := by
  obtain ⟨m', hinterpret, hm'⟩ := h.interpret hn text
  refine ⟨m', ?_, hm'⟩
  simp only [Matcher.isMatch, hinterpret]
  rfl

theorem Serves.perform (h : m.Serves n) (hn : n.Sound) (call : Call) :
    ∃ m', m.perform call = .ok m' ∧ m'.Serves n := by
  cases call with
  | interpret text =>
    obtain ⟨m', hinterpret, hm'⟩ := h.interpret hn text
    refine ⟨m', ?_, hm'⟩
    simp only [Matcher.perform, hinterpret]
    rfl
  | isMatch text =>
    obtain ⟨m', hisMatch, hm'⟩ := h.isMatch hn text
    refine ⟨m', ?_, hm'⟩
    simp only [Matcher.perform, hisMatch]
    rfl

/-- Whatever is called succeeds and leaves a matcher that serves. -/
theorem Serves.replay (h : m.Serves n) (hn : n.Sound) (calls : List Call) :
    ∃ m', calls.foldlM Matcher.perform m = .ok m' ∧ m'.Serves n :=
  foldlM_ok (fun _ call hm => Serves.perform hm hn call) calls h

/-- Whatever has been called before, a matcher reports the outcome of the pattern that it was
compiled from. -/
theorem outcome_eq {used used' : Matcher} {calls : List Call} {text : String} {outcome : Outcome}
    (hread : NumberedPattern.read config.toLimits pattern = .ok n)
    (hcompile : compile config pattern = .ok m)
    (hreplay : calls.foldlM Matcher.perform m = .ok used)
    (hinterpret : used.interpret text = .ok (outcome, used')) :
    outcome = n.outcome text.toList := by
  obtain ⟨n', hread', hm⟩ := serves_compile hcompile
  obtain rfl := Except.ok.inj (hread.symm.trans hread')
  have hn := NumberedPattern.read_sound hread
  obtain ⟨m', hreplay', hused⟩ := hm.replay hn calls
  obtain rfl := Except.ok.inj (hreplay.symm.trans hreplay')
  obtain ⟨later, hreported, -⟩ := hused.interpret hn text
  exact congrArg Prod.fst (Except.ok.inj (hinterpret.symm.trans hreported))

/-- **What has been built makes no difference.** After any calls, and with whatever setting for
packing the table, a matcher reports on a text what a new matcher of the pattern reports. The
same holds of sessions with its machine, after any runs and packings. -/
theorem interpret_transparent (h : compile config pattern = .ok m) :
    (∀ (calls : List Call) (freezeAfter : Nat) (text : String),
      ∃ used new outcome used' new', calls.foldlM Matcher.perform m = .ok used ∧
        compile { config with freezeAfter } pattern = .ok new ∧
          used.interpret text = .ok (outcome, used') ∧ new.interpret text = .ok (outcome, new')) ∧
    ∀ (deeds : List Session.Deed) (text : List Char),
      ∃ s report, deeds.foldlM (Session.perform m.machine) .fresh = .ok s ∧
        s.report m.machine text = .ok report ∧
          Session.fresh.report m.machine text = .ok report := by
  obtain ⟨n, hread, hm⟩ := serves_compile h
  have hn := NumberedPattern.read_sound hread
  refine ⟨fun calls freezeAfter text => ?_, fun deeds text => ?_⟩
  · obtain ⟨used, hreplay, hused⟩ := hm.replay hn calls
    have hread' : NumberedPattern.read { config with freezeAfter }.toLimits pattern = .ok n := hread
    obtain ⟨new, hcompile, hnew⟩ := exists_compile hread'
    obtain ⟨used', hinterpret, -⟩ := hused.interpret hn text
    obtain ⟨new', hinterpret', -⟩ := hnew.interpret hn text
    exact ⟨used, new, n.outcome text.toList, used', new', hreplay, hcompile, hinterpret,
      hinterpret'⟩
  · have hA := Automaton.wellFormed_ofPattern n
    have hmachine : m.machine = .ofAutomaton (.ofPattern n) := hm.machine
    obtain ⟨s, hreplay, hs⟩ := Session.replay_valid hA deeds
    have hfresh := Cache.valid_empty (Automaton.ofPattern n)
    rw [hmachine]
    exact ⟨s, _, hreplay, Session.report_valid hA hs text, Session.report_valid hA hfresh text⟩

/-- A matcher that has matched other texts, and one that never packs its table. -/
theorem interpret_transparent_star : ∃ m, compile {} "(a|b)*" = .ok m ∧
    ∃ used new outcome used' new',
      [Call.interpret "ab", .isMatch "c"].foldlM Matcher.perform m = .ok used ∧
        compile { freezeAfter := 0 } "(a|b)*" = .ok new ∧
          used.interpret "ba" = .ok (outcome, used') ∧ new.interpret "ba" = .ok (outcome, new') := by
  have hread : NumberedPattern.read ({} : Config).toLimits "(a|b)*" =
      .ok ⟨.repeated (.group 1 (.alt (.char 'a') (.char 'b'))) ⟨0, none, false⟩, #[0, 0]⟩ := by
    cbv
  obtain ⟨m, hcompile, -⟩ := exists_compile hread
  exact ⟨m, hcompile, (interpret_transparent hcompile).1 _ 0 _⟩

end Matcher

end Submatch
