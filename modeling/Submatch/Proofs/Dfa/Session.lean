import Submatch.Proofs.Automaton.Fragment
import Submatch.Proofs.Dfa.Run

/-!
# Sessions

Whatever has been done in a session before, a run gives the first route through the automaton
of the pattern (`run_first_route`): it accepts exactly if there is a route, and then the output
bank holds for every tag the offsets at which that route passes it.
-/

namespace Submatch

namespace Automaton

variable {A : Automaton} {text : List Char} {ms : List Motion}

theorem wellFormed_ofPattern (n : NumberedPattern) : (ofPattern n).WellFormed :=
  ⟨closed_ofPattern n, fun _ => accept_ofPattern_iff n⟩

/-- The routes from the start are the admissible ways to accept. -/
theorem mem_routes_start (hA : A.WellFormed) :
    ms ∈ A.routes ∅ A.start text ↔ A.Admissible text ms final := by
  rw [mem_routes 0]
  constructor
  · rintro ⟨⟨k, hk, hpath⟩, hchars, hvisits, -⟩
    obtain rfl := (hA.accept k).1 hk
    exact ⟨hpath, hchars, hvisits⟩
  · rintro ⟨hpath, hchars, hvisits⟩
    exact ⟨⟨final, (hA.accept final).2 rfl, hpath⟩, hchars, hvisits,
      fun q hq => absurd hq (Finset.notMem_empty q)⟩

/-- The route that is listed first is the first one. -/
theorem isFirstRoute_of_head? (hA : A.WellFormed)
    (h : (A.routes ∅ A.start text).head? = some ms) : A.IsFirstRoute text ms := by
  obtain ⟨rest, hroutes⟩ := List.head?_eq_some_iff.1 h
  refine ⟨(mem_routes_start hA).1 (List.mem_of_head? h), fun ns hns => ?_⟩
  have hmem := (mem_routes_start hA).2 hns
  have hpairwise := pairwise_routes A ∅ A.start text
  rw [hroutes] at hmem hpairwise
  rcases List.mem_cons.1 hmem with rfl | hmem
  · exact .inl rfl
  · exact .inr ((List.pairwise_cons.1 hpairwise).1 ns hmem)

/-- There is only one first route. -/
theorem IsFirstRoute.unique {ns : List Motion} (h : A.IsFirstRoute text ms)
    (h' : A.IsFirstRoute text ns) : ms = ns := by
  rcases h.precedes ns h'.admissible with heq | hprecedes
  · exact heq.symm
  · rcases h'.precedes ms h.admissible with heq | hprecedes'
    · exact heq
    · exact absurd hprecedes' hprecedes.asymm

theorem head?_routes_eq_some_iff (hA : A.WellFormed) :
    (A.routes ∅ A.start text).head? = some ms ↔ A.IsFirstRoute text ms := by
  refine ⟨isFirstRoute_of_head? hA, fun h => ?_⟩
  have hmem := (mem_routes_start hA).2 h.admissible
  cases hhead : (A.routes ∅ A.start text).head? with
  | none =>
    rw [List.head?_eq_none_iff.1 hhead] at hmem
    cases hmem
  | some ns => rw [(isFirstRoute_of_head? hA hhead).unique h]

theorem head?_routes_eq_none_iff (hA : A.WellFormed) :
    (A.routes ∅ A.start text).head? = none ↔ ∀ ms, ¬ A.Admissible text ms final := by
  rw [List.head?_eq_none_iff, List.eq_nil_iff_forall_not_mem]
  constructor
  · intro h ms hms
    exact h ms ((mem_routes_start hA).2 hms)
  · intro h ms hms
    exact h ms ((mem_routes_start hA).1 hms)

end Automaton

/-- The winner from the start accepts along the first route. -/
theorem Contender.winner_start (A : Automaton) (text : List Char) :
    winner A 0 text [⟨A.start, List.replicate A.tagCount []⟩] =
      (A.routes ∅ A.start text).head?.map fun ms =>
        Event.record (Motion.events 0 ms) (List.replicate A.tagCount []) := by
  unfold winner
  rw [List.flatMap_singleton, finishes, List.head?_map]

namespace Session

/-- What may be done in a session: a run on a text, or packing the table. -/
inductive Deed where
  | run (text : List Char)
  | pack
  deriving DecidableEq, Repr

/-- Do something in a session. -/
def perform (M : Machine) (s : Session) : Deed → Except Fault Session
  | .run text => do return (← s.run M text).2
  | .pack => return { s with cache := s.cache.pack }

variable {A : Automaton} {s : Session}

theorem perform_valid (hA : A.WellFormed) (hs : s.cache.Valid A) (deed : Deed) :
    ∃ s', s.perform (.ofAutomaton A) deed = .ok s' ∧ s'.cache.Valid A := by
  cases deed with
  | pack => exact ⟨_, rfl, hs.pack⟩
  | run text =>
    obtain ⟨outcome, s', hrun, hvalid, -⟩ := run_reports hA hs text
    refine ⟨s', ?_, hvalid⟩
    simp only [perform, hrun]
    rfl

/-- Whatever is done in a session succeeds and leaves a valid cache. -/
theorem replay_valid (hA : A.WellFormed) (deeds : List Deed) :
    ∃ s, deeds.foldlM (perform (.ofAutomaton A)) fresh = .ok s ∧ s.cache.Valid A :=
  foldlM_ok (fun _ deed hs => perform_valid hA hs deed) deeds (Cache.valid_empty A)

/-- An output register of an accepting run holds the offsets of its tag. -/
theorem Accepted.get {file : RegisterFile} {es : List Event}
    (h : Accepted A file (Event.record es (List.replicate A.tagCount []))) {tag : Tag}
    (htag : tag.index < A.tagCount) :
    ∃ slot history, (Layout.ofAutomaton A).output tag.index = .ok slot ∧
      file.get slot = .ok history ∧
        history.positions = (Event.positions tag es).reverse := by
  have hslots : (Layout.ofAutomaton A).slots =
      A.tagCount + (Layout.ofAutomaton A).working + 1 := rfl
  obtain ⟨history, hget, hpositions⟩ := h.sound.get (Nat.lt_of_lt_of_le htag (by omega))
  refine ⟨tag.index, history, if_pos htag, hget, ?_⟩
  have houtput := congrArg (·[tag.index]?) h.output
  simp only [Event.getElem?_record_replicate es htag, List.getElem?_map,
    List.getElem?_range htag, Option.map_some, Option.some_inj] at houtput
  rw [hpositions, houtput]

theorem index_lt_tagCount {tag : Tag} (h : tag.group ≤ A.groupCount) :
    tag.index < A.tagCount := by
  obtain ⟨group, boundary⟩ := tag
  have hcount : A.tagCount = 2 * (A.groupCount + 1) := rfl
  cases boundary with
  | opening =>
    show 2 * group < _
    simp only at h
    omega
  | closing =>
    show 2 * group + 1 < _
    simp only at h
    omega

/-- What a run reports: the positions recorded for every tag, newest first, if the text
matches. -/
def report (M : Machine) (text : List Char) (s : Session) :
    Except Fault (Option (List (List Nat))) := do
  match ← s.run M text with
  | (none, _) => return none
  | (some file, _) => return some (← file.recorded M.layout)

/-- What is reported does not depend on the session, as long as its cache is valid. -/
theorem report_valid (hA : A.WellFormed) (hs : s.cache.Valid A) (text : List Char) :
    s.report (.ofAutomaton A) text = .ok ((A.routes ∅ A.start text).head?.map fun ms =>
      Event.record (Motion.events 0 ms) (List.replicate A.tagCount [])) := by
  obtain ⟨outcome, s', hrun, -, hreports⟩ := run_reports hA hs text
  rw [Contender.winner_start] at hreports
  unfold report
  rw [hrun]
  generalize (A.routes ∅ A.start text).head?.map _ = r at hreports ⊢
  cases r with
  | none =>
    subst hreports
    rfl
  | some histories =>
    obtain ⟨file, rfl, haccepted⟩ := hreports
    have hrecorded : file.recorded (Machine.ofAutomaton A).layout = .ok histories :=
      haccepted.recorded
    simp only [bind, Except.bind, hrecorded]
    rfl

end Session

end Submatch
