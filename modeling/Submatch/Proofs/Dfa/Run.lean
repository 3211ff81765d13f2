import Submatch.Proofs.Dfa.Cache
import Submatch.Proofs.Dfa.Flush
import Submatch.Proofs.Register.Execution

/-!
# Runs of the deterministic automaton

A run keeps as its invariant that the last accepting place met, unless the threads alive come to
a preferred match, reports the winner (`follow_reports`). So a run from any valid cache reports
the histories of the first route, or none if there is no route (`run_reports`).
-/

namespace Submatch

namespace Automaton

variable {A : Automaton} {c : Nat}

theorem mem_ranges {i : Nat} {ranges : List SymbolRange} {next : Nat}
    (hn : A.nodes[i]? = some (.consume ranges next)) {r : SymbolRange} (hr : r ∈ ranges) :
    r ∈ A.ranges := by
  refine List.mem_flatMap.2 ⟨_, Array.mem_toList_iff.2 (Array.mem_of_getElem? hn), ?_⟩
  exact hr

/-- No node tells the first symbol of a class from the others. -/
theorem covers_eq_of_classify {index : Nat}
    (h : (Alphabet.ofRanges A.ranges).classify c = some index) :
    ∃ r, (Alphabet.ofRanges A.ranges).getClass index = .ok r ∧
      ∀ (i : Nat) ranges next, A.nodes[i]? = some (.consume ranges next) →
        RangeSet.covers ranges r.lo = RangeSet.covers ranges c := by
  obtain ⟨r, hr, hcontains⟩ := Alphabet.contains_eq_of_classify h
  refine ⟨r, hr, fun i ranges next hn => ?_⟩
  unfold RangeSet.covers
  rw [Bool.eq_iff_iff, List.any_eq_true, List.any_eq_true]
  constructor
  · rintro ⟨s, hs, hc⟩
    exact ⟨s, hs, hcontains s (mem_ranges hn hs) ▸ hc⟩
  · rintro ⟨s, hs, hc⟩
    exact ⟨s, hs, (hcontains s (mem_ranges hn hs)).symm ▸ hc⟩

/-- No node reads a symbol without a class. -/
theorem covers_eq_false_of_classify (h : (Alphabet.ofRanges A.ranges).classify c = none)
    {i : Nat} {ranges : List SymbolRange} {next : Nat}
    (hn : A.nodes[i]? = some (.consume ranges next)) : RangeSet.covers ranges c = false := by
  refine Bool.eq_false_iff.2 fun hcover => ?_
  obtain ⟨s, hs, hc⟩ := RangeSet.covers_eq_true.1 hcover
  have hnot := Alphabet.covers_eq_false_of_classify h
  rw [RangeSet.covers_eq_true.2 ⟨s, mem_ranges hn hs, hc⟩] at hnot
  cases hnot

end Automaton

namespace Session

variable {A : Automaton} {s : Session} {states : StateStore} {f : Frontier} {text : List Char}

/-- The place is in the state of a frontier, with a register file that is fit for use. -/
structure Stands (A : Automaton) (states : StateStore) (place : Place) (f : Frontier) : Prop where
  state : states.items[place.state]? = some f
  file : place.file.Sound (Layout.ofAutomaton A).slots

/-- The histories of the threads alive at a place. -/
abbrev contenders (A : Automaton) (place : Place) (f : Frontier) : List Contender :=
  f.contenders (.ofAutomaton A) place.file.plain

/-- The histories of the accepting thread at a place. -/
abbrev accepted (A : Automaton) (place : Place) (f : Frontier) : Option (List (List Nat)) :=
  f.accepted (.ofAutomaton A) place.file.plain

/-- What the last accepting place met reports. -/
inductive Reports (A : Automaton) (states : StateStore) :
    Option Place → Option (List (List Nat)) → Prop where
  | none : Reports A states none none
  | some {place : Place} {f : Frontier} {histories : List (List Nat)}
      (stands : Stands A states place f) (accepted : accepted A place f = some histories) :
      Reports A states (some place) (some histories)

theorem Stands.later {place : Place} {later : StateStore} (h : Stands A states place f)
    (hlater : states.Extends later) : Stands A later place f :=
  ⟨hlater _ _ h.state, h.file⟩

theorem Reports.later {best : Option Place} {r : Option (List (List Nat))} {later : StateStore}
    (h : Reports A states best r) (hlater : states.Extends later) : Reports A later best r := by
  cases h with
  | none => exact .none
  | some stands accepted => exact .some (stands.later hlater) accepted

/-- A transition on a character leads to the frontier behind it. -/
theorem step_letter (hA : A.WellFormed) (hs : s.cache.Valid A) {id index : Nat}
    (hf : s.cache.states.items[id]? = some f) {r : SymbolRange}
    (hr : (Alphabet.ofRanges A.ranges).getClass index = .ok r) :
    ∃ e s', e.Tracks A (fun slots position text =>
        Contender.winner A position text (f.readers A (.ofAutomaton A) r.lo slots)) ∧
      s.step (.ofAutomaton A) id (.letter index) = .ok ((s.cache.states.record e).1, s') ∧
      s'.cache.Valid A ∧ s'.cache.states = (s.cache.states.record e).2 := by
  have hsound := hs.sound f (Array.mem_of_getElem? hf)
  obtain ⟨e, he, htracks⟩ := Frontier.advance_tracks hA hsound r.lo
  have hbuild := @StateStore.expand_letter (.ofAutomaton A) _ _ _ _ hf _ hr _ he
  obtain ⟨s', hstep, hvalid, hstates⟩ :=
    step_valid hs hbuild (StateStore.sound_record hs.sound htracks)
  exact ⟨e, s', htracks, hstep, hvalid, hstates⟩

/-- The state that a transition leads to is that of its frontier. -/
theorem record_reach (hs : states.Consistent) (f : Frontier) (program : List Instruction) :
    ∃ id, (states.record (.reach f program)).1 = ⟨.state id f.acceptance, program⟩ ∧
      (states.record (.reach f program)).2.items[id]? = some f :=
  ⟨(states.add f).1, rfl, hs.getElem?_add_self f⟩

/-- An accepting thread can always win. -/
theorem winner_isSome_of_accepted (hA : A.WellFormed) {slots : PlainRegisters} {p : Nat}
    (h : f.acceptance ≠ .reject) :
    (Contender.winner A p text (f.contenders (.ofAutomaton A) slots)).isSome = true := by
  obtain ⟨last, hlast, hfinal⟩ := Frontier.exists_last_of_acceptance h
  have hroutes : A.routes ∅ last.node text = [[]] :=
    Automaton.routes_of_accept (Finset.notMem_empty _) ((hA.accept _).2 hfinal)
  have hmem : last.contender (.ofAutomaton A) slots ∈ f.contenders (.ofAutomaton A) slots :=
    List.mem_map_of_mem (List.mem_of_getLast? hlast)
  rw [Option.isSome_iff_ne_none]
  intro hnone
  have hnil := List.flatMap_eq_nil_iff.1 (List.head?_eq_none_iff.1 hnone) _ hmem
  have hcan := Contender.head?_finishes_eq_none.1 (List.head?_eq_none_iff.2 hnil)
  have hnode : (last.contender (.ofAutomaton A) slots).node = last.node := rfl
  rw [hnode, Contender.canFinish, hroutes] at hcan
  cases hcan

/-- Where only the accepting thread is left, it wins. -/
theorem winner_of_settled (hA : A.WellFormed) {slots : PlainRegisters} {p : Nat}
    (h : f.acceptance = .settled) :
    Contender.winner A p text (f.contenders (.ofAutomaton A) slots) =
      f.accepted (.ofAutomaton A) slots := by
  obtain ⟨t, ht, hfinal⟩ := Frontier.threads_of_settled h
  obtain rfl : f = ⟨[t]⟩ := congrArg Frontier.mk ht
  have hn : A.nodes[t.node]? = some .accept := (hA.accept t.node).2 hfinal
  unfold Contender.winner Frontier.contenders
  rw [List.map_singleton, List.flatMap_singleton, Frontier.finishes_accept hA hn]
  cases Frontier.accepted (.ofAutomaton A) slots ⟨[t]⟩ <;> rfl

/-- The computation succeeds, keeps the cache valid, and reports the given histories. -/
def Succeeds (A : Automaton) (r : Option (List (List Nat)))
    (outcome : Except Fault (Option Place × Session)) : Prop :=
  ∃ best s, outcome = .ok (best, s) ∧ s.cache.Valid A ∧ Reports A s.cache.states best r

/-- Reading on from a place reports the winner there, or else what has been reported before. -/
def FollowReports (A : Automaton) (text : List Char) : Prop :=
  ∀ {s : Session} {place : Place} {f : Frontier} {best : Option Place}
    {r : Option (List (List Nat))}, s.cache.Valid A → Stands A s.cache.states place f →
    Reports A s.cache.states best r → (∀ h, accepted A place f = some h → r = some h) →
    Succeeds A ((Contender.winner A place.position text (contenders A place f)).or r)
      (s.follow (.ofAutomaton A) text place best)

/-- What happens at a new place: it becomes the last accepting one if it accepts, and reading
goes on unless it has settled the match. -/
def arrive (M : Machine) (text : List Char) (acceptance : Acceptance) (place : Place)
    (best : Option Place) (s : Session) : Except Fault (Option Place × Session) :=
  match acceptance with
  | .reject => s.follow M text place best
  | .candidate => s.follow M text place (some place)
  | .settled => return (some place, s)

theorem arrive_reports (hA : A.WellFormed) (ih : FollowReports A text) (hs : s.cache.Valid A)
    {place : Place} (hp : Stands A s.cache.states place f) {best : Option Place}
    {r : Option (List (List Nat))} (hbest : Reports A s.cache.states best r) :
    Succeeds A ((Contender.winner A place.position text (contenders A place f)).or r)
      (arrive (.ofAutomaton A) text f.acceptance place best s) := by
  have hsome : f.acceptance ≠ .reject → ∃ h, accepted A place f = some h := by
    intro h
    rw [← Option.isSome_iff_exists, Option.isSome_iff_ne_none]
    exact fun hnone => h (Frontier.acceptance_eq_reject.2 hnone)
  cases hacc : f.acceptance with
  | reject =>
    have hnone : accepted A place f = none := Frontier.acceptance_eq_reject.1 hacc
    exact ih hs hp hbest fun h hh => nomatch hnone.symm.trans hh
  | candidate =>
    -- the place becomes the last accepting one, and what was reported before is dropped
    have hne : f.acceptance ≠ .reject := by rw [hacc]; nofun
    obtain ⟨h, hh⟩ := hsome hne
    have hrest := ih hs hp (.some hp hh) fun h' hh' => hh.symm.trans hh'
    rw [Option.or_of_isSome (winner_isSome_of_accepted hA hne)] at hrest ⊢
    exact hrest
  | settled =>
    have hne : f.acceptance ≠ .reject := by rw [hacc]; nofun
    obtain ⟨h, hh⟩ := hsome hne
    have hwinner : Contender.winner A place.position text (contenders A place f) = some h :=
      (winner_of_settled hA hacc).trans hh
    rw [hwinner]
    exact ⟨some place, s, rfl, hs, .some hp hh⟩

/-- A program can be executed, and the place reached holds what it computes. -/
theorem stands_execute {place : Place} (hfile : place.file.Sound (Layout.ofAutomaton A).slots)
    {id : Nat} (hf : states.items[id]? = some f) {program : List Instruction}
    (hp : ∀ i ∈ program, i.Within (Layout.ofAutomaton A).slots) (position : Nat) (ids : IdSource) :
    ∃ file ids', place.file.execute program position ids = .ok (file, ids') ∧
      Stands A states ⟨id, file, position⟩ f ∧
      file.plain = place.file.plain.execute program position := by
  obtain ⟨file, ids', hexec, hsound, hplain⟩ :=
    RegisterFile.execute_plain hfile hp position ids
  exact ⟨file, ids', hexec, ⟨hf, hsound⟩, hplain⟩

/-- What accepts at a place has been reported, so it adds nothing. -/
theorem or_eq_of_current {place : Place} {r : Option (List (List Nat))}
    (h : ∀ h, accepted A place f = some h → r = some h) : (accepted A place f).or r = r := by
  cases hacc : accepted A place f with
  | none => rfl
  | some histories => exact (h histories hacc).symm

/-- **The last accepting place reports the winner.** Reading on keeps it so, character by
character. -/
theorem follow_reports (hA : A.WellFormed) (text : List Char) : FollowReports A text := by
  induction text with
  | nil =>
    intro s place f best r hs hp hbest hcurrent
    refine ⟨best, s, rfl, hs, ?_⟩
    rw [Frontier.winner_end hA (hs.sound f (Array.mem_of_getElem? hp.state)),
      or_eq_of_current hcurrent]
    exact hbest
  | cons c rest ih =>
    intro s place f best r hs hp hbest hcurrent
    have hsound := hs.sound f (Array.mem_of_getElem? hp.state)
    unfold follow
    cases hclass : (Machine.ofAutomaton A).alphabet.classify c.toNat with
    | none =>
      -- no node reads the character, so the run ends with what it has
      rw [Frontier.winner_unread hA hsound fun i ranges next hn =>
        Automaton.covers_eq_false_of_classify hclass hn, or_eq_of_current hcurrent]
      exact ⟨best, s, rfl, hs, hbest⟩
    | some index =>
      obtain ⟨range, hget, hcovers⟩ := Automaton.covers_eq_of_classify hclass
      obtain ⟨e, s₁, htracks, hstep, hs₁, hstates⟩ := step_letter hA hs hp.state hget
      have hlater : s.cache.states.Extends s₁.cache.states :=
        hstates ▸ StateStore.extends_record s.cache.states e
      -- the threads that read on come first, then what accepts here, which is reported already
      rw [Frontier.winner_read hA hsound hcovers rest, Option.or_assoc,
        or_eq_of_current hcurrent]
      simp only [hstep, bind, Except.bind]
      cases e with
      | dead =>
        have hnone : Contender.winner A (place.position + 1) rest
          (f.readers A (.ofAutomaton A) range.lo place.file.plain) = none := htracks _ _ _
        rw [hnone, Option.none_or]
        exact ⟨best, s₁, rfl, hs₁, hbest.later hlater⟩
      | reach g program =>
        obtain ⟨-, hwithin, hwinner⟩ := htracks
        obtain ⟨id, hrecord, hitem⟩ := record_reach hs.consistent g program
        rw [← hstates] at hitem
        obtain ⟨file, ids, hexec, hstands, hplain⟩ :=
          stands_execute hp.file hitem hwithin (place.position + 1) s₁.ids
        have hnext : Contender.winner A (place.position + 1) rest
            (f.readers A (.ofAutomaton A) range.lo place.file.plain) =
            Contender.winner A (place.position + 1) rest (g.contenders (.ofAutomaton A) file.plain) := by
          rw [hplain]
          exact (hwinner _ _ _ hp.file.length_plain).symm
        rw [hnext]
        simp only [hrecord, execute, hexec, bind, Except.bind]
        have harrive := @arrive_reports A { s₁ with ids } g rest hA ih hs₁ _ hstands best r
          (hbest.later hlater)
        cases hg : g.acceptance <;> rw [hg] at harrive <;> exact harrive

/-- **The search reports the winner from the start.** -/
theorem search_reports (hA : A.WellFormed) (hs : s.cache.Valid A) (text : List Char) :
    Succeeds A
      (Contender.winner A 0 text [⟨A.start, List.replicate A.tagCount []⟩])
      (s.search (.ofAutomaton A) text) := by
  obtain ⟨e, he, htracks⟩ := Frontier.initial_tracks hA
  have hbuild := @StateStore.start_eq_ok (.ofAutomaton A) _ he s.cache.states
  obtain ⟨s₁, hstart, hs₁, hstates⟩ :=
    start_valid hs hbuild (StateStore.sound_record hs.sound htracks)
  unfold search
  simp only [hstart, bind, Except.bind]
  cases e with
  | dead =>
    have hnone : Contender.winner A 0 text [⟨A.start, List.replicate A.tagCount []⟩] = none :=
      htracks [] _ _
    rw [hnone]
    exact ⟨none, s₁, rfl, hs₁, .none⟩
  | reach g program =>
    obtain ⟨-, hwithin, hwinner⟩ := htracks
    obtain ⟨id, hrecord, hitem⟩ := record_reach hs.consistent g program
    rw [← hstates] at hitem
    have hfresh : (s₁.newFile (.ofAutomaton A)).1.Sound (Layout.ofAutomaton A).slots :=
      RegisterFile.sound_fresh ..
    obtain ⟨file, ids, hexec, hstands, hplain⟩ := @stands_execute A _ g
      ⟨0, (s₁.newFile (.ofAutomaton A)).1, 0⟩ hfresh id hitem program hwithin 0
      (s₁.newFile (.ofAutomaton A)).2.ids
    have hfirst : Contender.winner A 0 text [⟨A.start, List.replicate A.tagCount []⟩] =
        (Contender.winner A 0 text (g.contenders (.ofAutomaton A) file.plain)).or none := by
      rw [hplain, Option.or_none]
      exact (hwinner _ _ _ hfresh.length_plain).symm
    rw [hfirst]
    simp only [hrecord, execute, hexec]
    have harrive := @arrive_reports A { (s₁.newFile (.ofAutomaton A)).2 with ids } g text hA
      (follow_reports hA text) hs₁ _ hstands none none .none
    cases hg : g.acceptance <;> rw [hg] at harrive <;> exact harrive

/-- The positions in the output bank. -/
theorem recorded_eq_ok {file : RegisterFile} (h : file.Sound (Layout.ofAutomaton A).slots) :
    file.recorded (.ofAutomaton A) = .ok ((List.range A.tagCount).map file.plain.read) := by
  have hslots : (Layout.ofAutomaton A).slots =
      (Layout.ofAutomaton A).tags + (Layout.ofAutomaton A).working + 1 := rfl
  refine mapM_ok fun tag htag => ?_
  have hlt : tag < (Layout.ofAutomaton A).tags := List.mem_range.1 htag
  obtain ⟨history, hget, hpositions⟩ := h.get (Nat.lt_of_lt_of_le hlt (by omega))
  simp only [Layout.output_eq_ok hlt, bind, Except.bind, hget, ← hpositions]
  rfl

/-- The file of an accepting run: fit for use, with the given histories in the output bank. -/
structure Accepted (A : Automaton) (file : RegisterFile) (histories : List (List Nat)) : Prop where
  sound : file.Sound (Layout.ofAutomaton A).slots
  output : (List.range A.tagCount).map file.plain.read = histories

theorem Accepted.recorded {file : RegisterFile} {histories : List (List Nat)}
    (h : Accepted A file histories) : file.recorded (.ofAutomaton A) = .ok histories := by
  rw [recorded_eq_ok h.sound, h.output]

/-- **A run reports the first route.** From any valid cache a run succeeds, leaves a valid
cache, and gives the histories of the winner from the start, or none if there is no winner. -/
theorem run_reports (hA : A.WellFormed) (hs : s.cache.Valid A) (text : List Char) :
    ∃ outcome s', s.run (.ofAutomaton A) text = .ok (outcome, s') ∧ s'.cache.Valid A ∧
      match Contender.winner A 0 text [⟨A.start, List.replicate A.tagCount []⟩] with
      | none => outcome = none
      | some histories => ∃ file, outcome = some file ∧ Accepted A file histories := by
  obtain ⟨best, s₁, hsearch, hs₁, hreports⟩ := search_reports hA hs text
  unfold run
  rw [hsearch]
  generalize Contender.winner A 0 text [⟨A.start, List.replicate A.tagCount []⟩] = r at hreports ⊢
  cases hreports with
  | none => exact ⟨none, s₁, rfl, hs₁, rfl⟩
  | @some place f histories hstands haccepted =>
    have hsound := hs₁.sound f (Array.mem_of_getElem? hstands.state)
    -- the place accepts, so there is a program for the end of the text
    have hne : f.acceptance ≠ .reject := fun hreject =>
      nomatch (Frontier.acceptance_eq_reject.1 hreject).symm.trans haccepted
    obtain ⟨program, hflush, hwithin, hfinal⟩ := Frontier.flush_accepted hsound hne
    have hbuild := @StateStore.expand_ending (.ofAutomaton A) _ _ _ hstands.state _ hflush
    obtain ⟨s₂, hstep, hs₂, -⟩ := step_valid hs₁ hbuild hs₁.sound
    obtain ⟨file, ids, hexec, hfile, hplain⟩ :=
      RegisterFile.execute_plain hstands.file hwithin place.position s₂.ids
    refine ⟨some file, { s₂ with ids }, ?_, hs₂, file, rfl, hfile, ?_⟩
    · unfold accept
      simp only [hstep, bind, Except.bind, StateStore.endingTransition, execute, hexec]
      rfl
    · have hhistories := hfinal _ place.position hstands.file.length_plain
      rw [hplain]
      exact Option.some.inj (hhistories.symm.trans haccepted)

end Session

end Submatch
