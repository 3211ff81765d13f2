import Submatch.Capture.Outcome
import Submatch.Proofs.Automaton.Histories
import Submatch.Proofs.Pattern.Tours

/-!
# The outcome of a tour

`Outcome.ofEvents` is the outcome of a match that passes the given group boundaries. The
histories of a tour amount to it (`ofHistories_events`), with the end of the tour as the end of
the match (`end?_tour`).
-/

namespace Submatch

namespace Event

/-- For every tag in the order of the indices the offsets at which it is passed. -/
def histories (groups : Nat) (es : List Event) : List (List Nat) :=
  (List.range groups).flatMap fun g =>
    [positions ⟨g, .opening⟩ es, positions ⟨g, .closing⟩ es]

/-- For every group its spans, one for each time that it is opened and closed. -/
def spans (groups : Nat) (es : List Event) : List (List Span) :=
  (List.range groups).map fun g =>
    List.zipWith Span.mk (positions ⟨g, .opening⟩ es) (positions ⟨g, .closing⟩ es)

theorem histories_succ (groups : Nat) (es : List Event) :
    histories (groups + 1) es = histories groups es ++
      [positions ⟨groups, .opening⟩ es, positions ⟨groups, .closing⟩ es] := by
  unfold histories
  rw [List.range_succ, List.flatMap_append, List.flatMap_singleton]

theorem length_histories (groups : Nat) (es : List Event) :
    (histories groups es).length = 2 * groups := by
  induction groups with
  | zero => rfl
  | succ groups ih =>
    rw [histories_succ, List.length_append, ih]
    rfl

/-- The positions recorded from nothing, oldest first. -/
theorem reverse_record (groups : Nat) (es : List Event) :
    (record es (List.replicate (2 * groups) [])).map List.reverse = histories groups es := by
  induction groups with
  | zero => rfl
  | succ groups ih =>
    have hopen := map_filter_index es ⟨groups, .opening⟩
    have hclose := map_filter_index es ⟨groups, .closing⟩
    have hopening : Tag.index ⟨groups, .opening⟩ = 2 * groups := rfl
    have hclosing : Tag.index ⟨groups, .closing⟩ = 2 * groups + 1 := rfl
    rw [hopening] at hopen
    rw [hclosing] at hclose
    have hreplicate : List.replicate (2 * (groups + 1)) ([] : List Nat) =
        List.replicate (2 * groups) [] ++ [[], []] := by
      rw [Nat.mul_succ, List.replicate_add]
      rfl
    rw [histories_succ, ← ih, hreplicate]
    unfold record
    rw [List.mapIdx_append, List.map_append, List.length_replicate]
    refine congrArg _ ?_
    simp [Nat.add_comm 1, ← hopen, ← hclose]

/-- As often as a tag is passed, an offset is recorded. -/
theorem length_positions_events (tag : Tag) (i : Nat) (ms : List Motion) :
    (positions tag (Motion.events i ms)).length = ms.count (.pass tag) := by
  induction ms generalizing i with
  | nil => rfl
  | cons m ms ih =>
    cases m with
    | read c =>
      rw [List.count_cons_of_ne (by simp), ← ih (i + 1)]
      rfl
    | choose isFirst =>
      rw [List.count_cons_of_ne (by simp), ← ih i]
      rfl
    | pass other =>
      by_cases h : other = tag
      · subst h
        rw [List.count_cons_self, ← ih i]
        simp [Motion.events, positions]
      · rw [List.count_cons_of_ne (by simpa using h), ← ih i]
        simp [Motion.events, positions, h]

/-- Every group is closed as often as it is opened. -/
def Balanced (es : List Event) : Prop :=
  ∀ group, (positions ⟨group, .opening⟩ es).length = (positions ⟨group, .closing⟩ es).length

theorem balanced_events {ms : List Motion} (h : Motion.Balanced ms) (i : Nat) :
    Balanced (Motion.events i ms) := by
  intro group
  rw [length_positions_events, length_positions_events, h group]

end Event

namespace Outcome

/-- The outcome of a match that passes the given boundaries: without an iteration of group zero
there is none. -/
def ofEvents (parents : Array Nat) (es : List Event) : Outcome :=
  let spans := Event.spans parents.size es
  match (spans.head?.getD []).getLast? with
  | some whole => .matched ⟨spans, Event.histories parents.size es, .nest parents whole spans⟩
  | none => .noMatch

variable {parents : Array Nat} {es : List Event}

theorem isMatch_of_end? {o : Outcome} {stop : Nat} (h : o.end? = some stop) :
    o.isMatch = true := by
  cases o with
  | noMatch => cases h
  | matched m => rfl

theorem spansOf_flatMap {groups : List Nat} (h : Event.Balanced es) :
    spansOf (groups.flatMap fun g =>
      [Event.positions ⟨g, .opening⟩ es, Event.positions ⟨g, .closing⟩ es]) =
    .ok (groups.map fun g => List.zipWith Span.mk
      (Event.positions ⟨g, .opening⟩ es) (Event.positions ⟨g, .closing⟩ es)) := by
  induction groups with
  | nil => rfl
  | cons g groups ih =>
    have hpair : pairSpans (Event.positions ⟨g, .opening⟩ es)
        (Event.positions ⟨g, .closing⟩ es) = .ok (List.zipWith Span.mk
          (Event.positions ⟨g, .opening⟩ es) (Event.positions ⟨g, .closing⟩ es)) :=
      if_pos (h g)
    rw [List.flatMap_cons, List.map_cons]
    simp only [List.cons_append, List.nil_append, spansOf, hpair, ih]
    rfl

/-- **Balanced histories have an outcome.** -/
theorem ofHistories_events (h : Event.Balanced es) :
    ofHistories parents (Event.histories parents.size es) = .ok (ofEvents parents es) := by
  have hlength := Event.length_histories parents.size es
  have hspans : spansOf (Event.histories parents.size es) =
      .ok (Event.spans parents.size es) := spansOf_flatMap h
  unfold ofHistories
  simp only
  rw [if_neg (by omega), hlength, Nat.sub_self, List.replicate_zero, List.append_nil]
  unfold ofComplete ofEvents
  simp only [hspans, bind, Except.bind]
  cases ((Event.spans parents.size es).head?.getD []).getLast? with
  | none => rfl
  | some whole => rfl

/-- The match ends where group zero is closed last. -/
theorem end?_ofEvents (hp : 0 < parents.size) (h : Event.Balanced es) {closes : List Nat}
    {stop : Nat} (hcloses : Event.positions ⟨0, .closing⟩ es = closes ++ [stop]) :
    (ofEvents parents es).end? = some stop := by
  have hlength := h 0
  rw [hcloses, List.length_append, List.length_singleton] at hlength
  obtain ⟨opens, start, hopens⟩ :
      ∃ opens start, Event.positions ⟨0, .opening⟩ es = opens ++ [start] := by
    refine ⟨_, _, (List.dropLast_append_getLast (List.ne_nil_of_length_pos ?_)).symm⟩
    omega
  rw [hopens, List.length_append, List.length_singleton] at hlength
  -- the spans of group zero come first
  obtain ⟨groups, hgroups⟩ := Nat.exists_eq_succ_of_ne_zero hp.ne'
  have hhead : (Event.spans parents.size es)[0]? =
      some (List.zipWith Span.mk opens closes ++ [⟨start, stop⟩]) := by
    unfold Event.spans
    rw [hgroups, List.range_succ_eq_map, List.map_cons, List.getElem?_cons_zero, hopens, hcloses,
      List.zipWith_append (Nat.succ_injective hlength)]
    rfl
  have hlast : ((Event.spans parents.size es).head?.getD []).getLast? = some ⟨start, stop⟩ := by
    rw [List.head?_eq_getElem?, hhead]
    exact List.getLast?_concat
  unfold ofEvents
  simp only [hlast]
  show ((((Event.spans parents.size es)[0]?.getD []).getLast?).map Span.stop) = some stop
  rw [hhead, Option.getD_some, List.getLast?_concat]
  rfl

end Outcome

namespace Pattern

variable {p : Pattern} {ms : List Motion}

/-- A tour of group zero closes it in the end. -/
theorem positions_closing (h : ms ∈ (group 0 p).tours) (i : Nat) :
    ∃ closes, Event.positions ⟨0, .closing⟩ (Motion.events i ms) =
      closes ++ [i + (Motion.chars ms).length] := by
  obtain ⟨x, -, rfl⟩ := mem_tours_group.1 h
  refine ⟨Event.positions ⟨0, .closing⟩ (Motion.events i x), ?_⟩
  simp [Motion.events_append, Motion.events, Event.positions]

/-- A match along a tour of group zero ends where the tour does. -/
theorem end?_tour {parents : Array Nat} (hp : 0 < parents.size) (h : ms ∈ (group 0 p).tours) :
    (Outcome.ofEvents parents (Motion.events 0 ms)).end? = some (Motion.chars ms).length := by
  obtain ⟨closes, hcloses⟩ := positions_closing h 0
  have hbalanced := Event.balanced_events (balanced_tours _ ms h) 0
  rw [Outcome.end?_ofEvents hp hbalanced hcloses, Nat.zero_add]

end Pattern

end Submatch
