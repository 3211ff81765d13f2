import Submatch.Proofs.Automaton.WalkList

/-!
# Histories of routes

A route records the offset of every boundary it passes. `Event.record` puts the offsets on
top of the histories of the tags, newest first. A silent walk passes all its boundaries at
one offset (`record_walk`), so a thread's histories can be brought along walk by walk.
-/

namespace Submatch

/-- The offsets at which a tag is passed, in order. -/
def Event.positions (tag : Tag) (es : List Event) : List Nat :=
  (es.filter fun e => e.tag = tag).map Event.position

/-- The histories of all tags with some events recorded on top, newest first. -/
def Event.record (es : List Event) (histories : List (List Nat)) : List (List Nat) :=
  histories.mapIdx fun index history =>
    ((es.filter fun e => e.tag.index = index).map Event.position).reverse ++ history

theorem Tag.index_inj {s t : Tag} (h : s.index = t.index) : s = t := by
  obtain ⟨g, b⟩ := s
  obtain ⟨g', b'⟩ := t
  cases b <;> cases b' <;> simp only [Tag.index] at h
  · rw [show g = g' by omega]
  · omega
  · omega
  · rw [show g = g' by omega]

namespace Event

variable {histories : List (List Nat)}

@[simp] theorem record_nil (histories : List (List Nat)) : record [] histories = histories := by
  unfold record
  refine List.ext_getElem? fun index => ?_
  rw [List.getElem?_mapIdx]
  exact Option.map_id'

theorem record_append (es fs : List Event) (histories : List (List Nat)) :
    record (es ++ fs) histories = record fs (record es histories) := by
  unfold record
  rw [List.mapIdx_mapIdx]
  refine congrArg (List.mapIdx · histories) (funext fun index => funext fun history => ?_)
  simp only [List.filter_append, List.map_append, List.reverse_append, List.append_assoc,
    Function.comp_apply]

/-- A tag is known by its index. -/
theorem map_filter_index (es : List Event) (tag : Tag) :
    (es.filter fun e => e.tag.index = tag.index).map Event.position = positions tag es := by
  unfold positions
  refine congrArg (List.map _) (List.filter_congr fun e _ => ?_)
  -- different tags have different indices
  refine decide_eq_decide.2 ⟨fun heq => Tag.index_inj heq, fun heq => ?_⟩
  rw [heq]

/-- From nothing, the history of a tag is the list of its offsets, newest first. -/
theorem getElem?_record_replicate (es : List Event) {tags : Nat} {tag : Tag}
    (h : tag.index < tags) :
    (record es (List.replicate tags []))[tag.index]? = some (positions tag es).reverse := by
  unfold record
  rw [List.getElem?_mapIdx, List.getElem?_replicate, if_pos h, Option.map_some, List.append_nil,
    map_filter_index]

end Event

namespace Automaton

variable {A : Automaton} {seen : Finset Nat} {i : Nat}

/-- What is known of a silent walk: it is a path that reads nothing and ends at rest. -/
theorem silent_of_mem_walks {w : Walk} (h : w ∈ A.walks seen i) :
    A.Path i w.moves w.stop ∧ Motion.chars w.moves = [] ∧ A.Rests w.stop := by
  obtain ⟨hpath, hsilent, -, -, hrests⟩ := mem_walks.1 h
  exact ⟨hpath, hsilent, hrests⟩

end Automaton

/-- The events of moves that read nothing all lie at one offset. -/
theorem Motion.positions_events {ms : List Motion} (h : Motion.chars ms = []) (p index : Nat) :
    ((Motion.events p ms).filter fun e => e.tag.index = index).map Event.position =
      List.replicate ((Motion.passes ms).count index) p := by
  induction ms with
  | nil => rfl
  | cons m ms ih =>
    cases m with
    | read c => cases h
    | choose isFirst => exact ih h
    | pass tag =>
      have hpasses : Motion.passes (.pass tag :: ms) = tag.index :: Motion.passes ms := rfl
      rw [Motion.events, hpasses, List.filter_cons]
      by_cases hindex : tag.index = index
      · rw [if_pos (by simpa using hindex), List.map_cons, ih h, hindex, List.count_cons_self]
        rfl
      · rw [if_neg (by simpa using hindex), ih h, List.count_cons_of_ne hindex]

/-- A silent walk records its offset once for every boundary that it passes. -/
theorem Event.record_walk {ms : List Motion} (h : Motion.chars ms = []) (p : Nat)
    (histories : List (List Nat)) :
    Event.record (Motion.events p ms) histories =
      histories.mapIdx fun index history =>
        List.replicate ((Motion.passes ms).count index) p ++ history := by
  unfold Event.record
  refine congrArg (List.mapIdx · histories) (funext fun index => funext fun history => ?_)
  rw [Motion.positions_events h, List.reverse_replicate]

end Submatch
