import Submatch.Proofs.Automaton.Closure
import Submatch.Proofs.Automaton.Histories
import Submatch.Proofs.Dfa.Settle

/-!
# Contenders and the winner among them

Of the threads alive at some offset, the winner is the first from which the accepting node can
be reached, along its first route (`Contender.winner`). Following threads to where they come to
rest does not change the winner (`winner_closure`), although most ways to get there are dropped.
-/

namespace Submatch

/-- An automaton in which every node named exists and the accepting node comes first. -/
structure Automaton.WellFormed (A : Automaton) : Prop extends Closed A where
  accept : ∀ i, A.nodes[i]? = some .accept ↔ i = Automaton.final

namespace Contender

/-- The histories with which a thread can accept, preferred ones first, when it stands at the
offset `p` in front of the text. -/
def finishes (A : Automaton) (p : Nat) (text : List Char) (v : Contender) :
    List (List (List Nat)) :=
  (A.routes ∅ v.node text).map fun ms => Event.record (Motion.events p ms) v.histories

/-- The histories with which the most preferred of some threads accepts first. -/
def winner (A : Automaton) (p : Nat) (text : List Char) (vs : List Contender) :
    Option (List (List Nat)) :=
  (vs.flatMap (finishes A p text)).head?

/-- The thread can accept. -/
def canFinish (A : Automaton) (text : List Char) (node : Nat) : Bool :=
  !(A.routes ∅ node text).isEmpty

variable {A : Automaton} {p : Nat} {text : List Char} {layout : Layout}
  {slots : PlainRegisters}

theorem winner_cons (v : Contender) (vs : List Contender) :
    winner A p text (v :: vs) = (v.finishes A p text).head?.or (winner A p text vs) := by
  unfold winner
  rw [List.flatMap_cons, List.head?_append]

theorem head?_finishes_eq_none {v : Contender} :
    (v.finishes A p text).head? = none ↔ canFinish A text v.node = false := by
  unfold finishes canFinish
  rw [List.head?_eq_none_iff, List.map_eq_nil_iff, Bool.not_eq_false', List.isEmpty_iff]

/-- The first thread that can accept wins. -/
theorem winner_eq_find? (vs : List Contender) :
    winner A p text vs =
      (vs.find? fun v => canFinish A text v.node).bind fun v => (v.finishes A p text).head? := by
  induction vs with
  | nil => rfl
  | cons v vs ih =>
    rw [winner_cons, ih, List.find?_cons]
    cases hv : canFinish A text v.node with
    | false => rw [head?_finishes_eq_none.2 hv, Option.none_or]
    | true =>
      have hsome : (v.finishes A p text).head?.isSome = true := by
        rw [Option.isSome_iff_ne_none, Ne, head?_finishes_eq_none, hv]
        exact Bool.true_eq_false_eq_False
      exact Option.or_of_isSome hsome

/-- Only the first thread that can accept matters. -/
theorem winner_congr {vs ws : List Contender}
    (h : vs.find? (fun v => canFinish A text v.node) =
      ws.find? fun v => canFinish A text v.node) :
    winner A p text vs = winner A p text ws := by
  rw [winner_eq_find?, winner_eq_find?, h]

/-- The histories at the end of a walk. -/
theorem contender_along (a : Arrival (List (Option Nat))) {w : Walk}
    (hw : Motion.chars w.moves = []) :
    (a.along w).contender layout slots p =
      ⟨w.stop, Event.record (Motion.events p w.moves) (a.contender layout slots p).histories⟩ := by
  rw [Event.record_walk hw]
  unfold Arrival.contender Arrival.along
  rw [List.mapIdx_mapIdx]
  refine congrArg (Contender.mk w.stop) ?_
  refine congrArg (List.mapIdx · a.origin) (funext fun index => funext fun cell => ?_)
  simp only [Function.comp_apply, List.count_append, List.count_reverse]
  rw [List.replicate_add, List.append_assoc]

/-- A thread on its way accepts through the places where it can come to rest. -/
theorem finishes_landings (a : Arrival (List (Option Nat))) :
    (a.contender layout slots p).finishes A p text =
      ((A.landings ∅ a).map (Arrival.contender layout slots p)).flatMap (finishes A p text) := by
  have hnode : (a.contender layout slots p).node = a.node := rfl
  unfold finishes Automaton.landings
  rw [hnode, Automaton.routes_eq_walks, List.map_flatMap, List.map_map, List.flatMap_map]
  refine List.flatMap_congr fun w hw => ?_
  have hsilent := (Automaton.silent_of_mem_walks hw).2.1
  rw [Function.comp_apply, contender_along a hsilent]
  unfold Automaton.routesBehind
  rw [List.map_map]
  refine List.map_congr_left fun ms _ => ?_
  rw [Function.comp_apply, Motion.events_append, hsilent, Event.record_append]
  rfl

/-- A thread that sets out to the next place of rest. -/
def ofSeed (layout : Layout) (slots : PlainRegisters) (s : Nat × List (Option Nat)) : Contender :=
  ⟨s.1, s.2.map (slots.cell layout)⟩

theorem contender_ofSeed (s : Nat × List (Option Nat)) :
    Arrival.contender layout slots p ⟨s.1, s.2, []⟩ = ofSeed layout slots s := by
  unfold Arrival.contender ofSeed
  refine congrArg (Contender.mk s.1) (List.ext_getElem? fun index => ?_)
  rw [List.getElem?_mapIdx, List.getElem?_map]
  rfl

/-- **The closure keeps the winner.** -/
theorem winner_closure {seeds : List (Nat × List (Option Nat))}
    {arrivals : List (Arrival (List (Option Nat)))} (h : A.closure seeds = .ok arrivals) :
    winner A p text (arrivals.map (Arrival.contender layout slots p)) =
      winner A p text (seeds.map (ofSeed layout slots)) := by
  have haccept : ∀ i, A.nodes[i]? = some .accept → canFinish A text i = true := by
    intro i hi
    unfold canFinish
    rw [Automaton.routes_of_accept (Finset.notMem_empty i) hi]
    rfl
  -- only the first arrival that can accept matters, and that one is kept
  have hcongr : winner A p text (arrivals.map (Arrival.contender layout slots p)) =
      winner A p text (((seeds.map fun s => ⟨s.1, s.2, []⟩).flatMap (A.landings ∅)).map
        (Arrival.contender layout slots p)) := by
    refine winner_congr ?_
    rw [List.find?_map, List.find?_map]
    exact congrArg _ (Automaton.find?_closure haccept h)
  rw [hcongr]
  unfold winner
  rw [List.map_flatMap, List.flatMap_assoc, List.flatMap_map, List.flatMap_map]
  refine congrArg List.head? (List.flatMap_congr fun s _ => ?_)
  rw [← finishes_landings, contender_ofSeed]

end Contender

end Submatch
