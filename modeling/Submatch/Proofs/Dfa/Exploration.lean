import Submatch.Dfa.Exploration
import Submatch.Proofs.Dfa.Finite
import Submatch.Proofs.Dfa.Store

/-!
# Explorations stop

An exploration expands every state on every symbol, in the order of the numbers, and finds new
states on the way. As there are finitely many states, it catches up with them: from some budget on
all budgets give the same result, in which no state is left to expand (`explore_stops`).
-/

namespace Submatch

theorem Numbering.Extends.size_le {α : Type} [BEq α] [Hashable α] {n n' : Numbering α}
    (h : n.Extends n') : n.size ≤ n'.size := by
  by_contra hlt
  have hitem := h n'.size _ (Array.getElem?_eq_getElem (Nat.lt_of_not_le hlt))
  have hnone : n'.items[n'.size]? = none := Array.getElem?_eq_none (Nat.le_refl _)
  rw [hnone] at hitem
  cases hitem

/-- The state that is expanded, and the symbol on which it is. -/
def Discovery.step (d : Discovery) : Nat × InputSymbol := (d.source, d.symbol)

namespace Machine

/-- The steps of an exploration up to a number of states: every state on every class in order, and
then at the end of the text. -/
def schedule (M : Machine) (states : Nat) : List (Nat × InputSymbol) :=
  (List.range states).flatMap fun id =>
    (List.range M.symbolCount).map fun place => (id, M.symbolAt place)

/-- The first steps of an exploration. -/
def firstSteps (M : Machine) (taken : Nat) : List (Nat × InputSymbol) :=
  (List.range taken).map fun k => (k / M.symbolCount, M.symbolAt (k % M.symbolCount))

variable {A : Automaton} {M : Machine} {start : Transition} {taken : Nat} {found : List Discovery}
  {states : StateStore}

theorem symbolCount_pos (M : Machine) : 0 < M.symbolCount := Nat.succ_pos _

theorem inRange_symbolAt (M : Machine) (place : Nat) : (M.symbolAt place).InRange M := by
  unfold symbolAt
  split
  next h => exact h
  next => trivial

/-- The steps that expand all of some states are the schedule of these states. -/
theorem firstSteps_eq_schedule (M : Machine) (states : Nat) :
    M.firstSteps (states * M.symbolCount) = M.schedule states := by
  induction states with
  | zero =>
    rw [Nat.zero_mul]
    rfl
  | succ states ih =>
    have hlast : ∀ place ∈ List.range M.symbolCount,
        ((states * M.symbolCount + place) / M.symbolCount,
          M.symbolAt ((states * M.symbolCount + place) % M.symbolCount)) =
            (states, M.symbolAt place) := by
      intro place hplace
      have hlt := List.mem_range.1 hplace
      rw [Nat.mul_comm, Nat.mul_add_div M.symbolCount_pos, Nat.mul_add_mod, Nat.div_eq_of_lt hlt,
        Nat.mod_eq_of_lt hlt, Nat.add_zero]
    have hrows : M.firstSteps ((states + 1) * M.symbolCount) =
        M.firstSteps (states * M.symbolCount) ++
          (List.range M.symbolCount).map fun place => (states, M.symbolAt place) := by
      unfold firstSteps
      rw [Nat.succ_mul, List.range_add, List.map_append, List.map_map]
      exact congrArg _ (List.map_congr_left hlast)
    rw [hrows, ih]
    unfold schedule
    rw [List.range_succ, List.flatMap_append, List.flatMap_singleton]

/-- What is known when some steps have been taken: the steps that come first have been taken in
their order, none of them beyond the states met, and each as it would be built again. -/
structure Explored (A : Automaton) (start : Transition) (taken : Nat) (found : List Discovery)
    (states : StateStore) : Prop where
  sound : states.Sound A
  begun : states.start (.ofAutomaton A) = .ok (start, states)
  within : taken ≤ states.size * (ofAutomaton A).symbolCount
  order : found.reverse.map Discovery.step = (ofAutomaton A).firstSteps taken
  built : ∀ d ∈ found,
    states.expand (.ofAutomaton A) d.source d.symbol = .ok (d.transition, states)

/-- Where not every state has been expanded there is a next step. -/
theorem Explored.next (hA : A.WellFormed) (h : Explored A start taken found states)
    (hopen : (ofAutomaton A).isExhausted states taken = false) :
    ∃ transition states',
      states.expand (.ofAutomaton A) (taken / (ofAutomaton A).symbolCount)
          ((ofAutomaton A).symbolAt (taken % (ofAutomaton A).symbolCount)) =
        .ok (transition, states') ∧
      Explored A start (taken + 1) (⟨taken / (ofAutomaton A).symbolCount,
        (ofAutomaton A).symbolAt (taken % (ofAutomaton A).symbolCount), transition⟩ :: found)
          states' := by
  have hpos := (ofAutomaton A).symbolCount_pos
  have hsource : taken / (ofAutomaton A).symbolCount < states.size := by
    simpa [isExhausted] using hopen
  obtain ⟨⟨transition, states'⟩, hexpand, hsound, hgrows⟩ :=
    h.sound.expand hA hsource (inRange_symbolAt _ _)
  have hstable := StateStore.stable_expand h.sound.consistent hexpand
  have hbegun := (StateStore.stable_start h.sound.consistent h.begun).later _ hsound.consistent
    hgrows
  refine ⟨transition, states', hexpand, hsound, hbegun, ?_, ?_, ?_⟩
  · have hlt : taken < states.size * (ofAutomaton A).symbolCount :=
      (Nat.div_lt_iff_lt_mul hpos).1 hsource
    have hle : states.size * (ofAutomaton A).symbolCount ≤
        states'.size * (ofAutomaton A).symbolCount := Nat.mul_le_mul_right _ hgrows.size_le
    omega
  · unfold firstSteps at *
    rw [List.reverse_cons, List.map_append, h.order, List.range_succ, List.map_append]
    rfl
  · refine List.forall_mem_cons.2 ⟨hstable.later _ hsound.consistent (.refl _), fun d hd => ?_⟩
    exact (StateStore.stable_expand h.sound.consistent (h.built d hd)).later _ hsound.consistent
      hgrows

/-- Where every state has been expanded, the exploration ends with what it has. -/
theorem exploreFrom_of_exhausted (h : M.isExhausted states taken = true) (budget : Nat) :
    M.exploreFrom budget taken found states = .ok (found, states, true) := by
  cases budget with
  | zero =>
    unfold exploreFrom
    rw [h]
    rfl
  | succ budget =>
    unfold exploreFrom
    rw [if_pos h]
    rfl

/-- Where every state has been expanded, the steps taken are those of the schedule, and no budget
adds to them. -/
theorem Explored.stops_of_exhausted (h : Explored A start taken found states)
    (hdone : (ofAutomaton A).isExhausted states taken = true) :
    Explored A start (states.size * (ofAutomaton A).symbolCount) found states ∧
      ∀ budget, (ofAutomaton A).exploreFrom budget taken found states =
        .ok (found, states, true) := by
  have hsize : states.size ≤ taken / (ofAutomaton A).symbolCount := of_decide_eq_true hdone
  have hle := (Nat.le_div_iff_mul_le (ofAutomaton A).symbolCount_pos).1 hsize
  refine ⟨?_, exploreFrom_of_exhausted hdone⟩
  rw [Nat.le_antisymm hle h.within]
  exact h

/-- **From any point on an exploration stops** with every state expanded, if the budget makes up
for the steps that there can be. More of a budget changes nothing. -/
theorem Explored.stops (hA : A.WellFormed) {rest : Nat} (h : Explored A start taken found states)
    (hrest : A.stateBound * (ofAutomaton A).symbolCount ≤ taken + rest) :
    ∃ found' states', Explored A start (states'.size * (ofAutomaton A).symbolCount) found' states' ∧
      ∀ budget, rest ≤ budget →
        (ofAutomaton A).exploreFrom budget taken found states = .ok (found', states', true) := by
  -- by induction on the steps that can still be needed
  induction rest generalizing taken found states with
  | zero =>
    have hsize : states.size ≤ A.stateBound :=
      StateStore.size_le_stateBound h.sound.consistent h.sound.frontiers
    have hbound : A.stateBound ≤ taken / (ofAutomaton A).symbolCount :=
      (Nat.le_div_iff_mul_le (ofAutomaton A).symbolCount_pos).2 hrest
    have hdone : (ofAutomaton A).isExhausted states taken = true :=
      decide_eq_true (Nat.le_trans hsize hbound)
    obtain ⟨hexplored, hends⟩ := h.stops_of_exhausted hdone
    exact ⟨found, states, hexplored, fun budget _ => hends budget⟩
  | succ rest ih =>
    cases hdone : (ofAutomaton A).isExhausted states taken with
    | true =>
      obtain ⟨hexplored, hends⟩ := h.stops_of_exhausted hdone
      exact ⟨found, states, hexplored, fun budget _ => hends budget⟩
    | false =>
      obtain ⟨transition, states₁, hexpand, hnext⟩ := h.next hA hdone
      obtain ⟨found', states', hexplored, hends⟩ := ih hnext (by omega)
      refine ⟨found', states', hexplored, fun budget hbudget => ?_⟩
      obtain ⟨more, rfl⟩ := Nat.exists_eq_add_of_le' hbudget
      have hopen : ¬ (ofAutomaton A).isExhausted states taken = true := by
        rw [hdone]
        exact Bool.false_ne_true
      rw [show more + (rest + 1) = (more + rest) + 1 from rfl, exploreFrom, if_neg hopen]
      exact bind_eq_ok.2 ⟨_, hexpand, hends (more + rest) (Nat.le_add_left rest more)⟩

/-- **Explorations stop.** There are at most `stateBound` states, whatever calls build them, and
whatever texts are run. So from some budget on all explorations give the same result: they have
expanded exactly the states that there are, in the order of their numbers and each on every class
and at the end of the text, and expanding one again adds nothing. -/
theorem explore_stops (n : NumberedPattern) :
    (∀ (calls : List StateStore.Call) (s : StateStore),
        calls.foldlM (StateStore.perform (.ofPattern n)) .empty = .ok s →
          s.size ≤ (Automaton.ofPattern n).stateBound) ∧
      (∀ deeds : List Session.Deed, ∃ s,
        deeds.foldlM (Session.perform (.ofPattern n)) .fresh = .ok s ∧
          s.cache.states.size ≤ (Automaton.ofPattern n).stateBound) ∧
      ∃ E : Exploration,
        (∀ budget, (Automaton.ofPattern n).stateBound * (ofPattern n).symbolCount ≤ budget →
          (ofPattern n).explore budget = .ok E) ∧
        E.isComplete = true ∧
        E.states.size ≤ (Automaton.ofPattern n).stateBound ∧
        E.states.start (ofPattern n) = .ok (E.start, E.states) ∧
        E.found.map Discovery.step = (ofPattern n).schedule E.states.size ∧
        ∀ d ∈ E.found,
          E.states.expand (ofPattern n) d.source d.symbol = .ok (d.transition, E.states) := by
  have hA := Automaton.wellFormed_ofPattern n
  refine ⟨fun calls s hcalls => ?_, fun deeds => ?_, ?_⟩
  · have hsound := ((StateStore.sound_empty _).replay hA hcalls).1
    exact StateStore.size_le_stateBound hsound.consistent hsound.frontiers
  · obtain ⟨s, hdeeds, hvalid⟩ := Session.replay_valid hA deeds
    exact ⟨s, hdeeds, StateStore.size_le_stateBound hvalid.consistent hvalid.sound⟩
  · obtain ⟨⟨start, states₀⟩, hstart, hsound₀, -⟩ := (StateStore.sound_empty _).start hA
    have hbegun := (StateStore.stable_start Numbering.consistent_empty hstart).later _
      hsound₀.consistent (.refl _)
    have hnothing : Explored (.ofPattern n) start 0 [] states₀ :=
      ⟨hsound₀, hbegun, Nat.zero_le _, rfl, nofun⟩
    obtain ⟨found, states, hexplored, hends⟩ := hnothing.stops hA (Nat.le_add_left _ 0)
    refine ⟨⟨start, found.reverse, states, true⟩, fun budget hbudget => ?_, rfl, ?_,
      hexplored.begun, ?_, fun d hd => hexplored.built d (List.mem_reverse.1 hd)⟩
    · exact bind_eq_ok.2 ⟨_, hstart, bind_eq_ok.2 ⟨_, hends budget hbudget, rfl⟩⟩
    · exact StateStore.size_le_stateBound hexplored.sound.consistent hexplored.sound.frontiers
    · exact hexplored.order.trans (firstSteps_eq_schedule _ _)

/-- Nested loops over groups have three states, however often texts go around them. -/
example : ((ofPattern ⟨.repeated (.group 1 (.repeated (.group 2 (.char 'a'))
    ⟨1, none, false⟩)) ⟨1, none, false⟩, #[0, 0, 1]⟩).explore 10).map
      (fun E => (E.states.size, E.found.length, E.isComplete)) = .ok (3, 6, true) := by cbv

end Machine

end Submatch
