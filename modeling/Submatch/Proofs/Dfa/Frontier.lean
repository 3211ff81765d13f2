import Submatch.Proofs.Dfa.Contenders

/-!
# Steps of frontiers

One step of the deterministic automaton keeps a frontier `Frontier.Sound` and its winner:
`initial_tracks` for the frontier before the first character, `advance_tracks` and
`winner_read` for a character. At the end of the text the accepting thread wins (`winner_end`).
-/

namespace Submatch

namespace Automaton

/-- Threads on different nodes at rest are no more than there are such nodes. -/
theorem length_le_restingCount {A : Automaton} {ns : List Nat} (hd : ns.Nodup)
    (hr : ∀ i ∈ ns, ∃ node, A.nodes[i]? = some node ∧ node.isResting = true) :
    ns.length ≤ A.restingCount := by
  have hindices : ((List.range A.nodes.size).filter fun i =>
      (A.nodes[i]?).any Node.isResting).length = A.restingCount := by
    have hmap : (List.range A.nodes.size).map (fun i => A.nodes[i]?) =
        A.nodes.toList.map some := by
      refine List.ext_getElem? fun i => ?_
      by_cases hi : i < A.nodes.size <;> simp [hi]
    unfold restingCount
    rw [← List.countP_eq_length_filter, ← Array.countP_toList]
    have hcount := congrArg (List.countP fun n : Option Node => n.any Node.isResting) hmap
    rw [List.countP_map, List.countP_map] at hcount
    exact hcount
  rw [← hindices]
  refine (List.subperm_of_subset hd fun i hi => ?_).length_le
  obtain ⟨node, hn, hnode⟩ := hr i hi
  obtain ⟨hlt, -⟩ := Array.getElem?_eq_some_iff.1 hn
  refine List.mem_filter.2 ⟨List.mem_range.2 hlt, ?_⟩
  rw [hn]
  exact hnode

end Automaton

namespace Frontier

/-- A frontier that a run can come to: threads on different nodes, of which only the last may
accept, with cells that fit into the register file. -/
structure Sound (A : Automaton) (f : Frontier) : Prop where
  nonempty : f.threads ≠ []
  nodup : (f.threads.map Thread.node).Nodup
  resting : ∀ t ∈ f.threads, ∃ node, A.nodes[t.node]? = some node ∧ node.isResting = true
  waiting : ∀ t ∈ f.threads.dropLast, ∃ ranges next, A.nodes[t.node]? = some (.consume ranges next)
  fits : ∀ t ∈ f.threads, Fits (.ofAutomaton A) t.cells

/-- The histories of the accepting thread, if there is one. -/
def accepted (layout : Layout) (slots : PlainRegisters) (f : Frontier) :
    Option (List (List Nat)) :=
  match f.threads.getLast? with
  | some last =>
    if last.node = Automaton.final then some (last.contender layout slots).histories else none
  | none => none

/-- Where a thread goes on if the symbol is read, with its cells. -/
def seed (A : Automaton) (symbol : Nat) (t : Thread) : Option (Nat × List (Option Nat)) :=
  match A.nodes[t.node]? with
  | some (.consume ranges next) =>
    if RangeSet.covers ranges symbol then some (next, t.cells) else none
  | _ => none

/-- The threads that go on if the symbol is read, each on its way from the next node. -/
def readers (A : Automaton) (layout : Layout) (symbol : Nat) (slots : PlainRegisters)
    (f : Frontier) : List Contender :=
  (f.threads.filterMap (seed A symbol)).map (Contender.ofSeed layout slots)

end Frontier

/-- What a step has to achieve: with the registers it sets up, the winner of the new frontier
is the given one. -/
def Expansion.Tracks (A : Automaton)
    (goal : PlainRegisters → Nat → List Char → Option (List (List Nat))) : Expansion → Prop
  | dead => ∀ slots position text, goal slots position text = none
  | reach f program =>
    f.Sound A ∧ (∀ i ∈ program, i.Within (Layout.ofAutomaton A).slots) ∧
      ∀ slots position text, slots.length = (Layout.ofAutomaton A).slots →
        Contender.winner A position text
          (f.contenders (.ofAutomaton A) (slots.execute program position)) =
            goal slots position text

namespace Frontier

variable {A : Automaton} {f : Frontier} {slots : PlainRegisters} {position : Nat}

/-- Threads that land are few enough for the working bank. -/
theorem length_arrivals_le {arrivals : List (Arrival (List (Option Nat)))}
    (hlanded : Automaton.Landed A (Fits (.ofAutomaton A)) arrivals.reverse) :
    arrivals.length * (Layout.ofAutomaton A).tags ≤ (Layout.ofAutomaton A).working := by
  have hnodup : (arrivals.reverse.map Arrival.node).length ≤ A.restingCount := by
    refine Automaton.length_le_restingCount hlanded.nodup fun i hi => ?_
    obtain ⟨a, ha, rfl⟩ := List.mem_map.1 hi
    exact hlanded.resting a ha
  rw [List.length_map, List.length_reverse] at hnodup
  exact Nat.mul_le_mul_right _ hnodup

/-- Threads that land make up a frontier that a run can come to. -/
theorem sound_of_landed {arrivals : List (Arrival (List (Option Nat)))} (hne : arrivals ≠ [])
    (hlanded : Automaton.Landed A (Fits (.ofAutomaton A)) arrivals.reverse)
    (hnodes : f.threads.map Thread.node = arrivals.map Arrival.node)
    (hfits : ∀ t ∈ f.threads, Fits (.ofAutomaton A) t.cells) : f.Sound A := by
  have hlength : f.threads.length = arrivals.length := by
    rw [← List.length_map Thread.node, hnodes, List.length_map]
  refine ⟨?_, ?_, fun t ht => ?_, fun t ht => ?_, hfits⟩
  · intro hnil
    rw [hnil] at hlength
    exact hne (List.eq_nil_of_length_eq_zero hlength.symm)
  · have hnodup := hlanded.nodup
    rw [List.map_reverse] at hnodup
    rw [hnodes]
    exact List.nodup_reverse.1 hnodup
  · have hmem : t.node ∈ arrivals.map Arrival.node := hnodes ▸ List.mem_map_of_mem ht
    obtain ⟨a, ha, hnode⟩ := List.mem_map.1 hmem
    rw [← hnode]
    exact hlanded.resting a (List.mem_reverse.2 ha)
  · -- only the thread that lands last may accept
    have hmem : t.node ∈ arrivals.dropLast.map Arrival.node := by
      rw [List.map_dropLast, ← hnodes, ← List.map_dropLast]
      exact List.mem_map_of_mem ht
    obtain ⟨a, ha, hnode⟩ := List.mem_map.1 hmem
    rw [← hnode]
    refine hlanded.consume a ?_
    rw [List.tail_reverse]
    exact List.mem_reverse.2 ha

/-- Where seeds settle, the winner among them is kept. -/
theorem settle_tracks (hA : A.WellFormed) {seeds : List (Nat × List (Option Nat))}
    (hseeds : ∀ s ∈ seeds, s.1 < A.nodes.size ∧ Fits (.ofAutomaton A) s.2) {previous : Nat}
    (hp : previous ≤ (Layout.ofAutomaton A).working) :
    ∃ e, (do settle (.ofAutomaton A) (← A.closure seeds) previous) = .ok e ∧
      e.Tracks A fun slots position text =>
        Contender.winner A position text (seeds.map (Contender.ofSeed (.ofAutomaton A) slots)) := by
  obtain ⟨arrivals, hclosure, hlanded⟩ := Automaton.closure_landed hA.toClosed hseeds
  rw [hclosure]
  by_cases hne : arrivals = []
  · -- where no thread lands, none can win
    subst hne
    refine ⟨.dead, rfl, fun slots position text => ?_⟩
    show Contender.winner A position text (seeds.map _) = none
    rw [← Contender.winner_closure hclosure]
    rfl
  · have hfits : ∀ a ∈ arrivals, Fits (.ofAutomaton A) a.origin := by
      intro a ha
      exact hlanded.origin a (List.mem_reverse.2 ha)
    obtain ⟨f, program, hsettle, hnodes, hcells, hwithin, hcontenders⟩ :=
      settle_reaches hne (length_arrivals_le hlanded) hfits hp
    refine ⟨.reach f program, hsettle, sound_of_landed hne hlanded hnodes hcells, hwithin, ?_⟩
    intro slots position text hslots
    rw [hcontenders slots position hslots, Contender.winner_closure hclosure]

/-- **The first frontier.** It can be built, and its winner is the winner from the start. -/
theorem initial_tracks (hA : A.WellFormed) :
    ∃ e, initial A (.ofAutomaton A) = .ok e ∧ e.Tracks A fun _ position text =>
      Contender.winner A position text [⟨A.start, List.replicate A.tagCount []⟩] := by
  obtain ⟨e, he, htracks⟩ := @settle_tracks A hA [(A.start, List.replicate A.tagCount none)]
    (List.forall_mem_singleton.2
      ⟨hA.start, List.length_replicate, fun r hr => nomatch List.eq_of_mem_replicate hr⟩)
    0 (Nat.zero_le _)
  refine ⟨e, he, ?_⟩
  have hseed : ∀ slots : PlainRegisters, Contender.ofSeed (.ofAutomaton A) slots
      (A.start, List.replicate A.tagCount none) = ⟨A.start, List.replicate A.tagCount []⟩ := by
    intro slots
    unfold Contender.ofSeed
    rw [List.map_replicate]
    rfl
  simp only [List.map_singleton, hseed] at htracks
  exact htracks

theorem seed?_eq_ok {t : Thread} {node : Node} (hn : A.nodes[t.node]? = some node)
    (symbol : Nat) : seed? A symbol t = .ok (seed A symbol t) := by
  have hget : A.getNode t.node = .ok node := by
    unfold Automaton.getNode
    rw [hn]
  unfold seed? seed
  rw [hget, hn]
  cases node <;> rfl

theorem seed_of_consume {t : Thread} {ranges : List SymbolRange} {next : Nat}
    (hn : A.nodes[t.node]? = some (.consume ranges next)) (symbol : Nat) :
    seed A symbol t = if RangeSet.covers ranges symbol then some (next, t.cells) else none := by
  unfold seed
  rw [hn]

theorem seed_of_accept {t : Thread} (hn : A.nodes[t.node]? = some .accept) (symbol : Nat) :
    seed A symbol t = none := by
  unfold seed
  rw [hn]

/-- A thread goes on at a node of the automaton with the cells that it had. -/
theorem seed_eq_some {t : Thread} {symbol : Nat} {s : Nat × List (Option Nat)}
    (h : seed A symbol t = some s) :
    ∃ ranges, A.nodes[t.node]? = some (.consume ranges s.1) ∧ s.2 = t.cells := by
  unfold seed at h
  split at h
  next ranges next hn =>
    split at h
    · cases h
      exact ⟨ranges, hn, rfl⟩
    · cases h
  next => cases h

/-- Where the threads of a frontier go on, if they do. -/
theorem mapM_seed? (hf : f.Sound A) (symbol : Nat) :
    f.threads.mapM (seed? A symbol) = .ok (f.threads.map (seed A symbol)) := by
  refine mapM_ok fun t ht => ?_
  obtain ⟨node, hn, -⟩ := hf.resting t ht
  exact seed?_eq_ok hn symbol

/-- The threads that go on behind a symbol settle, if there are any. -/
theorem advance_eq (hf : f.Sound A) (symbol : Nat) :
    f.advance A (.ofAutomaton A) symbol =
      if f.threads.filterMap (seed A symbol) = [] then .ok .dead
      else A.closure (f.threads.filterMap (seed A symbol)) >>= fun arrivals =>
        settle (.ofAutomaton A) arrivals f.registerCount := by
  have hid : (f.threads.map (seed A symbol)).filterMap (fun seed => seed) =
      f.threads.filterMap (seed A symbol) :=
    List.filterMap_map ..
  unfold advance
  rw [mapM_seed? hf]
  simp only [bind, Except.bind, hid]
  exact if_congr List.isEmpty_iff rfl rfl

/-- The threads that go on set out from nodes that exist, with cells that fit. -/
theorem Sound.seeds (hA : A.WellFormed) (hf : f.Sound A) (symbol : Nat) :
    ∀ s ∈ f.threads.filterMap (seed A symbol), s.1 < A.nodes.size ∧ Fits (.ofAutomaton A) s.2 := by
  intro s hs
  obtain ⟨t, ht, hseed⟩ := List.mem_filterMap.1 hs
  obtain ⟨ranges, hn, hcells⟩ := seed_eq_some hseed
  exact ⟨hA.targets _ _ hn s.1 List.mem_cons_self, hcells ▸ hf.fits t ht⟩

theorem Sound.registerCount_le (hf : f.Sound A) :
    f.registerCount ≤ (Layout.ofAutomaton A).working :=
  registerCount_le_iff.2 fun t ht r hr => (hf.fits t ht).working r hr

/-- **A character.** The frontier behind it can be built, and its winner is the winner among the
threads that go on. -/
theorem advance_tracks (hA : A.WellFormed) (hf : f.Sound A) (symbol : Nat) :
    ∃ e, f.advance A (.ofAutomaton A) symbol = .ok e ∧
      e.Tracks A fun slots position text =>
        Contender.winner A position text (f.readers A (.ofAutomaton A) symbol slots) := by
  obtain ⟨e, he, htracks⟩ := settle_tracks hA (hf.seeds hA symbol) hf.registerCount_le
  rw [advance_eq hf]
  -- a step that no thread takes is not settled at all
  by_cases hempty : f.threads.filterMap (seed A symbol) = []
  · refine ⟨.dead, if_pos hempty, fun slots position text => ?_⟩
    unfold readers
    rw [hempty]
    rfl
  · exact ⟨e, (if_neg hempty).trans he, htracks⟩

variable {p : Nat} {text : List Char}

theorem accepted_of_consume (hA : A.WellFormed) {layout : Layout} {t : Thread}
    {ranges : List SymbolRange} {next : Nat}
    (hn : A.nodes[t.node]? = some (.consume ranges next)) :
    accepted layout slots ⟨[t]⟩ = none := by
  have hfinal : t.node ≠ Automaton.final := by
    intro h
    rw [(hA.accept t.node).2 h] at hn
    cases hn
  exact if_neg hfinal

/-- On the accepting node a thread accepts with the histories that it has. -/
theorem finishes_accept (hA : A.WellFormed) {layout : Layout} {t : Thread}
    (hn : A.nodes[t.node]? = some .accept) :
    (t.contender layout slots).finishes A p text = (accepted layout slots ⟨[t]⟩).toList := by
  have hsome : accepted layout slots ⟨[t]⟩ = some (t.contender layout slots).histories :=
    if_pos ((hA.accept t.node).1 hn)
  have hroutes : A.routes ∅ (t.contender layout slots).node text = [[]] :=
    Automaton.routes_of_accept (Finset.notMem_empty _) hn
  rw [hsome, Contender.finishes, hroutes]
  exact congrArg (fun h => [h]) (Event.record_nil _)

/-- What the threads can accept with: they read on, or the last one stands on the accepting
node. -/
theorem flatMap_finishes (hA : A.WellFormed) {ts : List Thread}
    (hresting : ∀ t ∈ ts, ∃ node, A.nodes[t.node]? = some node ∧ node.isResting = true)
    (hwaiting : ∀ t ∈ ts.dropLast, ∃ ranges next, A.nodes[t.node]? = some (.consume ranges next))
    {layout : Layout} {go : Thread → List (List (List Nat))}
    (hconsume : ∀ t ∈ ts, ∀ ranges next, A.nodes[t.node]? = some (.consume ranges next) →
      (t.contender layout slots).finishes A p text = go t)
    (haccept : ∀ t ∈ ts, A.nodes[t.node]? = some .accept → go t = []) :
    (ts.map (Thread.contender layout slots)).flatMap (Contender.finishes A p text) =
      ts.flatMap go ++ (accepted layout slots ⟨ts⟩).toList := by
  induction ts with
  | nil => rfl
  | cons t ts ih =>
    obtain ⟨hc, hcs⟩ := List.forall_mem_cons.1 hconsume
    obtain ⟨ha, has⟩ := List.forall_mem_cons.1 haccept
    cases ts with
    | nil =>
      obtain ⟨node, hn, hnode⟩ := hresting t List.mem_cons_self
      rw [List.map_singleton, List.flatMap_singleton, List.flatMap_singleton]
      cases node with
      | mark | fork => cases hnode
      | consume ranges next =>
        rw [accepted_of_consume hA hn, hc ranges next hn]
        exact (List.append_nil _).symm
      | accept =>
        rw [finishes_accept hA hn, ha hn]
        rfl
    | cons u us =>
      -- a thread that is not the last one reads, so the last thread is that of the rest
      obtain ⟨ranges, next, hn⟩ := hwaiting t List.mem_cons_self
      have hrest := ih (fun v hv => hresting v (List.mem_cons_of_mem _ hv))
        (fun v hv => hwaiting v (List.mem_cons_of_mem _ hv)) hcs has
      have hsame : accepted layout slots ⟨t :: u :: us⟩ = accepted layout slots ⟨u :: us⟩ := rfl
      rw [List.map_cons, List.flatMap_cons, List.flatMap_cons, hrest, hc ranges next hn, hsame,
        List.append_assoc]

theorem finishes_read {layout : Layout} {t : Thread} {ranges : List SymbolRange} {next : Nat}
    (hn : A.nodes[t.node]? = some (.consume ranges next)) (c : Char) (rest : List Char) :
    (t.contender layout slots).finishes A p (c :: rest) =
      if RangeSet.covers ranges c.toNat then
        (Contender.ofSeed layout slots (next, t.cells)).finishes A (p + 1) rest
      else [] := by
  have hroutes := Automaton.routes_of_consume (Finset.notMem_empty t.node) hn c rest
  have hnode : (t.contender layout slots).node = t.node := rfl
  unfold Contender.finishes
  rw [hnode, hroutes]
  split
  · rw [List.map_map]
    rfl
  · rfl

/-- Threads that cannot read on leave the win to the accepting one. -/
theorem winner_eq_accepted (hA : A.WellFormed) (hf : f.Sound A) {layout : Layout}
    (h : ∀ t ∈ f.threads, ∀ ranges next, A.nodes[t.node]? = some (.consume ranges next) →
      (t.contender layout slots).finishes A p text = []) :
    Contender.winner A p text (f.contenders layout slots) = f.accepted layout slots := by
  have hflat := @flatMap_finishes A slots p text hA f.threads hf.resting hf.waiting layout
    (fun _ => []) h (fun _ _ _ => rfl)
  have hnil : f.threads.flatMap (fun _ => ([] : List (List (List Nat)))) = [] :=
    List.flatMap_eq_nil_iff.2 fun _ _ => rfl
  unfold Contender.winner contenders
  rw [hflat, hnil, List.nil_append]
  cases f.accepted layout slots <;> rfl

/-- At the end of the text nothing can be read. -/
theorem winner_end (hA : A.WellFormed) (hf : f.Sound A) {layout : Layout} :
    Contender.winner A p [] (f.contenders layout slots) = f.accepted layout slots := by
  refine winner_eq_accepted hA hf fun t _ ranges next hn => ?_
  have hroutes : A.routes ∅ (t.contender layout slots).node [] = [] :=
    Automaton.routes_of_consume_nil hn
  unfold Contender.finishes
  rw [hroutes]
  rfl

/-- A character that no node reads. -/
theorem winner_unread (hA : A.WellFormed) (hf : f.Sound A) {layout : Layout} {c : Char}
    (hc : ∀ (i : Nat) ranges next, A.nodes[i]? = some (.consume ranges next) →
      RangeSet.covers ranges c.toNat = false) (rest : List Char) :
    Contender.winner A p (c :: rest) (f.contenders layout slots) = f.accepted layout slots := by
  refine winner_eq_accepted hA hf fun t _ ranges next hn => ?_
  rw [finishes_read hn, hc _ _ _ hn]
  rfl

/-- Behind a character the threads that have read it win, and if none of them can, the one that
accepts in front of it does. -/
theorem winner_read (hA : A.WellFormed) (hf : f.Sound A) {layout : Layout} {c : Char}
    {symbol : Nat} (hc : ∀ (i : Nat) ranges next, A.nodes[i]? = some (.consume ranges next) →
      RangeSet.covers ranges symbol = RangeSet.covers ranges c.toNat) (rest : List Char) :
    Contender.winner A p (c :: rest) (f.contenders layout slots) =
      (Contender.winner A (p + 1) rest (f.readers A layout symbol slots)).or
        (f.accepted layout slots) := by
  have hflat := @flatMap_finishes A slots p (c :: rest) hA f.threads hf.resting hf.waiting layout
    (fun t => ((seed A symbol t).toList.map (Contender.ofSeed layout slots)).flatMap
      (Contender.finishes A (p + 1) rest))
    (fun t _ ranges next hn => by
      rw [finishes_read hn, seed_of_consume hn, hc _ _ _ hn]
      split
      · exact (List.append_nil _).symm
      · rfl)
    (fun t _ hn => by rw [seed_of_accept hn]; rfl)
  have hreaders : f.threads.flatMap (fun t =>
      ((seed A symbol t).toList.map (Contender.ofSeed layout slots)).flatMap
        (Contender.finishes A (p + 1) rest)) =
      (f.readers A layout symbol slots).flatMap (Contender.finishes A (p + 1) rest) := by
    unfold readers
    rw [List.filterMap_eq_flatMap_toList, List.map_flatMap, List.flatMap_assoc]
  unfold Contender.winner contenders
  rw [hflat, hreaders, List.head?_append]
  cases f.accepted layout slots <;> rfl

theorem acceptance_eq_reject {layout : Layout} :
    f.acceptance = .reject ↔ f.accepted layout slots = none := by
  unfold acceptance accepted
  cases hlast : f.threads.getLast? with
  | none => simp
  | some last =>
    simp only
    by_cases hfinal : last.node = Automaton.final
    · rw [if_pos hfinal, if_pos hfinal]
      split <;> simp
    · rw [if_neg hfinal, if_neg hfinal]
      simp

/-- Nothing can be preferred to the only thread if it accepts. -/
theorem threads_of_settled (h : f.acceptance = .settled) :
    ∃ t, f.threads = [t] ∧ t.node = Automaton.final := by
  unfold acceptance at h
  split at h
  next last hlast =>
    split at h
    next hfinal =>
      split at h
      next hone =>
        obtain ⟨t, ht⟩ := List.length_eq_one_iff.1 hone
        rw [ht, List.getLast?_singleton] at hlast
        cases hlast
        exact ⟨_, ht, hfinal⟩
      next => cases h
    next => cases h
  next => cases h

theorem exists_last_of_acceptance (h : f.acceptance ≠ .reject) :
    ∃ last, f.threads.getLast? = some last ∧ last.node = Automaton.final := by
  unfold acceptance at h
  split at h
  next last hlast =>
    split at h
    next hfinal => exact ⟨last, hlast, hfinal⟩
    next => exact absurd rfl h
  next => exact absurd rfl h

end Frontier

end Submatch
