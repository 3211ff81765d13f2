import Submatch.Proofs.Automaton.Builder
import Submatch.Proofs.Automaton.Connected
import Submatch.Proofs.Automaton.FirstWalks
import Submatch.Proofs.Dfa.Updates

/-!
# Threads that read do not vanish

In a connected automaton silent steps lead from every node to a node at rest, as edges lead on to
the accepting one (`Automaton.Connected.exists_silent`). So what a thread goes on to, once it has read
a character, comes to rest somewhere, and no step that some thread can take is dead
(`StateStore.compile_connected`).
-/

namespace Submatch

namespace Automaton

/-- Every node that is named exists, the first one is the only one that accepts, and every node lies
on the way from the start to it. -/
structure Connected (A : Automaton) : Prop extends WellFormed A where
  reached : ∀ i < A.nodes.size, A.Reaches A.start i
  leads : ∀ i < A.nodes.size, A.Reaches i final

variable {A : Automaton} {σ : Type}

theorem connected_ofPattern (n : NumberedPattern) : (ofPattern n).Connected where
  toWellFormed := wellFormed_ofPattern n
  reached := fun _ hi => (reaches_ofPattern n hi).1
  leads := fun _ hi => (reaches_ofPattern n hi).2

/-- An edge from a node on which no thread can rest is a silent step. -/
theorem Edge.exists_step {i j : Nat} (h : A.Edge i j) (hrests : ¬ A.Rests i) :
    ∃ m, A.Step i m j ∧ m.char? = none := by
  obtain ⟨node, hn, htarget⟩ := h
  cases node with
  | consume ranges next => exact absurd ⟨_, hn, rfl⟩ hrests
  | accept => exact absurd ⟨_, hn, rfl⟩ hrests
  | mark tag next =>
    obtain rfl := List.mem_singleton.1 htarget
    exact ⟨.pass tag, .pass hn, rfl⟩
  | fork first second =>
    rcases List.mem_cons.1 htarget with rfl | htarget
    · exact ⟨.choose true, .first hn, rfl⟩
    · obtain rfl := List.mem_singleton.1 htarget
      exact ⟨.choose false, .second hn, rfl⟩

/-- On the way to a node at rest one comes to a node at rest before anything is read. -/
theorem Reaches.exists_silent {i k : Nat} (h : A.Reaches i k) (hk : A.Rests k) :
    ∃ ms j, A.Path i ms j ∧ Motion.chars ms = [] ∧ A.Rests j := by
  induction h using Relation.ReflTransGen.head_induction_on with
  | refl => exact ⟨[], k, .refl k, rfl, hk⟩
  | @head i j hedge _ ih =>
    by_cases hi : A.Rests i
    · exact ⟨[], i, .refl i, rfl, hi⟩
    · obtain ⟨m, hstep, hm⟩ := hedge.exists_step hi
      obtain ⟨ms, l, hpath, hsilent, hl⟩ := ih
      exact ⟨m :: ms, l, .step hstep hpath, (Motion.chars_cons_of_silent hm ms).trans hsilent, hl⟩

/-- **A search from nodes of a connected automaton finds something.** -/
theorem Connected.closure_ne_nil (hA : A.Connected) {seeds : List (Nat × σ)} (hne : seeds ≠ [])
    (hseeds : ∀ s ∈ seeds, s.1 < A.nodes.size) :
    ∃ arrivals, A.closure seeds = .ok arrivals ∧ arrivals ≠ [] := by
  obtain ⟨arrivals, hclosure, hlanded⟩ := closure_landed (P := fun _ => True) hA.toClosed
    fun s hs => ⟨hseeds s hs, trivial⟩
  have hfinds := hA.toWellFormed.findsFirst hlanded hclosure
  refine ⟨arrivals, hclosure, ?_⟩
  rintro rfl
  -- behind the first seed there is a node at rest, or the search has ended at the accepting one
  obtain ⟨s, rest, rfl⟩ := List.exists_cons_of_ne_nil hne
  have hfinal : A.Rests final := ⟨_, (hA.accept final).2 rfl, rfl⟩
  obtain ⟨ms, k, hpath, hsilent, hk⟩ :=
    (hA.leads s.1 (hseeds s List.mem_cons_self)).exists_silent hfinal
  obtain ⟨x, -, -, hfound | ⟨hlast, -⟩⟩ :=
    hfinds.complete s List.mem_cons_self ms k hpath hsilent hk
  · obtain ⟨a, ha, -⟩ := hfound
    cases ha
  · cases hlast

end Automaton

/-- Some thread of the frontier can read the symbol. -/
def Frontier.Consumes (A : Automaton) (f : Frontier) (symbol : Nat) : Prop :=
  ∃ t ∈ f.threads, ∃ ranges next, A.nodes[t.node]? = some (.consume ranges next) ∧
    RangeSet.covers ranges symbol = true

/-- A thread that can read a symbol of a class can read the one that stands for the class. -/
theorem Frontier.Consumes.seeds_ne_nil {A : Automaton} {f : Frontier} {symbol : Nat}
    (h : f.Consumes A symbol) {cls : SymbolRange}
    (hcls : cls ∈ (Alphabet.ofRanges A.ranges).classes.toList) (hsymbol : cls.contains symbol = true) :
    f.threads.filterMap (Frontier.seed A cls.lo) ≠ [] := by
  obtain ⟨t, ht, ranges, next, hn, hcovers⟩ := h
  obtain ⟨r, hr, hc⟩ := RangeSet.covers_eq_true.1 hcovers
  have hsame := Alphabet.contains_eq_of_mem_classes hcls (Automaton.mem_ranges hn hr) hsymbol
  have hlo : RangeSet.covers ranges cls.lo = true :=
    RangeSet.covers_eq_true.2 ⟨r, hr, hsame ▸ hc⟩
  have hseed : Frontier.seed A cls.lo t = some (next, t.cells) := by
    rw [Frontier.seed_of_consume hn, if_pos hlo]
  exact List.ne_nil_of_mem (List.mem_filterMap.2 ⟨t, ht, hseed⟩)

namespace StateStore

/-- **The automaton of a pattern is complete and connected.** It can be built, and no placeholder is
left in it. Every node that is named exists, only the first node accepts, every node is reached from
the start, and edges lead on from it to the accepting node. So in any state, from whatever calls it
comes, a step on a class of which some thread can read a symbol does not come to nothing. -/
theorem compile_connected (n : NumberedPattern) :
    Builder.compile n = .ok (.ofPattern n) ∧
    (∃ arena, (Builder.whole n.pattern).run #[] = .ok ((Automaton.ofPattern n).start, arena) ∧
      none ∉ arena) ∧
    (Automaton.ofPattern n).Connected ∧
    ∀ (calls : List Call) (s : StateStore),
      calls.foldlM (perform (.ofPattern n)) .empty = .ok s →
      ∀ (id index symbol : Nat) (f : Frontier) (cls : SymbolRange), s.items[id]? = some f →
        (Machine.ofPattern n).alphabet.classes[index]? = some cls →
        cls.contains symbol = true → f.Consumes (.ofPattern n) symbol →
        (∃ seeds arrivals, f.threads.mapM (Frontier.seed? (.ofPattern n) cls.lo) = .ok seeds ∧
          (Automaton.ofPattern n).closure (seeds.filterMap fun seed => seed) = .ok arrivals ∧
          arrivals ≠ []) ∧
        ∃ transition s', s.expand (.ofPattern n) id (.letter index) = .ok (transition, s') ∧
          transition.target ≠ .dead := by
  have hA := Automaton.connected_ofPattern n
  have hrun := Builder.run_whole n
  refine ⟨Builder.compile_eq n, ⟨_, hrun, by simp⟩, hA, ?_⟩
  intro calls s hcalls id index symbol f cls hf hcls hsymbol hconsumes
  have hs : s.Sound (.ofPattern n) := ((sound_empty _).replay hA.toWellFormed hcalls).1
  have hfrontier := hs.frontiers f (Array.mem_of_getElem? hf)
  have hmem := Array.mem_toList_iff.2 (Array.mem_of_getElem? hcls)
  have hseeds := hconsumes.seeds_ne_nil hmem hsymbol
  have hwithin := hfrontier.seeds hA.toWellFormed cls.lo
  obtain ⟨arrivals, hclosure, hne⟩ := hA.closure_ne_nil hseeds fun s hs => (hwithin s hs).1
  constructor
  · refine ⟨_, arrivals, Frontier.mapM_seed? hfrontier cls.lo, ?_, hne⟩
    rw [List.filterMap_map]
    exact hclosure
  · obtain ⟨e, he, hdead, -⟩ := Frontier.advance_implements hA.toWellFormed
      (Automaton.descending_ofPattern n) hfrontier hmem
    have hclass : (Machine.ofPattern n).alphabet.getClass index = .ok cls := by
      unfold Alphabet.getClass
      rw [hcls]
    refine ⟨_, _, expand_letter hf hclass he, ?_⟩
    cases e with
    | dead => exact absurd ((Frontier.seeds_eq_nil_iff hmem).2 (hdead.1 rfl)) hseeds
    | reach g program => nofun

/-- In a loop over what may be empty, the first state is left by the thread that waits in the
loop. -/
theorem compile_connected_loop : ∃ (s s' : StateStore) (f : Frontier) (transition : Transition),
    [Call.start].foldlM (perform (.ofPattern
      ⟨.repeated (.alt .empty (.char 'a')) ⟨0, none, false⟩, #[0]⟩)) .empty = .ok s ∧
    s.items[0]? = some f ∧
    f.Consumes (.ofPattern ⟨.repeated (.alt .empty (.char 'a')) ⟨0, none, false⟩, #[0]⟩) 97 ∧
    s.expand (.ofPattern ⟨.repeated (.alt .empty (.char 'a')) ⟨0, none, false⟩, #[0]⟩) 0
      (.letter 0) = .ok (transition, s') ∧ transition.target ≠ .dead := by
  have hrun : (do
      let s ← [Call.start].foldlM (perform (.ofPattern
        ⟨.repeated (.alt .empty (.char 'a')) ⟨0, none, false⟩, #[0]⟩)) .empty
      return s.items[0]?.map fun f => f.threads.map Thread.node) = Except.ok (some [3, 0]) := by
    cbv
  have hcls : (Machine.ofPattern ⟨.repeated (.alt .empty (.char 'a')) ⟨0, none, false⟩,
      #[0]⟩).alphabet.classes[0]? = some (.ofChar 'a') := by
    cbv
  have hnode : (Automaton.ofPattern ⟨.repeated (.alt .empty (.char 'a')) ⟨0, none, false⟩,
      #[0]⟩).nodes[3]? = some (.consume [.ofChar 'a'] 2) := by
    rfl
  obtain ⟨s, hcalls, hstate⟩ := bind_eq_ok.1 hrun
  obtain ⟨f, hf, hthreads⟩ := Option.map_eq_some_iff.1 (Except.ok.inj hstate)
  have hmem : 3 ∈ f.threads.map Thread.node := by
    rw [hthreads]
    exact List.mem_cons_self
  obtain ⟨t, ht, htnode⟩ := List.mem_map.1 hmem
  have hconsumes : f.Consumes (.ofPattern
      ⟨.repeated (.alt .empty (.char 'a')) ⟨0, none, false⟩, #[0]⟩) 97 := by
    refine ⟨t, ht, [.ofChar 'a'], 2, ?_, by decide⟩
    rw [htnode]
    exact hnode
  obtain ⟨-, transition, s', hexpand, halive⟩ :=
    (compile_connected _).2.2.2 _ s hcalls 0 0 97 f _ hf hcls (by decide) hconsumes
  exact ⟨s, s', f, transition, hcalls, hf, hconsumes, hexpand, halive⟩

end StateStore

end Submatch
