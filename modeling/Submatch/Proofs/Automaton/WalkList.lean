import Submatch.Proofs.Automaton.Routes

/-!
# The list of walks

`Automaton.walks` lists exactly the silent walks that come to no node twice (`mem_walks`), preferred
ones first (`pairwise_walks`).
-/

namespace Submatch

namespace Automaton

/-- A thread can come to rest on the node. -/
def Rests (A : Automaton) (i : Nat) : Prop :=
  ∃ node, A.nodes[i]? = some node ∧ node.isResting = true

/-- A silent walk from the node `i` to a node at rest, which comes to no node twice and avoids the
nodes in `seen`. -/
structure WalkFrom (A : Automaton) (seen : Finset Nat) (i : Nat) (w : Walk) : Prop where
  path : A.Path i w.moves w.stop
  silent : Motion.chars w.moves = []
  visits : (A.visits i 0 w.moves).Nodup
  fresh : ∀ q ∈ seen, (q, 0) ∉ A.visits i 0 w.moves
  rests : A.Rests w.stop

variable {A : Automaton} {seen : Finset Nat} {i : Nat} {w : Walk}

theorem WalkFrom.not_mem (h : A.WalkFrom seen i w) : i ∉ seen :=
  fun hi => h.fresh i hi (mem_visits_self i 0 w.moves)

theorem walkFrom_cons {j : Nat} {m : Motion} (hstep : A.Step i m j) (hm : m.char? = none) :
    A.WalkFrom seen i (w.cons m) ↔ i ∉ seen ∧ A.WalkFrom (insert i seen) j w := by
  have hchars : Motion.chars (m :: w.moves) = Motion.chars w.moves :=
    Motion.chars_cons_of_silent hm _
  constructor
  · rintro ⟨hpath, hsilent, hnodup, hfresh, hrests⟩
    obtain ⟨hi, hnodup, hfresh⟩ := (avoids_cons hstep hm).1 ⟨hnodup, hfresh⟩
    obtain ⟨j', hstep', hrest⟩ := path_cons_iff.1 hpath
    obtain rfl := hstep.target_unique hstep'
    exact ⟨hi, hrest, hchars ▸ hsilent, hnodup, hfresh, hrests⟩
  · rintro ⟨hi, hpath, hsilent, hnodup, hfresh, hrests⟩
    obtain ⟨hnodup, hfresh⟩ := (avoids_cons hstep hm).2 ⟨hi, hnodup, hfresh⟩
    exact ⟨.step hstep hpath, hchars.trans hsilent, hnodup, hfresh, hrests⟩

/-- No step leads on from a node that does not exist, and none is silent from one at rest. -/
theorem WalkFrom.eq_nil (h : A.WalkFrom seen i w)
    (hstay : ∀ node, A.nodes[i]? = some node → node.isResting = true) : w = ⟨[], i⟩ := by
  obtain ⟨moves, stop⟩ := w
  obtain ⟨hpath, hsilent, -⟩ := h
  simp only at hpath hsilent
  cases hpath with
  | refl => rfl
  | step first =>
    cases first with
    | read => cases hsilent
    | pass hn | first hn | second hn => cases hstay _ hn

theorem walkFrom_nil {node : Node} (hi : i ∉ seen) (hn : A.nodes[i]? = some node)
    (hr : node.isResting = true) : A.WalkFrom seen i ⟨[], i⟩ := by
  refine ⟨.refl i, rfl, List.nodup_singleton _, fun q hq hmem => ?_, node, hn, hr⟩
  rw [visits, List.mem_singleton, Prod.mk.injEq] at hmem
  exact hi (hmem.1 ▸ hq)

/-- From a node on which no thread can rest, a walk has a first step. -/
theorem WalkFrom.exists_step {node : Node} (h : A.WalkFrom seen i w)
    (hn : A.nodes[i]? = some node) (hr : node.isResting = false) :
    ∃ m j v, w = Walk.cons m v ∧ A.Step i m j := by
  obtain ⟨moves, stop⟩ := w
  obtain ⟨hpath, -, -, -, rest, hrest, hrests⟩ := h
  simp only at hpath hrest
  cases hpath with
  | refl =>
    rw [hn, Option.some_inj] at hrest
    rw [← hrest, hr] at hrests
    cases hrests
  | @step _ j _ m ms first _ => exact ⟨m, j, ⟨ms, stop⟩, rfl, first⟩

theorem mem_map_walk {m : Motion} {ws : List Walk} :
    w ∈ ws.map (Walk.cons m) ↔ ∃ v, w = v.cons m ∧ v ∈ ws := by
  rw [List.mem_map]
  exact exists_congr fun v => by rw [and_comm, eq_comm]

/-- **All walks are listed, and nothing else.** -/
theorem mem_walks {seen : Finset Nat} {i : Nat} {w : Walk} :
    w ∈ A.walks seen i ↔ A.WalkFrom seen i w := by
  by_cases hi : i ∈ seen
  · rw [walks_of_mem hi]
    exact iff_of_false List.not_mem_nil fun h => h.not_mem hi
  cases hn : A.nodes[i]? with
  | none =>
    rw [walks_of_none hn]
    refine iff_of_false List.not_mem_nil fun h => ?_
    -- the walk would have to end where it starts
    obtain rfl := h.eq_nil fun node hnode => by rw [hn] at hnode; cases hnode
    obtain ⟨node, hnode, -⟩ := h.rests
    rw [hn] at hnode
    cases hnode
  | some node =>
    have hlt := card_sdiff_insert_lt hi hn
    have ih := fun j v => @mem_walks (insert i seen) j v
    cases node with
    | consume | accept =>
      rw [walks_of_resting hi hn rfl, List.mem_singleton]
      constructor
      · rintro rfl
        exact walkFrom_nil hi hn rfl
      · intro h
        refine h.eq_nil fun node hnode => ?_
        rw [hn, Option.some_inj] at hnode
        rw [← hnode]
        rfl
    | mark tag next =>
      rw [walks_of_mark hi hn, mem_map_walk]
      constructor
      · rintro ⟨v, rfl, hv⟩
        exact (walkFrom_cons (.pass hn) rfl).2 ⟨hi, (ih next v).1 hv⟩
      · intro h
        obtain ⟨m, j, v, rfl, hstep⟩ := h.exists_step hn rfl
        obtain rfl := hstep.of_mark hn
        exact ⟨v, rfl, (ih next v).2 ((walkFrom_cons (.pass hn) rfl).1 h).2⟩
    | fork first second =>
      rw [walks_of_fork hi hn, List.mem_append, mem_map_walk, mem_map_walk]
      constructor
      · rintro (⟨v, rfl, hv⟩ | ⟨v, rfl, hv⟩)
        · exact (walkFrom_cons (.first hn) rfl).2 ⟨hi, (ih first v).1 hv⟩
        · exact (walkFrom_cons (.second hn) rfl).2 ⟨hi, (ih second v).1 hv⟩
      · intro h
        obtain ⟨m, j, v, rfl, hstep⟩ := h.exists_step hn rfl
        rcases hstep.of_fork hn with rfl | rfl
        · exact .inl ⟨v, rfl, (ih first v).2 ((walkFrom_cons (.first hn) rfl).1 h).2⟩
        · exact .inr ⟨v, rfl, (ih second v).2 ((walkFrom_cons (.second hn) rfl).1 h).2⟩
termination_by (Finset.range A.nodes.size \ seen).card

/-- **Preferred walks come first.** -/
theorem pairwise_walks (A : Automaton) (seen : Finset Nat) (i : Nat) :
    (A.walks seen i).Pairwise fun v w => Motion.Precedes v.moves w.moves := by
  have hcons (m : Motion) {ws : List Walk}
      (h : ws.Pairwise fun v w => Motion.Precedes v.moves w.moves) :
      (ws.map (Walk.cons m)).Pairwise fun v w => Motion.Precedes v.moves w.moves :=
    List.pairwise_map.2 (h.imp (.cons m))
  fun_induction walks A seen i with
  | case1 => exact .nil
  | case2 => exact .nil
  | case3 => exact List.pairwise_singleton ..
  | case4 => exact List.pairwise_singleton ..
  | case5 => exact hcons _ ‹_›
  | case6 seen i hi first second hn ih₁ ih₂ =>
    refine List.pairwise_append.2 ⟨hcons _ ih₁, hcons _ ih₂, ?_⟩
    intro v hv w hw
    obtain ⟨v', -, rfl⟩ := List.mem_map.1 hv
    obtain ⟨w', -, rfl⟩ := List.mem_map.1 hw
    exact .part v'.moves w'.moves

end Automaton

end Submatch
