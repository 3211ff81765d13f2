import Mathlib.Data.Finset.Option
import Mathlib.Data.Fintype.BigOperators
import Submatch.Dfa.Machine
import Submatch.Proofs.Dfa.Frontier
import Submatch.Proofs.Order.Appearance

/-!
# There are finitely many states

A frontier that a run can come to is determined by at most one thread for each node at rest, and a
thread by its node and a register of the working bank, or none, for each tag (`Frontier.code`). So
there are at most `Automaton.stateBound` of them (`size_le_stateBound`), however long texts are.
-/

namespace Submatch

/-- A bound on the number of states, from the number of nodes at rest and the number of tags. -/
def Automaton.stateBound (A : Automaton) : Nat :=
  (A.restingCount * (A.restingCount * A.tagCount + 1) ^ A.tagCount + 1) ^ A.restingCount

/-- What a thread is made of. -/
abbrev ThreadCode (A : Automaton) : Type := Nat × (Fin A.tagCount → Option Nat)

/-- What a frontier is made of: a thread or none in each of the places that there are. -/
abbrev FrontierCode (A : Automaton) : Type := Fin A.restingCount → Option (ThreadCode A)

namespace Automaton

/-- The nodes on which threads can come to rest. -/
def restingNodes (A : Automaton) : Finset Nat :=
  {i ∈ Finset.range A.nodes.size | (A.nodes[i]?).any Node.isResting = true}

/-- The threads at rest whose registers lie in the working bank. -/
def threadCodes (A : Automaton) : Finset (ThreadCode A) :=
  A.restingNodes ×ˢ
    Fintype.piFinset fun _ => Finset.insertNone (Finset.range (A.restingCount * A.tagCount))

/-- The frontiers of such threads. -/
def frontierCodes (A : Automaton) : Finset (FrontierCode A) :=
  Fintype.piFinset fun _ => Finset.insertNone A.threadCodes

variable {A : Automaton}

theorem mem_restingNodes {i : Nat} :
    i ∈ A.restingNodes ↔ ∃ node, A.nodes[i]? = some node ∧ node.isResting = true := by
  unfold restingNodes
  rw [Finset.mem_filter, Finset.mem_range]
  constructor
  · rintro ⟨hi, hany⟩
    rw [Array.getElem?_eq_getElem hi] at hany ⊢
    exact ⟨_, rfl, hany⟩
  · rintro ⟨node, hnode, hresting⟩
    rw [hnode]
    exact ⟨(Array.getElem?_eq_some_iff.1 hnode).1, hresting⟩

theorem card_restingNodes_le : A.restingNodes.card ≤ A.restingCount := by
  rw [← Finset.length_toList]
  refine length_le_restingCount A.restingNodes.nodup_toList fun i hi => ?_
  exact mem_restingNodes.1 (Finset.mem_toList.1 hi)

theorem card_frontierCodes_le : A.frontierCodes.card ≤ A.stateBound := by
  have hthreads : A.threadCodes.card ≤
      A.restingCount * (A.restingCount * A.tagCount + 1) ^ A.tagCount := by
    unfold threadCodes
    rw [Finset.card_product, Fintype.card_piFinset_const, Finset.card_insertNone,
      Finset.card_range]
    exact Nat.mul_le_mul_right _ card_restingNodes_le
  unfold frontierCodes stateBound
  rw [Fintype.card_piFinset_const, Finset.card_insertNone]
  exact Nat.pow_le_pow_left (Nat.succ_le_succ hthreads) _

end Automaton

variable {A : Automaton}

/-- The node of a thread and the register of every tag. -/
def Thread.code (A : Automaton) (t : Thread) : ThreadCode A :=
  (t.node, fun tag => (t.cells[tag.val]?).join)

theorem Thread.code_inj {t u : Thread} (ht : Fits (.ofAutomaton A) t.cells)
    (hu : Fits (.ofAutomaton A) u.cells) (h : t.code A = u.code A) : t = u := by
  obtain ⟨hnode, hcode⟩ := Prod.mk.inj h
  have hcells : t.cells = u.cells := by
    refine List.ext_getElem (ht.length.trans hu.length.symm) fun tag htag htag' => ?_
    have hlt : tag < A.tagCount := Nat.lt_of_lt_of_eq htag ht.length
    have hcell := congrFun hcode ⟨tag, hlt⟩
    simpa [List.getElem?_eq_getElem htag, List.getElem?_eq_getElem htag'] using hcell
  cases t
  cases u
  simp_all

/-- The threads of a frontier, each in its place. -/
def Frontier.code (A : Automaton) (f : Frontier) : FrontierCode A :=
  fun place => (f.threads[place.val]?).map (Thread.code A)

namespace Frontier

variable {f g : Frontier}

theorem Sound.length_le (h : f.Sound A) : f.threads.length ≤ A.restingCount := by
  rw [← List.length_map Thread.node]
  refine Automaton.length_le_restingCount h.nodup fun i hi => ?_
  obtain ⟨t, ht, rfl⟩ := List.mem_map.1 hi
  exact h.resting t ht

theorem Sound.code_mem (h : f.Sound A) : f.code A ∈ A.frontierCodes := by
  refine Fintype.mem_piFinset.2 fun place => ?_
  unfold Frontier.code
  cases hplace : f.threads[place.val]? with
  | none => exact Finset.none_mem_insertNone
  | some t =>
    have ht := List.mem_of_getElem? hplace
    refine Finset.some_mem_insertNone.2 (Finset.mem_product.2 ⟨?_, ?_⟩)
    · exact Automaton.mem_restingNodes.2 (h.resting t ht)
    · refine Fintype.mem_piFinset.2 fun tag => Finset.mem_insertNone.2 fun r hr => ?_
      have hcell : t.cells[tag.val]? = some (some r) := by
        simpa [Thread.code, Option.join_eq_some_iff] using hr
      exact Finset.mem_range.2 ((h.fits t ht).working r (List.mem_of_getElem? hcell))

/-- **A frontier is determined by what it is made of.** -/
theorem Sound.code_inj (hf : f.Sound A) (hg : g.Sound A) (h : f.code A = g.code A) : f = g := by
  have hthreads : f.threads = g.threads := by
    refine List.ext_getElem? fun i => ?_
    by_cases hi : i < A.restingCount
    · have hplace : (f.threads[i]?).map (Thread.code A) = (g.threads[i]?).map (Thread.code A) :=
        congrFun h ⟨i, hi⟩
      cases hfi : f.threads[i]? with
      | none =>
        rw [hfi] at hplace
        exact (Option.map_eq_none_iff.1 hplace.symm).symm
      | some t =>
        rw [hfi] at hplace
        obtain ⟨u, hu, hcode⟩ := Option.map_eq_some_iff.1 hplace.symm
        rw [hu]
        exact congrArg some (Thread.code_inj (hf.fits t (List.mem_of_getElem? hfi))
          (hg.fits u (List.mem_of_getElem? hu)) hcode.symm)
    · have hlf := hf.length_le
      have hlg := hg.length_le
      rw [List.getElem?_eq_none (by omega), List.getElem?_eq_none (by omega)]
  exact congrArg Frontier.mk hthreads

end Frontier

/-- **The number of states is bounded** by what there is in the automaton. -/
theorem StateStore.size_le_stateBound {s : StateStore} (hs : s.Consistent)
    (hsound : ∀ f ∈ s.items, f.Sound A) : s.size ≤ A.stateBound := by
  have hcard : s.items.toList.toFinset.card = s.size := List.toFinset_card_of_nodup hs.nodup
  have hmem : ∀ f ∈ s.items.toList.toFinset, f.Sound A := by
    intro f hf
    exact hsound f (Array.mem_toList_iff.1 (List.mem_toFinset.1 hf))
  have hle : s.items.toList.toFinset.card ≤ A.frontierCodes.card := by
    refine Finset.card_le_card_of_injOn (Frontier.code A) ?_ ?_
    · intro f hf
      exact (hmem f hf).code_mem
    · intro f hf g hg hcode
      exact (hmem f hf).code_inj (hmem g hg) hcode
  rw [← hcard]
  exact Nat.le_trans hle Automaton.card_frontierCodes_le

end Submatch
