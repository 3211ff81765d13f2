import Submatch.Proofs.Automaton.Contraction
import Submatch.Proofs.Automaton.Routes

/-!
# Routes without the boundaries left out

A boundary that is left out has one way on. So a route that comes to it twice comes to the node
behind it twice, and to leave it out neither merges two routes nor makes a new one: the routes of
the contracted automaton are those of the automaton without the boundaries left out, in the same
order of preference (`ContractsTo.routes`). This holds of loops around groups that read nothing as
well.
-/

namespace Submatch

/-- An item that is kept has as many items in front of it as are kept before it. -/
theorem getElem?_filter_countP {α : Type} {p : α → Bool} {l : List α} {i : Nat} {x : α}
    (h : l[i]? = some x) (hx : p x = true) :
    (l.filter p)[(l.take i).countP p]? = some x := by
  induction l generalizing i with
  | nil => cases h
  | cons a l ih =>
    cases i with
    | zero =>
      cases h
      simp [hx]
    | succ i =>
      rw [List.getElem?_cons_succ] at h
      have hrest := ih h
      by_cases ha : p a = true
      · simp [ha, hrest]
      · simp [ha, hrest]

/-- Items that are kept have different numbers of items kept before them. -/
theorem countP_take_lt {α : Type} {p : α → Bool} {l : List α} {i j : Nat} {x : α}
    (h : l[i]? = some x) (hx : p x = true) (hlt : i < j) :
    (l.take i).countP p < (l.take j).countP p := by
  have hsucc : (l.take (i + 1)).countP p = (l.take i).countP p + 1 := by
    rw [List.take_add_one, h, List.countP_append]
    simp [hx]
  have hmono : (l.take (i + 1)).countP p ≤ (l.take j).countP p :=
    (List.take_sublist_take_left hlt).countP_le
  omega

@[simp] theorem Motion.select_read (σ : Selection) (c : Char) (ms : List Motion) :
    Motion.select σ (.read c :: ms) = .read c :: Motion.select σ ms := rfl

@[simp] theorem Motion.select_choose (σ : Selection) (isFirst : Bool) (ms : List Motion) :
    Motion.select σ (.choose isFirst :: ms) = .choose isFirst :: Motion.select σ ms := rfl

theorem Motion.select_pass_of_keeps {σ : Selection} {tag : Tag} (h : σ.keeps tag.group = true)
    (ms : List Motion) :
    Motion.select σ (.pass tag :: ms) = .pass (tag.select σ) :: Motion.select σ ms := by
  simp [select, select?, h]

theorem Motion.select_pass_of_not_keeps {σ : Selection} {tag : Tag}
    (h : σ.keeps tag.group = false) (ms : List Motion) :
    Motion.select σ (.pass tag :: ms) = Motion.select σ ms := by
  simp [select, select?, h]

namespace Automaton

variable {σ : Selection} {A B : Automaton} {seen seen' : Finset Nat} {i : Nat}

namespace ContractsTo

/-- A node that stays lies at its new place. -/
theorem getElem?_placeOf (h : A.ContractsTo σ B) {node : Node} (hn : A.nodes[i]? = some node)
    (hkept : node.isKept σ = true) :
    B.nodes[A.placeOf σ i]? = some (node.relocate σ (A.placeOf σ)) := by
  have hlist : A.nodes.toList[i]? = some node := by rwa [Array.getElem?_toList]
  have hfilter := getElem?_filter_countP hlist hkept
  rw [h.nodes, contract, Array.getElem?_map, placeOf_of_isKept hn hkept, ← Array.getElem?_toList,
    Array.toList_filter, hfilter]
  rfl

/-- A boundary left out has the place of the node behind it, which lies before it. -/
theorem placeOf_mark (h : A.ContractsTo σ B) {tag : Tag} {next : Nat}
    (hn : A.nodes[i]? = some (.mark tag next)) (herased : σ.keeps tag.group = false) :
    A.placeOf σ i = A.placeOf σ next ∧ next < i := by
  have hlt := h.descending.lt_of_mark hn
  exact ⟨placeOf_of_erased hn herased hlt, hlt⟩

/-- Nodes that stay have different places. -/
theorem placeOf_inj {j : Nat} {node node' : Node} (hi : A.nodes[i]? = some node)
    (hkept : node.isKept σ = true) (hj : A.nodes[j]? = some node')
    (hkept' : node'.isKept σ = true) : A.placeOf σ i = A.placeOf σ j ↔ i = j := by
  refine ⟨fun heq => ?_, fun heq => heq ▸ rfl⟩
  rw [placeOf_of_isKept hi hkept, placeOf_of_isKept hj hkept'] at heq
  rw [← Array.getElem?_toList] at hi hj
  rcases Nat.lt_trichotomy i j with hlt | rfl | hlt
  · have := countP_take_lt hi hkept hlt
    omega
  · rfl
  · have := countP_take_lt hj hkept' hlt
    omega

end ContractsTo

/-- The nodes to avoid correspond, on the way to the node `i`: of those that stay the places are to
be avoided; and where a boundary left out is to be avoided, so is the node behind it, unless the
way leads from that boundary to `i` at once. -/
structure Avoids (σ : Selection) (A : Automaton) (seen seen' : Finset Nat) (i : Nat) : Prop where
  kept : ∀ (j : Nat) (node : Node), A.nodes[j]? = some node → node.isKept σ = true →
    (j ∈ seen ↔ A.placeOf σ j ∈ seen')
  erased : ∀ (j : Nat) (tag : Tag) (next : Nat), A.nodes[j]? = some (.mark tag next) →
    σ.keeps tag.group = false → j ∈ seen →
      A.placeOf σ j ∈ seen' ∨ (A.placeOf σ j = A.placeOf σ i ∧ i < j)

theorem avoids_empty (σ : Selection) (A : Automaton) (i : Nat) : Avoids σ A ∅ ∅ i :=
  ⟨fun j node _ _ => by simp, fun j tag next _ _ hj => absurd hj (Finset.notMem_empty j)⟩

/-- A node that stays is avoided from now on, and so is its place. -/
theorem Avoids.insert (h : Avoids σ A seen seen' i) {node : Node}
    (hn : A.nodes[i]? = some node) (hkept : node.isKept σ = true) (next : Nat) :
    Avoids σ A (insert i seen) (insert (A.placeOf σ i) seen') next := by
  refine ⟨fun j node' hj hkept' => ?_, fun j tag target hj herased hmem => ?_⟩
  · rw [Finset.mem_insert, Finset.mem_insert, h.kept j node' hj hkept',
      ContractsTo.placeOf_inj hj hkept' hn hkept]
  · rcases Finset.mem_insert.1 hmem with rfl | hmem
    · rw [hj] at hn
      cases hn
      have hkeeps : σ.keeps tag.group = true := hkept
      rw [hkeeps] at herased
      cases herased
    · rcases h.erased j tag target hj herased hmem with hseen | ⟨hplace, -⟩
      · exact .inl (Finset.mem_insert_of_mem hseen)
      · exact .inl (hplace ▸ Finset.mem_insert_self ..)

/-- A boundary left out is avoided from now on, and its place is that of the node behind it. -/
theorem Avoids.insert_erased (hcontracts : A.ContractsTo σ B) (h : Avoids σ A seen seen' i)
    {tag : Tag} {next : Nat} (hn : A.nodes[i]? = some (.mark tag next))
    (herased : σ.keeps tag.group = false) : Avoids σ A (Insert.insert i seen) seen' next := by
  obtain ⟨hplace, hlt⟩ := hcontracts.placeOf_mark hn herased
  refine ⟨fun j node hj hkept => ?_, fun j tag' target hj herased' hmem => ?_⟩
  · have hne : j ≠ i := by
      rintro rfl
      rw [hn] at hj
      cases hj
      have hkeeps : σ.keeps tag.group = true := hkept
      rw [herased] at hkeeps
      cases hkeeps
    rw [Finset.mem_insert, or_iff_right hne, h.kept j node hj hkept]
  · rcases Finset.mem_insert.1 hmem with rfl | hmem
    · exact .inr ⟨hplace, hlt⟩
    · rcases h.erased j tag' target hj herased' hmem with hseen | ⟨hplace', hlt'⟩
      · exact .inl hseen
      · exact .inr ⟨hplace'.trans hplace, by omega⟩

/-- **Routes of the contracted automaton.** They are the routes of the automaton without the
boundaries left out, preferred ones first. -/
theorem ContractsTo.routes (h : A.ContractsTo σ B) (hA : A.Closed) {seen seen' : Finset Nat}
    {i : Nat} (text : List Char) (hi : i < A.nodes.size) (hseen : Avoids σ A seen seen' i) :
    B.routes seen' (A.placeOf σ i) text = (A.routes seen i text).map (Motion.select σ) := by
  obtain ⟨node, hn⟩ : ∃ node, A.nodes[i]? = some node := ⟨_, Array.getElem?_eq_getElem hi⟩
  have htarget := hA.targets i node hn
  cases hkept : node.isKept σ with
  | false =>
    cases node with
    | consume | fork | accept => cases hkept
    | mark tag next =>
      have herased : σ.keeps tag.group = false := hkept
      obtain ⟨hplace, -⟩ := h.placeOf_mark hn herased
      by_cases hmem : i ∈ seen
      · -- the way to a boundary does not lead from that boundary at once
        have hmem' : A.placeOf σ i ∈ seen' := by
          rcases hseen.erased i tag next hn herased hmem with hseen | ⟨-, hlt⟩
          · exact hseen
          · exact absurd hlt (Nat.lt_irrefl i)
        rw [routes_of_mem hmem, routes_of_mem hmem', List.map_nil]
      · have hlt := card_sdiff_insert_lt hmem hn
        have hnext := h.routes hA text (htarget next List.mem_cons_self)
          (hseen.insert_erased h hn herased)
        have hselect : Motion.select σ ∘ (Motion.pass tag :: ·) = Motion.select σ :=
          funext fun ms => Motion.select_pass_of_not_keeps herased ms
        rw [hplace, hnext, routes_of_mark hmem hn, List.map_map, hselect]
  | true =>
    have hn' := h.getElem?_placeOf hn hkept
    have hmem' := hseen.kept i node hn hkept
    by_cases hmem : i ∈ seen
    · rw [routes_of_mem hmem, routes_of_mem (hmem'.1 hmem), List.map_nil]
    have hlt := card_sdiff_insert_lt hmem hn
    have hfree : A.placeOf σ i ∉ seen' := fun h => hmem (hmem'.2 h)
    have havoids := hseen.insert hn hkept
    cases node with
    | accept => rw [routes_of_accept hmem hn, routes_of_accept hfree hn']; rfl
    | consume ranges next =>
      cases text with
      | nil => rw [routes_of_consume_nil hn, routes_of_consume_nil hn', List.map_nil]
      | cons c rest =>
        have hnext := h.routes hA rest (htarget next List.mem_cons_self) (avoids_empty σ A next)
        rw [routes_of_consume hmem hn, routes_of_consume hfree hn', hnext]
        split
        · rw [List.map_map, List.map_map]
          rfl
        · rfl
    | mark tag next =>
      have hnext := h.routes hA text (htarget next List.mem_cons_self) (havoids next)
      rw [routes_of_mark hmem hn, routes_of_mark hfree hn', hnext, List.map_map, List.map_map]
      exact List.map_congr_left fun ms _ => (Motion.select_pass_of_keeps hkept ms).symm
    | fork first second =>
      have hfirst := h.routes hA text (htarget first List.mem_cons_self) (havoids first)
      have hsecond := h.routes hA text (htarget second (List.mem_cons_of_mem _ List.mem_cons_self))
        (havoids second)
      rw [routes_of_fork hmem hn, routes_of_fork hfree hn', hfirst, hsecond, List.map_append,
        List.map_map, List.map_map, List.map_map, List.map_map]
      rfl
termination_by (text.length, (Finset.range A.nodes.size \ seen).card)
decreasing_by
  all_goals first
    | exact Prod.Lex.right _ hlt
    | exact Prod.Lex.left _ _ (Nat.lt_succ_self _)

end Automaton

end Submatch
