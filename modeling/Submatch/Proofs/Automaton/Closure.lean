import Submatch.Proofs.Automaton.Walks
import Submatch.Proofs.Fault

/-!
# The closure keeps the first walks

`Automaton.closureFrom` marks the nodes that any thread has passed, so it tries fewer ways
than there are walks. Still the first thread that it brings to a node with some property
has come along the first walk to such a node, whatever the property, if it holds of the
accepting node (`find?_closureFrom`). The threads rest on different nodes, and none rests
behind an accepting one (`closureFrom_landed`), and each has come along the first walk to its node
(`find?_landings_of_mem`).
-/

namespace Submatch.Automaton

variable {σ : Type} {A : Automaton} {seen : Finset Nat} {good : Nat → Bool}

/-- The nodes that are marked are those of a set. -/
def Marks (visited : Array Bool) (seen : Finset Nat) : Prop :=
  ∀ (i : Nat) (h : i < visited.size), visited[i] = true ↔ i ∈ seen

theorem Marks.set {visited : Array Bool} (hm : Marks visited seen) {i : Nat}
    (h : i < visited.size) : Marks (visited.set i true h) (insert i seen) := by
  intro j hj
  have hj' : j < visited.size := by simpa using hj
  rw [Array.getElem_set, Finset.mem_insert, ← hm j hj']
  by_cases hij : i = j
  · simp [hij]
  · rw [if_neg hij, or_iff_right (Ne.symm hij)]

theorem marks_replicate (n : Nat) : Marks (Array.replicate n false) ∅ := by
  intro i h
  simp

@[simp] theorem along_nil (a : Arrival σ) (i : Nat) (h : a.node = i) : a.along ⟨[], i⟩ = a := by
  subst h
  rfl

theorem along_cons_pass (a : Arrival σ) (tag : Tag) (next : Nat) (w : Walk) :
    a.along (w.cons (.pass tag)) = (a.passTo tag next).along w := by
  simp [Arrival.along, Walk.cons, Arrival.passTo, Motion.passes, Motion.tag?]

theorem along_cons_choose (a : Arrival σ) (isFirst : Bool) (next : Nat) (w : Walk) :
    a.along (w.cons (.choose isFirst)) = (a.goTo next).along w := by
  simp [Arrival.along, Walk.cons, Arrival.goTo, Motion.passes, Motion.tag?]

theorem landings_of_mem {a : Arrival σ} (h : a.node ∈ seen) : A.landings seen a = [] := by
  rw [landings, walks_of_mem h, List.map_nil]

theorem landings_of_resting {a : Arrival σ} {node : Node} (h : a.node ∉ seen)
    (hn : A.nodes[a.node]? = some node) (hr : node.isResting = true) :
    A.landings seen a = [a] := by
  rw [landings, walks_of_resting h hn hr, List.map_singleton, along_nil a _ rfl]

theorem landings_of_mark {a : Arrival σ} {tag : Tag} {next : Nat} (h : a.node ∉ seen)
    (hn : A.nodes[a.node]? = some (.mark tag next)) :
    A.landings seen a = A.landings (insert a.node seen) (a.passTo tag next) := by
  rw [landings, walks_of_mark h hn, List.map_map]
  exact List.map_congr_left fun w _ => along_cons_pass a tag next w

theorem landings_of_fork {a : Arrival σ} {first second : Nat} (h : a.node ∉ seen)
    (hn : A.nodes[a.node]? = some (.fork first second)) :
    A.landings seen a = A.landings (insert a.node seen) (a.goTo first) ++
      A.landings (insert a.node seen) (a.goTo second) := by
  rw [landings, walks_of_fork h hn, List.map_append, List.map_map, List.map_map]
  exact congrArg₂ _ (List.map_congr_left fun w _ => along_cons_choose a true first w)
    (List.map_congr_left fun w _ => along_cons_choose a false second w)

theorem filter_landings (a : Arrival σ) :
    (A.landings seen a).filter (fun b => good b.node) =
      ((A.walks seen a.node).filter fun w => good w.stop).map a.along :=
  List.filter_map ..

/-- A node can be avoided once its landings have been listed. -/
theorem find?_landings_insert {a : Arrival σ} {listed : List (Arrival σ)}
    (h : A.landings seen a ⊆ listed) (rest : List (Arrival σ)) :
    (listed ++ rest.flatMap (A.landings (insert a.node seen))).find? (fun b => good b.node) =
      (listed ++ rest.flatMap (A.landings seen)).find? fun b => good b.node := by
  rw [List.find?_append, List.find?_append]
  cases hfind : listed.find? (fun b => good b.node) with
  | some b => rfl
  | none =>
    have hbad : ∀ w ∈ A.walks seen a.node, good w.stop = false := fun w hw =>
      Bool.eq_false_iff.2 (List.find?_eq_none.1 hfind (a.along w) (h (List.mem_map_of_mem hw)))
    rw [Option.none_or, Option.none_or, ← List.head?_filter, ← List.head?_filter,
      List.filter_flatMap, List.filter_flatMap]
    congr 1
    refine List.flatMap_congr fun b _ => ?_
    rw [filter_landings, filter_landings, filter_walks_insert hbad]

/-- **The first walks are kept.** The first arrival on a good node is the one along the
first walk to a good node. -/
theorem find?_closureFrom
    (haccept : ∀ i, A.nodes[i]? = some .accept → good i = true) {visited : Array Bool}
    (hm : Marks visited seen) {stack rested out : List (Arrival σ)}
    (h : A.closureFrom visited stack rested = .ok out) :
    out.reverse.find? (fun a => good a.node) =
      (rested.reverse ++ stack.flatMap (A.landings seen)).find? fun a => good a.node := by
  -- in every case the walks from the nodes on the stack are listed in the order of the stack
  fun_induction closureFrom A visited stack rested generalizing seen with
  | case1 visited rested =>
    cases h
    rw [List.flatMap_nil, List.append_nil]
  | case2 visited rested a rest hlt hv ih =>
    rw [ih hm h, List.flatMap_cons, landings_of_mem ((hm _ hlt).1 hv), List.nil_append]
  | case3 => cases h
  | case4 visited rested a rest hlt hv visited' ranges next hn =>
    rename_i ih
    have hns : a.node ∉ seen := fun hs => hv ((hm _ hlt).2 hs)
    rw [ih (hm.set hlt) h, List.reverse_cons, List.flatMap_cons,
      find?_landings_insert (landings_of_resting hns hn rfl ▸ List.subset_append_right _ _),
      landings_of_resting hns hn rfl, List.append_assoc]
  | case5 visited rested a rest hlt hv hn =>
    have hns : a.node ∉ seen := fun hs => hv ((hm _ hlt).2 hs)
    cases h
    -- the accepting node is good, so what the stack still holds is not looked at
    have hsome : ((rested.reverse ++ [a]).find? fun b => good b.node).isSome = true :=
      List.find?_isSome.2 ⟨a, List.mem_append_right _ List.mem_cons_self, haccept _ hn⟩
    rw [List.reverse_cons, List.flatMap_cons, landings_of_resting hns hn rfl, ← List.append_assoc,
      @List.find?_append _ _ (rested.reverse ++ [a]), Option.or_of_isSome hsome]
  | case6 visited rested a rest hlt hv visited' tag next hn =>
    rename_i ih
    have hns : a.node ∉ seen := fun hs => hv ((hm _ hlt).2 hs)
    rw [ih (hm.set hlt) h, List.flatMap_cons, List.flatMap_cons, ← landings_of_mark hns hn,
      ← List.append_assoc, find?_landings_insert (List.subset_append_right _ _),
      List.append_assoc]
  | case7 visited rested a rest hlt hv visited' first second hn =>
    rename_i ih
    have hns : a.node ∉ seen := fun hs => hv ((hm _ hlt).2 hs)
    rw [ih (hm.set hlt) h, List.flatMap_cons, List.flatMap_cons, List.flatMap_cons,
      ← List.append_assoc (A.landings _ (a.goTo first)), ← landings_of_fork hns hn,
      ← List.append_assoc, find?_landings_insert (List.subset_append_right _ _),
      List.append_assoc]
  | case8 => cases h

/-- What a search has gathered so far: threads that wait on different marked nodes and come
from origins with a property. -/
structure Waiting (A : Automaton) (P : σ → Prop) (seen : Finset Nat)
    (rested : List (Arrival σ)) : Prop where
  nodup : (rested.map (·.node)).Nodup
  seen : ∀ a ∈ rested, a.node ∈ seen
  consume : ∀ a ∈ rested, ∃ ranges next, A.nodes[a.node]? = some (.consume ranges next)
  origin : ∀ a ∈ rested, P a.origin

/-- Threads that have come to rest, newest first: on different nodes, from origins with a
property, with none behind an accepting one. -/
structure Landed (A : Automaton) (P : σ → Prop) (out : List (Arrival σ)) : Prop where
  nodup : (out.map (·.node)).Nodup
  resting : ∀ a ∈ out, ∃ node, A.nodes[a.node]? = some node ∧ node.isResting = true
  consume : ∀ a ∈ out.tail, ∃ ranges next, A.nodes[a.node]? = some (.consume ranges next)
  origin : ∀ a ∈ out, P a.origin

variable {P : σ → Prop} {rested : List (Arrival σ)}

theorem Waiting.insert (h : Waiting A P seen rested) (i : Nat) :
    Waiting A P (insert i seen) rested :=
  ⟨h.nodup, fun a ha => Finset.mem_insert_of_mem (h.seen a ha), h.consume, h.origin⟩

theorem Waiting.landed (h : Waiting A P seen rested) : Landed A P rested := by
  refine ⟨h.nodup, fun a ha => ?_, fun a ha => h.consume a (List.mem_of_mem_tail ha), h.origin⟩
  obtain ⟨ranges, next, hn⟩ := h.consume a ha
  exact ⟨_, hn, rfl⟩

theorem Waiting.nodup_cons (h : Waiting A P seen rested) {a : Arrival σ} (ha : a.node ∉ seen) :
    ((a :: rested).map (·.node)).Nodup := by
  refine List.nodup_cons.2 ⟨fun hmem => ?_, h.nodup⟩
  obtain ⟨b, hb, hnode⟩ := List.mem_map.1 hmem
  exact ha (hnode.subst (motive := (· ∈ seen)) (h.seen b hb))

/-- On an automaton in which every node named exists, a search ends, and what it has
gathered is well formed. -/
theorem closureFrom_landed (hA : A.Closed) {visited : Array Bool}
    (hsize : visited.size = A.nodes.size) (hm : Marks visited seen)
    {stack : List (Arrival σ)} (hstack : ∀ a ∈ stack, a.node < A.nodes.size ∧ P a.origin)
    (hw : Waiting A P seen rested) :
    ∃ out, A.closureFrom visited stack rested = .ok out ∧ Landed A P out := by
  fun_induction closureFrom A visited stack rested generalizing seen with
  | case1 visited rested => exact ⟨rested, rfl, hw.landed⟩
  | case2 visited rested a rest hlt hv ih =>
    exact ih hsize hm (fun b hb => hstack b (List.mem_cons_of_mem _ hb)) hw
  | case3 visited rested a rest hlt hv hn =>
    rw [hsize] at hlt
    exact absurd hn (by simp [hlt])
  | case4 visited rested a rest hlt hv visited' ranges next hn =>
    rename_i ih
    have hns : a.node ∉ seen := fun hs => hv ((hm _ hlt).2 hs)
    refine ih (by simpa [visited'] using hsize) (hm.set hlt)
      (fun b hb => hstack b (List.mem_cons_of_mem _ hb)) ⟨hw.nodup_cons hns, ?_, ?_, ?_⟩
    · exact List.forall_mem_cons.2 ⟨Finset.mem_insert_self .., (hw.insert _).seen⟩
    · exact List.forall_mem_cons.2 ⟨⟨ranges, next, hn⟩, hw.consume⟩
    · exact List.forall_mem_cons.2 ⟨(hstack a List.mem_cons_self).2, hw.origin⟩
  | case5 visited rested a rest hlt hv hn =>
    have hns : a.node ∉ seen := fun hs => hv ((hm _ hlt).2 hs)
    exact ⟨a :: rested, rfl, hw.nodup_cons hns,
      List.forall_mem_cons.2 ⟨⟨_, hn, rfl⟩, hw.landed.resting⟩, hw.consume,
      List.forall_mem_cons.2 ⟨(hstack a List.mem_cons_self).2, hw.origin⟩⟩
  | case6 visited rested a rest hlt hv visited' tag next hn =>
    rename_i ih
    have ht := hA.targets _ _ hn
    obtain ⟨hhead, hrest⟩ := List.forall_mem_cons.1 hstack
    exact ih (by simpa [visited'] using hsize) (hm.set hlt)
      (List.forall_mem_cons.2 ⟨⟨ht next List.mem_cons_self, hhead.2⟩, hrest⟩) (hw.insert _)
  | case7 visited rested a rest hlt hv visited' first second hn =>
    rename_i ih
    have ht := hA.targets _ _ hn
    obtain ⟨hhead, hrest⟩ := List.forall_mem_cons.1 hstack
    exact ih (by simpa [visited'] using hsize) (hm.set hlt)
      (List.forall_mem_cons.2 ⟨⟨ht first List.mem_cons_self, hhead.2⟩,
        List.forall_mem_cons.2 ⟨⟨ht second (by simp [Node.targets]), hhead.2⟩, hrest⟩⟩)
      (hw.insert _)
  | case8 visited rested a rest hlt =>
    exact absurd (hsize ▸ (hstack a List.mem_cons_self).1) hlt

/-- The first walks are kept from the seeds on. -/
theorem find?_closure (haccept : ∀ i, A.nodes[i]? = some .accept → good i = true)
    {seeds : List (Nat × σ)} {arrivals : List (Arrival σ)} (h : A.closure seeds = .ok arrivals) :
    arrivals.find? (fun a => good a.node) =
      ((seeds.map fun s => ⟨s.1, s.2, []⟩).flatMap (A.landings ∅)).find?
        fun a => good a.node := by
  obtain ⟨out, hfrom, hreverse⟩ := bind_eq_ok.1 h
  cases hreverse
  exact find?_closureFrom haccept (marks_replicate _) hfrom

/-- From seeds that exist, a search ends with threads on different nodes at rest. -/
theorem closure_landed (hA : A.Closed) {seeds : List (Nat × σ)}
    (hseeds : ∀ s ∈ seeds, s.1 < A.nodes.size ∧ P s.2) :
    ∃ arrivals, A.closure seeds = .ok arrivals ∧ Landed A P arrivals.reverse := by
  have hstack : ∀ a ∈ seeds.map fun s => (⟨s.1, s.2, []⟩ : Arrival σ),
      a.node < A.nodes.size ∧ P a.origin := by
    intro a ha
    obtain ⟨s, hs, rfl⟩ := List.mem_map.1 ha
    exact hseeds s hs
  have hwaiting : Waiting A P ∅ [] := ⟨List.nodup_nil, nofun, nofun, nofun⟩
  obtain ⟨out, hout, hlanded⟩ := closureFrom_landed hA Array.size_replicate
    (marks_replicate _) hstack hwaiting
  exact ⟨out.reverse, bind_eq_ok.2 ⟨out, hout, rfl⟩, by rwa [List.reverse_reverse]⟩

/-- Threads that come to rest in front of another one rest on other nodes, and do not accept. -/
theorem Landed.before {before after : List (Arrival σ)} {a b : Arrival σ}
    (h : Landed A P (before ++ a :: after).reverse) (hb : b ∈ before) :
    b.node ≠ a.node ∧ A.nodes[b.node]? ≠ some .accept := by
  constructor
  · intro heq
    have hnodup := h.nodup
    rw [List.map_reverse, List.nodup_reverse, List.map_append, List.map_cons] at hnodup
    have hdisjoint := (List.nodup_append.1 hnodup).2.2
    exact hdisjoint _ (List.mem_map_of_mem hb) _ List.mem_cons_self heq
  · obtain ⟨ranges, next, hn⟩ := h.consume b (by
      rw [List.tail_reverse, List.dropLast_append_cons]
      exact List.mem_reverse.2 (List.mem_append_left _ hb))
    rw [hn]
    nofun

/-- **A thread that comes to rest has come along the first walk to its node.** -/
theorem find?_landings_of_mem {seeds : List (Nat × σ)} {arrivals : List (Arrival σ)}
    (h : A.closure seeds = .ok arrivals) (hlanded : Landed A P arrivals.reverse) {a : Arrival σ}
    (ha : a ∈ arrivals) :
    ((seeds.map fun s => ⟨s.1, s.2, []⟩).flatMap (A.landings ∅)).find?
      (fun b => b.node == a.node) = some a := by
  -- an accepting node counts as well, and the thread is still the first one found
  let good (i : Nat) : Bool := i == a.node || A.nodes[i]? == some .accept
  have haccept : ∀ i, A.nodes[i]? = some .accept → good i = true := fun i hi =>
    Bool.or_eq_true_iff.2 (.inr (beq_iff_eq.2 hi))
  have hself : good a.node = true := Bool.or_eq_true_iff.2 (.inl (beq_self_eq_true _))
  obtain ⟨before, after, rfl⟩ := List.append_of_mem ha
  have hfirst : (before ++ a :: after).find? (fun b => good b.node) = some a := by
    refine List.find?_eq_some_iff_append.2 ⟨hself, before, after, rfl, fun b hb => ?_⟩
    obtain ⟨hne, hwaits⟩ := hlanded.before hb
    simp [good, hne, hwaits]
  rw [find?_closure haccept h] at hfirst
  obtain ⟨-, xs, ys, heq, hothers⟩ := List.find?_eq_some_iff_append.1 hfirst
  refine List.find?_eq_some_iff_append.2 ⟨beq_self_eq_true _, xs, ys, heq, fun b hb => ?_⟩
  have hb := hothers b hb
  simp only [good, Bool.not_eq_true', Bool.or_eq_false_iff] at hb ⊢
  exact hb.1

end Submatch.Automaton
