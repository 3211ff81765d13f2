import Submatch.Proofs.Automaton.Closure
import Submatch.Proofs.Automaton.Fragment

/-!
# Descent to a place of rest

The nodes of a pattern are laid back to front. A boundary leads on to a node that lies before it,
and so does one branch of every fork, also of the fork of a loop, which can be left
(`Automaton.descending_ofPattern`). So silent steps lead from every node to a place of rest, and
threads that set out never all vanish on the way (`Automaton.closure_ne_nil`).
-/

namespace Submatch

variable {base : Nat}

/-- The node at `i` is a place of rest or leads on to a node that lies before it: a boundary always
does, a fork on one of its branches. -/
def Node.Descends (i : Nat) : Node → Prop
  | mark _ next => next < i
  | fork first second => first < i ∨ second < i
  | consume .. | accept => True

/-- The nodes that lie from `base` on descend. -/
def Descending (base : Nat) (nodes : Array Node) : Prop :=
  ∀ (k : Nat) (node : Node), nodes[k]? = some node → node.Descends (base + k)

/-- The nodes descend, and the fragment is entered before its end. -/
structure Fragment.Descends (f : Fragment) (base : Nat) : Prop where
  entry : f.entry < base + f.nodes.size
  nodes : Descending base f.nodes

/-- The fragments descend if they go on at a node that lies before them. -/
def Blueprint.Descends (b : Blueprint) : Prop :=
  ∀ next base, next < base → (b next base).Descends base

theorem Descending.append {xs ys : Array Node} (hxs : Descending base xs)
    (hys : Descending (base + xs.size) ys) : Descending base (xs ++ ys) := by
  intro k node hk
  by_cases hlt : k < xs.size
  · rw [Array.getElem?_append_left hlt] at hk
    exact hxs k node hk
  · rw [Array.getElem?_append_right (by omega)] at hk
    have hnode := hys _ node hk
    rwa [show base + xs.size + (k - xs.size) = base + k by omega] at hnode

theorem descending_singleton {node : Node} (h : node.Descends base) :
    Descending base #[node] := by
  intro k other hk
  obtain ⟨hlt, heq⟩ := Array.getElem?_eq_some_iff.1 hk
  obtain rfl : k = 0 := by simpa using hlt
  subst heq
  exact h

theorem Descending.lt_of_mark {nodes : Array Node} (h : Descending 0 nodes) {i : Nat} {tag : Tag}
    {next : Nat} (hn : nodes[i]? = some (.mark tag next)) : next < i := by
  have hnode : next < 0 + i := h i _ hn
  omega

theorem Blueprint.descends_forkNode {isLazy : Bool} {more stop i : Nat}
    (h : more < i ∨ stop < i) : (forkNode isLazy more stop).Descends i := by
  cases isLazy with
  | false => exact h
  | true => exact h.symm

namespace Fragment.Descends

variable {f : Fragment} {b : Blueprint}

theorem add (h : f.Descends base) {node : Node} (hnode : node.Descends (base + f.nodes.size)) :
    (f.add base node).Descends base := by
  have hsize : (f.add base node).nodes.size = f.nodes.size + 1 := Array.size_push ..
  have hentry : (f.add base node).entry = base + f.nodes.size := rfl
  exact ⟨by omega, h.nodes.append (descending_singleton hnode)⟩

theorem precede (h : f.Descends base) (hb : b.Descends) : (f.precede base b).Descends base := by
  have hpart := hb f.entry (base + f.nodes.size) h.entry
  have hsize : (f.precede base b).nodes.size =
      f.nodes.size + (b f.entry (base + f.nodes.size)).nodes.size := Array.size_append
  have hentry : (f.precede base b).entry = (b f.entry (base + f.nodes.size)).entry := rfl
  have := hpart.entry
  exact ⟨by omega, h.nodes.append hpart.nodes⟩

end Fragment.Descends

namespace Blueprint

variable {b c : Blueprint}

theorem descends_skip : skip.Descends := by
  intro next base hlt
  exact ⟨hlt, fun k node hk => by simp [skip] at hk⟩

theorem descends_consume (ranges : List SymbolRange) : (consume ranges).Descends := by
  intro next base hlt
  have hentry : base < base + 1 := Nat.lt_succ_self base
  exact ⟨hentry, descending_singleton trivial⟩

theorem Descends.seq (hb : b.Descends) (hc : c.Descends) : (seq b c).Descends :=
  fun next base hlt => (hc next base hlt).precede hb

theorem Descends.alt (hb : b.Descends) (hc : c.Descends) : (alt b c).Descends := by
  intro next base hlt
  have hother := hc next base hlt
  have hpreferred := hb next (base + (c next base).nodes.size) (by omega)
  have hboth : Fragment.Descends ⟨(c next base).nodes ++
      (b next (base + (c next base).nodes.size)).nodes,
        (b next (base + (c next base).nodes.size)).entry⟩ base := by
    have hentry := hpreferred.entry
    refine ⟨?_, hother.nodes.append hpreferred.nodes⟩
    simp only [Array.size_append]
    omega
  exact hboth.add (.inl hboth.entry)

theorem Descends.group (hb : b.Descends) (index : Nat) : (group index b).Descends := by
  intro next base hlt
  have hclose : Fragment.Descends ⟨#[.mark ⟨index, .closing⟩ next], base⟩ base :=
    ⟨Nat.lt_succ_self base, descending_singleton hlt⟩
  have hinner := hclose.precede hb
  exact hinner.add hinner.entry

/-- The nodes of a loop descend, wherever it is entered: the fork leads out of the loop. -/
theorem Descends.loop (hb : b.Descends) (isLazy : Bool) {next base : Nat} (hlt : next < base)
    {entry : Nat} (hentry : entry = base ∨ entry = (b base (base + 1)).entry) :
    Fragment.Descends ⟨(loop isLazy b next base).nodes, entry⟩ base := by
  have hinner := hb base (base + 1) (Nat.lt_succ_self base)
  have hsize : (Blueprint.loop isLazy b next base).nodes.size =
      1 + (b base (base + 1)).nodes.size := Array.size_append
  have hfork : Descending base #[forkNode isLazy (b base (base + 1)).entry next] :=
    descending_singleton (descends_forkNode (.inr hlt))
  have := hinner.entry
  refine ⟨?_, hfork.append hinner.nodes⟩
  simp only
  omega

theorem Descends.optional (hb : b.Descends) (isLazy : Bool) (n : Nat) :
    (optional isLazy b n).Descends := by
  intro next base hlt
  induction n with
  | zero => exact descends_skip next base hlt
  | succ n ih =>
    have hone := ih.precede hb
    exact hone.add (descends_forkNode (.inl hone.entry))

theorem Descends.copies (hb : b.Descends) (hc : c.Descends) (n : Nat) :
    (copies b c n).Descends := by
  induction n with
  | zero => exact hc
  | succ n ih =>
    rw [copies_succ]
    exact hb.seq ih

theorem Descends.repeated (hb : b.Descends) (q : Quantifier) : (repeated b q).Descends := by
  obtain ⟨min, max, isLazy⟩ := q
  cases max with
  | some m => exact hb.copies (hb.optional isLazy (m - min)) min
  | none =>
    cases min with
    | zero => exact fun next base hlt => hb.loop isLazy hlt (.inl rfl)
    | succ n => exact hb.copies (fun next base hlt => hb.loop isLazy hlt (.inr rfl)) n

theorem descends_ofPattern (p : Pattern) : (ofPattern p).Descends := by
  induction p with
  | empty => exact descends_skip
  | char c => exact descends_consume _
  | set ranges => exact descends_consume ranges
  | any => exact descends_consume _
  | seq left right ihl ihr => exact ihl.seq ihr
  | alt left right ihl ihr => exact ihl.alt ihr
  | repeated body q ih => exact ih.repeated q
  | group index body ih => exact ih.group index

end Blueprint

namespace Automaton

/-- **The nodes of a pattern descend.** -/
theorem descending_ofPattern (n : NumberedPattern) : Descending 0 (ofPattern n).nodes := by
  have hwhole := (Blueprint.descends_ofPattern n.pattern).group 0 final 1 Nat.zero_lt_one
  have haccept : Descending 0 #[.accept] := descending_singleton trivial
  exact haccept.append hwhole.nodes

variable {σ : Type} {A : Automaton}

/-- Where nodes descend, a walk leads from every node to a place of rest, and passes no node that
lies behind it. -/
theorem walks_ne_nil (h : Descending 0 A.nodes) {seen : Finset Nat} {i : Nat}
    (hi : i < A.nodes.size) (hseen : ∀ j ∈ seen, i < j) : A.walks seen i ≠ [] := by
  induction i using Nat.strong_induction_on generalizing seen with
  | _ i ih =>
    have hnew : i ∉ seen := fun hmem => Nat.lt_irrefl i (hseen i hmem)
    have hn : A.nodes[i]? = some A.nodes[i] := Array.getElem?_eq_getElem hi
    have hlower : (A.nodes[i]).Descends i := by simpa using h i _ hn
    have hnext : ∀ j < i, A.walks (insert i seen) j ≠ [] := by
      intro j hj
      refine ih j hj (by omega) fun k hk => ?_
      rcases Finset.mem_insert.1 hk with rfl | hk
      · exact hj
      · exact Nat.lt_trans hj (hseen k hk)
    cases hnode : A.nodes[i] with
    | consume | accept =>
      rw [walks_of_resting hnew (hn.trans (congrArg some hnode)) rfl]
      exact List.cons_ne_nil _ _
    | mark tag next =>
      rw [hnode] at hlower
      rw [walks_of_mark hnew (hn.trans (congrArg some hnode)), Ne, List.map_eq_nil_iff]
      exact hnext next hlower
    | fork first second =>
      rw [hnode] at hlower
      rw [walks_of_fork hnew (hn.trans (congrArg some hnode)), Ne, List.append_eq_nil_iff,
        List.map_eq_nil_iff, List.map_eq_nil_iff]
      rintro ⟨hfirst, hsecond⟩
      rcases hlower with hlower | hlower
      · exact hnext first hlower hfirst
      · exact hnext second hlower hsecond

/-- **Threads that set out come to rest somewhere.** -/
theorem closure_ne_nil (h : Descending 0 A.nodes) {seeds : List (Nat × σ)} (hne : seeds ≠ [])
    (hseeds : ∀ s ∈ seeds, s.1 < A.nodes.size) {arrivals : List (Arrival σ)}
    (hclosure : A.closure seeds = .ok arrivals) : arrivals ≠ [] := by
  obtain ⟨s, rest, rfl⟩ := List.exists_cons_of_ne_nil hne
  have hfirst := @find?_closure _ _ (fun _ => true) (fun _ _ => rfl) _ _ hclosure
  have hwalks : A.walks ∅ s.1 ≠ [] :=
    walks_ne_nil h (hseeds s List.mem_cons_self) fun j hj => absurd hj (Finset.notMem_empty j)
  obtain ⟨w, ws, hw⟩ := List.exists_cons_of_ne_nil hwalks
  rw [List.map_cons, List.flatMap_cons, landings, hw] at hfirst
  rintro rfl
  cases hfirst

end Automaton

end Submatch
