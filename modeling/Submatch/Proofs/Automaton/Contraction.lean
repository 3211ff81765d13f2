import Submatch.Proofs.Automaton.Descent
import Submatch.Proofs.Pattern.Selection

/-!
# Leaving out the boundaries of groups

A group that no longer captures leaves out two nodes of the automaton, its boundaries. The others
keep their order. Where the nodes of a fragment have new places (`Places`), the fragment of the
selected pattern is the fragment of the pattern without the boundaries left out
(`Blueprint.contracts_ofPattern`). A boundary leads on to a node that lies before it, so the places
can be computed, and the same holds of whole automata (`Automaton.contracts_ofPattern`).
-/

namespace Submatch

variable {σ : Selection} {place : Nat → Nat} {base base' : Nat}

/-- Whether a node stays: the boundaries of groups left out do not. -/
def Node.isKept (σ : Selection) : Node → Bool
  | .mark tag _ => σ.keeps tag.group
  | .consume .. | .fork .. | .accept => true

/-- The node with new places for the nodes to which it leads, and a new number for its group. -/
def Node.relocate (σ : Selection) (place : Nat → Nat) : Node → Node
  | .consume ranges next => .consume ranges (place next)
  | .mark tag next => .mark (tag.select σ) (place next)
  | .fork first second => .fork (place first) (place second)
  | .accept => .accept

/-- The new place of a node that lies at `base`, if `base'` is the next place to be given: a node
that stays gets it, and a boundary left out has the place of the node to which it leads. -/
def Node.Placed (σ : Selection) (place : Nat → Nat) (base base' : Nat) : Node → Prop
  | .mark tag next => place base = if σ.keeps tag.group then base' else place next
  | .consume .. | .fork .. | .accept => place base = base'

/-- The nodes that lie from `base` on have their new places from `base'` on. -/
def Places (σ : Selection) (place : Nat → Nat) : (base base' : Nat) → List Node → Prop
  | _, _, [] => True
  | base, base', node :: nodes => node.Placed σ place base base' ∧
      Places σ place (base + 1) (base' + if node.isKept σ then 1 else 0) nodes

/-- The nodes that stay, with their new places. -/
def contract (σ : Selection) (place : Nat → Nat) (nodes : Array Node) : Array Node :=
  (nodes.filter (Node.isKept σ)).map (Node.relocate σ place)

/-- The fragment of the nodes that stay. -/
def Fragment.contract (σ : Selection) (place : Nat → Nat) (f : Fragment) : Fragment :=
  ⟨Submatch.contract σ place f.nodes, place f.entry⟩

/-- The second blueprint is the first one without the boundaries left out, wherever the nodes of
the first one lie. -/
def Blueprint.Contracts (σ : Selection) (b b' : Blueprint) : Prop :=
  ∀ (place : Nat → Nat) (next base base' : Nat),
    Places σ place base base' (b next base).nodes.toList →
      b' (place next) base' = (b next base).contract σ place

theorem Node.placed_of_isKept {node : Node} (h : node.isKept σ = true) :
    node.Placed σ place base base' ↔ place base = base' := by
  cases node with
  | mark tag next =>
    have hkeeps : σ.keeps tag.group = true := h
    rw [Placed, if_pos hkeeps]
  | consume | fork | accept => exact Iff.rfl

theorem places_append {xs ys : List Node} :
    Places σ place base base' (xs ++ ys) ↔ Places σ place base base' xs ∧
      Places σ place (base + xs.length) (base' + xs.countP (Node.isKept σ)) ys := by
  induction xs generalizing base base' with
  | nil => simp [Places]
  | cons node xs ih =>
    rw [List.cons_append, Places, Places, ih, and_assoc, List.countP_cons, List.length_cons]
    refine and_congr_right fun _ => and_congr_right fun _ => ?_
    rw [Nat.add_assoc base, Nat.add_comm 1, Nat.add_assoc base', Nat.add_comm (ite ..)]

theorem contract_append (xs ys : Array Node) :
    contract σ place (xs ++ ys) = contract σ place xs ++ contract σ place ys := by
  simp [contract]

theorem size_contract (place : Nat → Nat) (nodes : Array Node) :
    (contract σ place nodes).size = nodes.toList.countP (Node.isKept σ) := by
  simp [contract, Array.countP_eq_size_filter]

theorem contract_singleton {node : Node} (h : node.isKept σ = true) :
    contract σ place #[node] = #[node.relocate σ place] := by
  simp [contract, h]

namespace Fragment

variable {f : Fragment} {b b' : Blueprint} {node : Node}

theorem places_of_add (h : Places σ place base base' (f.add base node).nodes.toList) :
    Places σ place base base' f.nodes.toList := by
  have hnodes : (f.add base node).nodes = f.nodes ++ #[node] := rfl
  rw [hnodes, Array.toList_append, places_append] at h
  exact h.1

theorem places_of_precede (h : Places σ place base base' (f.precede base b).nodes.toList) :
    Places σ place base base' f.nodes.toList := by
  have hnodes : (f.precede base b).nodes =
      f.nodes ++ (b f.entry (base + f.nodes.size)).nodes := rfl
  rw [hnodes, Array.toList_append, places_append] at h
  exact h.1

/-- A node that stays is added behind the others that stay. -/
theorem contract_add (hkept : node.isKept σ = true)
    (h : Places σ place base base' (f.add base node).nodes.toList) :
    (f.add base node).contract σ place =
      (f.contract σ place).add base' (node.relocate σ place) := by
  have hnodes : (f.add base node).nodes = f.nodes ++ #[node] := rfl
  rw [hnodes, Array.toList_append, places_append] at h
  obtain ⟨-, hplaced, -⟩ := h
  rw [Node.placed_of_isKept hkept, ← size_contract place] at hplaced
  have hentry : (f.add base node).entry = base + f.nodes.size := rfl
  unfold Fragment.contract
  rw [hentry, hnodes, contract_append, ← Array.length_toList, hplaced]
  simp [Fragment.add, Submatch.contract, hkept]

/-- A boundary that is left out is not added. -/
theorem contract_add_erased {tag : Tag} (herased : σ.keeps tag.group = false)
    (h : Places σ place base base' (f.add base (.mark tag f.entry)).nodes.toList) :
    (f.add base (.mark tag f.entry)).contract σ place = f.contract σ place := by
  have hnodes : (f.add base (.mark tag f.entry)).nodes = f.nodes ++ #[.mark tag f.entry] := rfl
  rw [hnodes, Array.toList_append, places_append] at h
  obtain ⟨-, hplaced, -⟩ := h
  rw [Node.Placed, herased, if_neg Bool.false_ne_true] at hplaced
  have hentry : (f.add base (.mark tag f.entry)).entry = base + f.nodes.size := rfl
  unfold Fragment.contract
  rw [hentry, hnodes, contract_append, ← Array.length_toList, hplaced]
  simp [Submatch.contract, Node.isKept, herased]

/-- A part in front of a fragment is contracted by itself. -/
theorem contract_precede (hb : b.Contracts σ b')
    (h : Places σ place base base' (f.precede base b).nodes.toList) :
    (f.precede base b).contract σ place = (f.contract σ place).precede base' b' := by
  have hnodes : (f.precede base b).nodes =
      f.nodes ++ (b f.entry (base + f.nodes.size)).nodes := rfl
  rw [hnodes, Array.toList_append, places_append, Array.length_toList,
    ← size_contract place] at h
  have hpart := hb place f.entry _ _ h.2
  unfold Fragment.precede
  simp only [Fragment.contract, hpart, contract_append]

end Fragment

namespace Blueprint

variable {b b' c c' : Blueprint}

theorem contracts_skip (σ : Selection) : Contracts σ skip skip := by
  intro place next base base' h
  simp [skip, Fragment.contract, contract]

theorem contracts_consume (σ : Selection) (ranges : List SymbolRange) :
    Contracts σ (consume ranges) (consume ranges) := by
  intro place next base base' h
  obtain ⟨hplaced, -⟩ := h
  have hbase : place base = base' := hplaced
  unfold consume Fragment.contract
  rw [hbase, contract_singleton rfl]
  rfl

theorem Contracts.seq (hb : b.Contracts σ b') (hc : c.Contracts σ c') :
    (seq b c).Contracts σ (seq b' c') := by
  intro place next base base' h
  have hright := hc place next base base' (Fragment.places_of_precede h)
  unfold Blueprint.seq at h ⊢
  rw [Fragment.contract_precede hb h, hright]

theorem Contracts.alt (hb : b.Contracts σ b') (hc : c.Contracts σ c') :
    (alt b c).Contracts σ (alt b' c') := by
  intro place next base base' h
  have hboth := Fragment.places_of_add h
  rw [Array.toList_append, places_append, Array.length_toList,
    ← size_contract place] at hboth
  have hother := hc place next base base' hboth.1
  have hpreferred := hb place next _ _ hboth.2
  unfold Blueprint.alt at h ⊢
  rw [Fragment.contract_add rfl h]
  simp only [hother, Fragment.contract, hpreferred, contract_append, Node.relocate]

/-- A group that is left out leaves its body. -/
theorem Contracts.of_erased (hb : b.Contracts σ b') {index : Nat}
    (herased : σ.keeps index = false) : (group index b).Contracts σ b' := by
  intro place next base base' h
  have hinner := Fragment.places_of_add h
  obtain ⟨hclose, -⟩ := Fragment.places_of_precede hinner
  rw [Node.Placed, herased, if_neg Bool.false_ne_true] at hclose
  have hempty : (⟨#[.mark ⟨index, .closing⟩ next], base⟩ : Fragment).contract σ place =
      ⟨#[], place next⟩ := by
    simp [Fragment.contract, Submatch.contract, Node.isKept, herased, hclose]
  unfold Blueprint.group at h ⊢
  rw [Fragment.contract_add_erased herased h, Fragment.contract_precede hb hinner, hempty]
  simp [Fragment.precede]

/-- A group that is kept keeps both boundaries. -/
theorem Contracts.group (hb : b.Contracts σ b') {index : Nat} (hkeeps : σ.keeps index = true) :
    (group index b).Contracts σ (group (σ.rank index) b') := by
  intro place next base base' h
  have hkept : ∀ boundary target, (Node.mark ⟨index, boundary⟩ target).isKept σ = true :=
    fun _ _ => hkeeps
  have hinner := Fragment.places_of_add h
  obtain ⟨hclose, -⟩ := Fragment.places_of_precede hinner
  rw [Node.placed_of_isKept (hkept ..)] at hclose
  have hclosing : (⟨#[.mark ⟨index, .closing⟩ next], base⟩ : Fragment).contract σ place =
      ⟨#[.mark ⟨σ.rank index, .closing⟩ (place next)], base'⟩ := by
    rw [Fragment.contract, contract_singleton (hkept ..), hclose]
    rfl
  unfold Blueprint.group at h ⊢
  rw [Fragment.contract_add (hkept ..) h, Node.relocate, ← hclosing,
    ← Fragment.contract_precede hb hinner]
  rfl

theorem relocate_forkNode (isLazy : Bool) (more stop : Nat) :
    (forkNode isLazy more stop).relocate σ place =
      forkNode isLazy (place more) (place stop) := by
  cases isLazy <;> rfl

theorem isKept_forkNode (isLazy : Bool) (more stop : Nat) :
    (forkNode isLazy more stop).isKept σ = true := by
  cases isLazy <;> rfl

/-- A loop keeps its fork, to which its body returns. -/
theorem Contracts.loop (hb : b.Contracts σ b') (isLazy : Bool) {next : Nat}
    (h : Places σ place base base' (loop isLazy b next base).nodes.toList) :
    place base = base' ∧
      loop isLazy b' (place next) base' = (loop isLazy b next base).contract σ place := by
  have hkept := isKept_forkNode (σ := σ) isLazy (b base (base + 1)).entry next
  have hnodes : (Blueprint.loop isLazy b next base).nodes =
      #[forkNode isLazy (b base (base + 1)).entry next] ++ (b base (base + 1)).nodes := rfl
  rw [hnodes, Array.toList_append, places_append] at h
  obtain ⟨⟨hfork, -⟩, hbody⟩ := h
  have hbase := (Node.placed_of_isKept hkept).1 hfork
  have hcount : [forkNode isLazy (b base (base + 1)).entry next].countP (Node.isKept σ) = 1 := by
    simp [hkept]
  rw [hcount] at hbody
  have hinner := hb place base (base + 1) (base' + 1) hbody
  rw [hbase] at hinner
  refine ⟨hbase, ?_⟩
  unfold Fragment.contract
  rw [hnodes, contract_append, contract_singleton hkept, relocate_forkNode]
  unfold Blueprint.loop
  rw [hinner]
  rfl

theorem Contracts.star (hb : b.Contracts σ b') (isLazy : Bool) :
    (star isLazy b).Contracts σ (star isLazy b') := by
  intro place next base base' h
  obtain ⟨hbase, hloop⟩ := hb.loop isLazy h
  unfold Blueprint.star Fragment.contract
  rw [hloop, hbase]
  rfl

theorem Contracts.plus (hb : b.Contracts σ b') (isLazy : Bool) :
    (plus isLazy b).Contracts σ (plus isLazy b') :=
  fun _ _ _ _ h => (hb.loop isLazy h).2

/-- One more repetition, or none, keeps its fork. -/
theorem Contracts.optionally (hb : b.Contracts σ b') (isLazy : Bool) {stop : Nat} {f : Fragment}
    (h : Places σ place base base' (optionally isLazy b stop base f).nodes.toList) :
    (optionally isLazy b stop base f).contract σ place =
      optionally isLazy b' (place stop) base' (f.contract σ place) := by
  have hone := Fragment.places_of_add h
  unfold Blueprint.optionally at h ⊢
  rw [Fragment.contract_add (isKept_forkNode ..) h, relocate_forkNode,
    ← Fragment.contract_precede hb hone]
  rfl

theorem Contracts.optional (hb : b.Contracts σ b') (isLazy : Bool) (n : Nat) :
    (optional isLazy b n).Contracts σ (optional isLazy b' n) := by
  intro place next base base' h
  induction n with
  | zero => exact contracts_skip σ place next base base' h
  | succ n ih =>
    have hone : Places σ place base base'
        (Fragment.precede (Blueprint.optional isLazy b n next base) base b).nodes.toList :=
      Fragment.places_of_add h
    have hrest := ih (Fragment.places_of_precede hone)
    have hmore := hb.optionally isLazy h
    have hoptional : Nat.repeat (Blueprint.optionally isLazy b next base) n ⟨#[], next⟩ =
        Blueprint.optional isLazy b n next base := rfl
    rw [hoptional, ← hrest] at hmore
    exact hmore.symm

theorem Contracts.copies (hb : b.Contracts σ b') (hc : c.Contracts σ c') (n : Nat) :
    (copies b c n).Contracts σ (copies b' c' n) := by
  induction n with
  | zero => exact hc
  | succ n ih =>
    rw [copies_succ, copies_succ]
    exact hb.seq ih

theorem Contracts.repeated (hb : b.Contracts σ b') (q : Quantifier) :
    (repeated b q).Contracts σ (repeated b' q) := by
  obtain ⟨min, max, isLazy⟩ := q
  cases max with
  | some m => exact hb.copies (hb.optional isLazy (m - min)) min
  | none =>
    cases min with
    | zero => exact hb.star isLazy
    | succ n => exact hb.copies (hb.plus isLazy) n

/-- **The fragment of the selected pattern** is that of the pattern without the boundaries left
out. -/
theorem contracts_ofPattern (σ : Selection) (p : Pattern) :
    (ofPattern p).Contracts σ (ofPattern (p.select σ)) := by
  induction p with
  | empty => exact contracts_skip σ
  | char c => exact contracts_consume σ _
  | set ranges => exact contracts_consume σ ranges
  | any => exact contracts_consume σ _
  | seq left right ihl ihr => exact ihl.seq ihr
  | alt left right ihl ihr => exact ihl.alt ihr
  | repeated body q ih => exact ih.repeated q
  | group index body ih =>
    cases hkeeps : σ.keeps index with
    | true =>
      rw [Pattern.select_group_of_keeps hkeeps]
      exact ih.group hkeeps
    | false =>
      rw [Pattern.select_group_of_not_keeps hkeeps]
      exact ih.of_erased hkeeps

end Blueprint

namespace Automaton

/-- The new place of a node: the number of nodes that stay before it. A boundary left out has the
place of the node to which it leads. -/
def placeOf (A : Automaton) (σ : Selection) (i : Nat) : Nat :=
  match A.nodes[i]? with
  | some (.mark tag next) =>
    if _h : σ.keeps tag.group = false ∧ next < i then A.placeOf σ next
    else (A.nodes.toList.take i).countP (Node.isKept σ)
  | _ => (A.nodes.toList.take i).countP (Node.isKept σ)
termination_by i

variable {A B : Automaton} {i : Nat}

theorem placeOf_of_isKept {node : Node} (hn : A.nodes[i]? = some node)
    (hkept : node.isKept σ = true) :
    A.placeOf σ i = (A.nodes.toList.take i).countP (Node.isKept σ) := by
  rw [placeOf, hn]
  cases node with
  | mark tag next =>
    have hkeeps : σ.keeps tag.group = true := hkept
    simp [hkeeps]
  | consume | fork | accept => rfl

theorem placeOf_of_erased {tag : Tag} {next : Nat} (hn : A.nodes[i]? = some (.mark tag next))
    (herased : σ.keeps tag.group = false) (hlt : next < i) :
    A.placeOf σ i = A.placeOf σ next := by
  rw [placeOf, hn]
  exact dif_pos ⟨herased, hlt⟩

/-- The nodes have the places that are computed. -/
theorem places_placeOf (h : Descending 0 A.nodes) (xs : List Node) {ys : List Node}
    (hnodes : A.nodes.toList = xs ++ ys) :
    Places σ (A.placeOf σ) xs.length (xs.countP (Node.isKept σ)) ys := by
  induction ys generalizing xs with
  | nil => trivial
  | cons node ys ih =>
    have hn : A.nodes[xs.length]? = some node := by
      rw [← Array.getElem?_toList, hnodes, List.getElem?_append_right (Nat.le_refl _), Nat.sub_self,
        List.getElem?_cons_zero]
    have htake : A.nodes.toList.take xs.length = xs := by
      rw [hnodes, List.take_left]
    have hrest := ih (xs ++ [node]) (by rw [hnodes, List.append_assoc, List.singleton_append])
    rw [List.length_append, List.length_singleton, List.countP_append,
      List.countP_singleton] at hrest
    refine ⟨?_, hrest⟩
    cases hkept : node.isKept σ with
    | true => rw [Node.placed_of_isKept hkept, placeOf_of_isKept hn hkept, htake]
    | false =>
      cases node with
      | consume | fork | accept => cases hkept
      | mark tag next =>
        have herased : σ.keeps tag.group = false := hkept
        rw [Node.Placed, herased, if_neg Bool.false_ne_true]
        exact placeOf_of_erased hn herased (h.lt_of_mark hn)

/-- The second automaton is the first one without the boundaries left out. -/
structure ContractsTo (σ : Selection) (A B : Automaton) : Prop where
  start : B.start = A.placeOf σ A.start
  nodes : B.nodes = contract σ (A.placeOf σ) A.nodes
  descending : Descending 0 A.nodes

/-- **The automaton of the selected pattern** is that of the pattern without the boundaries left
out. -/
theorem contracts_ofPattern {σ : Selection} {n n' : NumberedPattern}
    (h : n'.pattern = n.pattern.select σ) : (ofPattern n).ContractsTo σ (ofPattern n') := by
  have hdescending := descending_ofPattern n
  have hnodes : (ofPattern n).nodes =
      #[.accept] ++ (Blueprint.group 0 (Blueprint.ofPattern n.pattern) final 1).nodes := rfl
  have hfinal : (ofPattern n).placeOf σ final = final := by
    rw [placeOf_of_isKept (getElem?_ofPattern_final n) rfl]
    rfl
  have hplaces : Places σ ((ofPattern n).placeOf σ) 1 1
      (Blueprint.group 0 (Blueprint.ofPattern n.pattern) final 1).nodes.toList :=
    places_placeOf hdescending [.accept] (by rw [hnodes, Array.toList_append])
  have hwhole := (Blueprint.contracts_ofPattern σ n.pattern).group σ.zero _ final 1 1 hplaces
  rw [hfinal, Selection.rank_zero, ← h] at hwhole
  refine ⟨congrArg Fragment.entry hwhole, ?_, hdescending⟩
  rw [hnodes, contract_append, contract_singleton rfl]
  exact congrArg (#[.accept] ++ ·) (congrArg Fragment.nodes hwhole)

end Automaton

end Submatch
