import Mathlib
import Submatch.Proofs.Automaton.Closure
import Submatch.Proofs.Automaton.WalkList
import Submatch.Proofs.Dfa.Session

/-!
# What a search finds

A silent approach starts at a seed and comes to no node twice. Approaches are in order by the place
of the seed, and then by the first fork at which they part. A search returns for every node at rest
what is brought along the first approach to it, in the order of these first approaches, and leaves
out exactly what comes behind the first approach to the accepting node
(`Automaton.closure_first`).

* `mem_approaches`, `pairwise_approaches`: the approaches are listed, earlier ones first;
* `first_of_find?`: so what is listed first on some nodes is brought along a first approach.
-/

namespace Submatch

/-- The first element with a property comes before every other one that has it. -/
theorem eq_or_rel_of_find? {α : Type} {r : α → α → Prop} {l : List α} {p : α → Bool} {x y : α}
    (h : l.Pairwise r) (hx : l.find? p = some x) (hy : y ∈ l) (hp : p y = true) :
    y = x ∨ r x y := by
  obtain ⟨-, before, after, rfl, hbefore⟩ := List.find?_eq_some_iff_append.1 hx
  rcases List.mem_append.1 hy with hmem | hmem
  · have hnot := hbefore y hmem
    rw [hp] at hnot
    cases hnot
  · rcases List.mem_cons.1 hmem with heq | hmem
    · exact .inl heq
    · have hrest := (List.pairwise_append.1 h).2.1
      exact .inr ((List.pairwise_cons.1 hrest).1 y hmem)

/-- A way from a seed. -/
structure Approach extends Walk where
  /-- The place of the seed in the list of seeds. -/
  seed : Nat

/-- Approaches are in order by the places of their seeds, and those from one seed by the branches
that they take where they part. -/
def Approach.Precedes (x y : Approach) : Prop :=
  x.seed < y.seed ∨ x.seed = y.seed ∧ Motion.Precedes x.moves y.moves

theorem Approach.Precedes.asymm {x y : Approach} (h : x.Precedes y) : ¬ y.Precedes x := by
  rintro (hlt | ⟨heq, hmoves⟩)
  · rcases h with h | ⟨h, -⟩ <;> omega
  · rcases h with h | ⟨-, h⟩
    · omega
    · exact h.asymm hmoves

variable {σ : Type}

/-- The arrival is at the end of the approach, has what came with the seed, and has passed the tags
of the approach. -/
structure Arrival.IsAlong (a : Arrival σ) (seeds : List (Nat × σ)) (x : Approach) : Prop where
  node : a.node = x.stop
  origin : ∃ start, seeds[x.seed]? = some (start, a.origin)
  passed : a.passed.reverse = Motion.passes x.moves

namespace Automaton

/-- The moves lead from the seed to the end of the approach, read nothing, and come to no node
twice. -/
structure Approaches (A : Automaton) (seeds : List (Nat × σ)) (x : Approach) : Prop where
  path : ∃ s, seeds[x.seed]? = some s ∧ A.Path s.1 x.moves x.stop ∧
    (A.visits s.1 0 x.moves).Nodup
  silent : Motion.chars x.moves = []

/-- The approach comes before every other one to the same node. -/
structure IsFirstApproach (A : Automaton) (seeds : List (Nat × σ)) (x : Approach) : Prop where
  approaches : A.Approaches seeds x
  precedes : ∀ y, A.Approaches seeds y → y.stop = x.stop → y = x ∨ x.Precedes y

/-- What a search for the accepting node and the nodes that read finds from seeds in the order of
their priority. -/
structure FindsFirst (A : Automaton) (seeds : List (Nat × σ)) (arrivals : List (Arrival σ)) :
    Prop where
  along : ∀ a ∈ arrivals, ∃ x, A.IsFirstApproach seeds x ∧ a.IsAlong seeds x
  ordered : arrivals.Pairwise fun a b => ∀ x y, A.IsFirstApproach seeds x → a.IsAlong seeds x →
    A.IsFirstApproach seeds y → b.IsAlong seeds y → x.Precedes y
  nodup : (arrivals.map Arrival.node).Nodup
  rests : ∀ a ∈ arrivals, A.Rests a.node
  /-- Every node at rest that a silent path reaches has a first approach. It has an arrival, unless
  the first approach to the accepting node comes before it; then the arrivals end there. -/
  complete : ∀ s ∈ seeds, ∀ ms k, A.Path s.1 ms k → Motion.chars ms = [] → A.Rests k →
    ∃ x, A.IsFirstApproach seeds x ∧ x.stop = k ∧
      ((∃ a ∈ arrivals, a.node = k) ∨
        arrivals.getLast?.map Arrival.node = some final ∧
          ∃ y, A.IsFirstApproach seeds y ∧ y.stop = final ∧ y.Precedes x)
  /-- Nothing is found behind the first approach to the accepting node. -/
  pruned : ∀ x y, A.IsFirstApproach seeds x → A.IsFirstApproach seeds y → y.stop = final →
    y.Precedes x → ∀ a ∈ arrivals, a.node ≠ x.stop

variable {A : Automaton} {seeds : List (Nat × σ)} {arrivals : List (Arrival σ)} {x y : Approach}
  {a b : Arrival σ}

theorem IsFirstApproach.unique (hx : A.IsFirstApproach seeds x) (hy : A.IsFirstApproach seeds y)
    (hstop : x.stop = y.stop) : x = y := by
  rcases hx.precedes y hy.approaches hstop.symm with heq | hxy
  · exact heq.symm
  · rcases hy.precedes x hx.approaches hstop with heq | hyx
    · exact heq
    · exact absurd hyx hxy.asymm

/-! ### The list of approaches -/

/-- The approaches to nodes at rest, earlier ones first, each with what is brought along it. -/
def approaches (A : Automaton) (seeds : List (Nat × σ)) : List (Approach × Arrival σ) :=
  seeds.zipIdx.flatMap fun s =>
    (A.walks ∅ s.1.1).map fun w => (⟨w, s.2⟩, (⟨s.1.1, s.1.2, []⟩ : Arrival σ).along w)

theorem walkFrom_empty {i : Nat} {w : Walk} :
    A.WalkFrom ∅ i w ↔ (A.Path i w.moves w.stop ∧ (A.visits i 0 w.moves).Nodup) ∧
      Motion.chars w.moves = [] ∧ A.Rests w.stop :=
  ⟨fun h => ⟨⟨h.path, h.visits⟩, h.silent, h.rests⟩,
    fun ⟨⟨hpath, hvisits⟩, hsilent, hrests⟩ => ⟨hpath, hsilent, hvisits, nofun, hrests⟩⟩

/-- **All approaches to nodes at rest are listed**, with what is brought along them. -/
theorem mem_approaches :
    (x, a) ∈ A.approaches seeds ↔
      A.Approaches seeds x ∧ A.Rests x.stop ∧ a.IsAlong seeds x := by
  obtain ⟨w, place⟩ := x
  unfold approaches
  simp only [List.mem_flatMap, List.mem_map, Prod.mk.injEq, Approach.mk.injEq]
  constructor
  · rintro ⟨⟨s, place⟩, hs, v, hv, ⟨rfl, rfl⟩, rfl⟩
    obtain ⟨hpath, hsilent, hrests⟩ := walkFrom_empty.1 (mem_walks.1 hv)
    have hseed : seeds[place]? = some s := List.mem_zipIdx_iff_getElem?.1 hs
    refine ⟨⟨⟨s, hseed, hpath⟩, hsilent⟩, hrests, rfl, ⟨s.1, hseed⟩, ?_⟩
    simp [Arrival.along]
  · rintro ⟨⟨⟨s, hseed, hpath⟩, hsilent⟩, hrests, hnode, ⟨start, horigin⟩, hpassed⟩
    simp only at hseed horigin hnode hpassed
    obtain rfl := Option.some.inj (hseed.symm.trans horigin)
    refine ⟨((start, a.origin), place), List.mem_zipIdx_iff_getElem?.2 hseed, w,
      mem_walks.2 (walkFrom_empty.2 ⟨hpath, hsilent, hrests⟩), ⟨rfl, rfl⟩, ?_⟩
    obtain ⟨node, origin, passed⟩ := a
    simp only at hnode hpassed
    simp [Arrival.along, hnode, ← hpassed]

theorem map_approaches (A : Automaton) (seeds : List (Nat × σ)) :
    (A.approaches seeds).map Prod.snd =
      (seeds.map fun s => ⟨s.1, s.2, []⟩).flatMap (A.landings ∅) := by
  unfold approaches
  rw [List.map_flatMap, List.flatMap_map]
  conv_rhs => rw [← List.zipIdx_map_fst 0 seeds, List.flatMap_map]
  refine List.flatMap_congr fun s _ => ?_
  rw [List.map_map]
  rfl

/-- **Earlier approaches come first.** -/
theorem pairwise_approaches (A : Automaton) (seeds : List (Nat × σ)) :
    (A.approaches seeds).Pairwise fun p q => p.1.Precedes q.1 := by
  refine List.pairwise_flatMap.2 ⟨fun s _ => ?_, ?_⟩
  · exact List.pairwise_map.2 ((pairwise_walks A ∅ s.1.1).imp fun h => .inr ⟨rfl, h⟩)
  · have hplaces : seeds.zipIdx.Pairwise fun s t => s.2 < t.2 := by
      rw [← List.pairwise_map (f := Prod.snd), List.zipIdx_map_snd]
      exact List.pairwise_lt_range'
    refine hplaces.imp fun {s t} hlt p hp q hq => ?_
    obtain ⟨v, -, rfl⟩ := List.mem_map.1 hp
    obtain ⟨w, -, rfl⟩ := List.mem_map.1 hq
    exact .inl hlt

/-! ### What is found first -/

theorem Approaches.exists_mem (hx : A.Approaches seeds x) (hrests : A.Rests x.stop) :
    ∃ a : Arrival σ, (x, a) ∈ A.approaches seeds ∧ a.node = x.stop := by
  obtain ⟨⟨start, origin⟩, hseed, -⟩ := hx.path
  have halong : Arrival.IsAlong ⟨x.stop, origin, (Motion.passes x.moves).reverse⟩ seeds x :=
    ⟨rfl, ⟨start, hseed⟩, List.reverse_reverse _⟩
  exact ⟨_, mem_approaches.2 ⟨hx, hrests, halong⟩, rfl⟩

/-- A search finds first what is listed first. -/
theorem find?_closure_approaches (good : Nat → Bool)
    (haccept : ∀ i, A.nodes[i]? = some .accept → good i = true)
    (h : A.closure seeds = .ok arrivals) :
    arrivals.find? (fun b => good b.node) =
      ((A.approaches seeds).find? fun p => good p.2.node).map Prod.snd := by
  rw [find?_closure haccept h, ← map_approaches, List.find?_map]
  rfl

/-- What is listed first on a good node is brought along the first approach to a good node. -/
theorem first_of_find? (good : Nat → Bool)
    (h : (A.approaches seeds).find? (fun p => good p.2.node) = some (x, a)) :
    A.IsFirstApproach seeds x ∧ a.IsAlong seeds x ∧
      ∀ y, A.Approaches seeds y → A.Rests y.stop → good y.stop = true → y = x ∨ x.Precedes y := by
  obtain ⟨hx, hrests, halong⟩ := mem_approaches.1 (List.mem_of_find?_eq_some h)
  have hself := List.find?_some h
  have hgood : good x.stop = true := by
    rw [← halong.node]
    exact hself
  have hfirst : ∀ y, A.Approaches seeds y → A.Rests y.stop → good y.stop = true →
      y = x ∨ x.Precedes y := by
    intro y hy hyrests hygood
    obtain ⟨b, hmem, hnode⟩ := hy.exists_mem hyrests
    have hb : good b.node = true := by rw [hnode]; exact hygood
    rcases eq_or_rel_of_find? (pairwise_approaches A seeds) h hmem hb with heq | hprecedes
    · exact .inl (Prod.mk.inj heq).1
    · exact .inr hprecedes
  refine ⟨⟨hx, fun y hy hstop => ?_⟩, halong, hfirst⟩
  exact hfirst y hy (hstop ▸ hrests) (hstop ▸ hgood)

/-- Where there is an approach to a good node at rest, something is listed first on a good node. -/
theorem Approaches.exists_find? (hx : A.Approaches seeds x) (hrests : A.Rests x.stop)
    (good : Nat → Bool) (hgood : good x.stop = true) :
    ∃ y a, (A.approaches seeds).find? (fun p => good p.2.node) = some (y, a) := by
  obtain ⟨b, hmem, hnode⟩ := hx.exists_mem hrests
  have hb : good b.node = true := by rw [hnode]; exact hgood
  have hsome : ((A.approaches seeds).find? fun p => good p.2.node).isSome = true :=
    List.find?_isSome.2 ⟨(x, b), hmem, hb⟩
  obtain ⟨⟨y, a⟩, hfind⟩ := Option.isSome_iff_exists.1 hsome
  exact ⟨y, a, hfind⟩

/-- Where there is an approach to a node at rest, there is a first one. -/
theorem Approaches.exists_first (hx : A.Approaches seeds x) (hrests : A.Rests x.stop) :
    ∃ y, A.IsFirstApproach seeds y ∧ y.stop = x.stop := by
  obtain ⟨y, a, hfind⟩ := hx.exists_find? hrests (· == x.stop) (beq_self_eq_true _)
  obtain ⟨hy, halong, -⟩ := first_of_find? (· == x.stop) hfind
  have hself := List.find?_some hfind
  exact ⟨y, hy, halong.node.symm.trans (beq_iff_eq.1 hself)⟩

/-- A silent path from a seed can be made an approach. -/
theorem exists_approach {s : Nat × σ} (hs : s ∈ seeds) {ms : List Motion} {k : Nat}
    (hpath : A.Path s.1 ms k) (hsilent : Motion.chars ms = []) :
    ∃ x, A.Approaches seeds x ∧ x.stop = k := by
  obtain ⟨place, hplace⟩ := List.getElem?_of_mem hs
  obtain ⟨ns, hns, hchars, hnodup⟩ := exists_nodup_path hpath 0
  exact ⟨⟨⟨ns, k⟩, place⟩, ⟨⟨s, hplace, hns, hnodup⟩, hchars.trans hsilent⟩, rfl⟩

variable {P : σ → Prop} {before after : List (Arrival σ)}

/-- The first arrival on a good node has come along the first approach to a good node. -/
theorem exists_first_of_append (good : Nat → Bool)
    (haccept : ∀ i, A.nodes[i]? = some .accept → good i = true)
    (h : A.closure seeds = .ok (before ++ a :: after)) (ha : good a.node = true)
    (hbefore : ∀ b ∈ before, good b.node = false) :
    ∃ x, A.IsFirstApproach seeds x ∧ a.IsAlong seeds x ∧
      ∀ y, A.Approaches seeds y → A.Rests y.stop → good y.stop = true → y = x ∨ x.Precedes y := by
  have hfirst : (before ++ a :: after).find? (fun b => good b.node) = some a := by
    refine List.find?_eq_some_iff_append.2 ⟨ha, before, after, rfl, fun b hb => ?_⟩
    rw [hbefore b hb]
    rfl
  rw [find?_closure_approaches good haccept h] at hfirst
  obtain ⟨⟨x, a'⟩, hfind, rfl⟩ := Option.map_eq_some_iff.1 hfirst
  exact ⟨x, first_of_find? good hfind⟩

/-- The accepting node, or one of some others. -/
def isAim (A : Automaton) (others : List Nat) (i : Nat) : Bool :=
  others.contains i || A.nodes[i]? == some .accept

theorem isAim_of_accept {others : List Nat} {i : Nat} (h : A.nodes[i]? = some .accept) :
    A.isAim others i = true := by
  simp [isAim, h]

theorem isAim_of_mem {others : List Nat} {i : Nat} (h : i ∈ others) : A.isAim others i = true := by
  simp [isAim, h]

/-- An arrival has come along the first approach to its node, which comes before the first approach
to the accepting node and those to nodes that are not met before. -/
theorem Landed.exists_first (hlanded : Landed A P (before ++ a :: after).reverse)
    (h : A.closure seeds = .ok (before ++ a :: after)) {others : List Nat}
    (hothers : ∀ b ∈ before, b.node ∉ others) :
    ∃ x, A.IsFirstApproach seeds x ∧ a.IsAlong seeds x ∧ ∀ y, A.Approaches seeds y →
      A.Rests y.stop → A.isAim (a.node :: others) y.stop = true → y = x ∨ x.Precedes y := by
  refine exists_first_of_append _ (fun _ => isAim_of_accept) h
    (isAim_of_mem List.mem_cons_self) fun b hb => ?_
  obtain ⟨hne, hwaits⟩ := hlanded.before hb
  simp [isAim, hne, hothers b hb, hwaits]

/-- **Arrivals are in the order of the first approaches to their nodes.** -/
theorem Landed.ordered (hlanded : Landed A P arrivals.reverse) (h : A.closure seeds = .ok arrivals) :
    arrivals.Pairwise fun a b => ∀ x y, A.IsFirstApproach seeds x → a.IsAlong seeds x →
      A.IsFirstApproach seeds y → b.IsAlong seeds y → x.Precedes y := by
  refine List.pairwise_iff_forall_sublist.2 fun {a b} hsub x y hx hax hy hby => ?_
  obtain ⟨front, back, rfl, ha, hb⟩ := List.cons_sublist_iff.1 hsub
  obtain ⟨before, mid, rfl⟩ := List.append_of_mem ha
  obtain ⟨mid', after, rfl⟩ := List.append_of_mem (List.singleton_sublist.1 hb)
  have hleft : before ++ a :: mid ++ (mid' ++ b :: after) =
      before ++ a :: (mid ++ mid' ++ b :: after) := by simp
  have hright : before ++ a :: mid ++ (mid' ++ b :: after) =
      (before ++ a :: (mid ++ mid')) ++ b :: after := by simp
  have hla := hleft ▸ hlanded
  have hlb := hright ▸ hlanded
  -- the second node is not met up to the first one
  have hothers : ∀ c ∈ before, c.node ∉ [b.node] := by
    intro c hc
    have hcb := (hlb.before (List.mem_append_left _ hc)).1
    simp [hcb]
  have hab : a.node ≠ b.node := (hlb.before (by simp)).1
  obtain ⟨x', hx', hax', hfirst⟩ := hla.exists_first (hleft ▸ h) hothers
  obtain rfl := hx'.unique hx (hax'.node.symm.trans hax.node)
  have hrests : A.Rests y.stop := by
    rw [← hby.node]
    exact hlanded.resting b (by simp)
  rcases hfirst y hy.approaches hrests (isAim_of_mem (by simp [← hby.node])) with rfl | hprecedes
  · exact absurd (hax.node.trans hby.node.symm) hab
  · exact hprecedes

/-- An arrival that accepts is the last one. -/
theorem Landed.getLast? (hlanded : Landed A P arrivals.reverse) (ha : a ∈ arrivals)
    (haccept : A.nodes[a.node]? = some .accept) : arrivals.getLast? = some a := by
  rw [← List.head?_reverse]
  have hmem : a ∈ arrivals.reverse := List.mem_reverse.2 ha
  cases hreverse : arrivals.reverse with
  | nil =>
    rw [hreverse] at hmem
    cases hmem
  | cons last others =>
    rw [hreverse] at hmem hlanded
    rcases List.mem_cons.1 hmem with rfl | hmem
    · rfl
    · -- the others wait for a character
      obtain ⟨ranges, next, hn⟩ := hlanded.consume a hmem
      rw [haccept] at hn
      cases hn

/-- **A search finds the first approaches.** -/
theorem WellFormed.findsFirst (hA : A.WellFormed) (hlanded : Landed A P arrivals.reverse)
    (h : A.closure seeds = .ok arrivals) : A.FindsFirst seeds arrivals where
  along := by
    intro a ha
    obtain ⟨before, after, rfl⟩ := List.append_of_mem ha
    obtain ⟨x, hx, halong, -⟩ := hlanded.exists_first h fun b _ => List.not_mem_nil
    exact ⟨x, hx, halong⟩
  ordered := hlanded.ordered h
  nodup := by
    have hnodup := hlanded.nodup
    rwa [List.map_reverse, List.nodup_reverse] at hnodup
  rests := fun a ha => hlanded.resting a (List.mem_reverse.2 ha)
  complete := by
    intro s hs ms k hpath hsilent hrests
    obtain ⟨x₀, hx₀, rfl⟩ := exists_approach hs hpath hsilent
    obtain ⟨x, hx, hstop⟩ := hx₀.exists_first hrests
    refine ⟨x, hx, hstop, ?_⟩
    rw [← hstop] at hrests ⊢
    by_cases hfound : ∃ a ∈ arrivals, a.node = x.stop
    · exact .inl hfound
    · -- a search for the node or the accepting one finds the accepting one
      obtain ⟨y, a, hfind⟩ := hx.approaches.exists_find? hrests (A.isAim [x.stop])
        (isAim_of_mem List.mem_cons_self)
      have hfound' := find?_closure_approaches (A.isAim [x.stop]) (fun _ => isAim_of_accept) h
      rw [hfind] at hfound'
      have ha := List.mem_of_find?_eq_some hfound'
      have hne : a.node ≠ x.stop := fun heq => hfound ⟨a, ha, heq⟩
      have haccept : A.nodes[a.node]? = some .accept := by
        have haim := List.find?_some hfound'
        simpa [isAim, hne] using haim
      have hfinal : a.node = final := (hA.accept _).1 haccept
      obtain ⟨hy, halong, hfirst⟩ := first_of_find? (A.isAim [x.stop]) hfind
      refine .inr ⟨?_, y, hy, halong.node.symm.trans hfinal, ?_⟩
      · rw [hlanded.getLast? ha haccept, Option.map_some, hfinal]
      · rcases hfirst x hx.approaches hrests (isAim_of_mem List.mem_cons_self) with
          rfl | hprecedes
        · exact absurd halong.node hne
        · exact hprecedes
  pruned := by
    intro x y hx hy hfinal hyx a ha hstop
    obtain ⟨before, after, rfl⟩ := List.append_of_mem ha
    obtain ⟨x', hx', halong, hfirst⟩ := hlanded.exists_first h fun b _ => List.not_mem_nil
    obtain rfl := hx'.unique hx (halong.node.symm.trans hstop)
    have haccept : A.nodes[y.stop]? = some .accept := (hA.accept _).2 hfinal
    rcases hfirst y hy.approaches ⟨_, haccept, rfl⟩ (isAim_of_accept haccept) with rfl | hprecedes
    · exact hyx.asymm hyx
    · exact hyx.asymm hprecedes

/-- **A search follows priority.** From seeds in any number and order, the search through the
automaton of a pattern ends, and finds for every node at rest what is brought along the first
approach to it. -/
theorem closure_first (n : NumberedPattern) (seeds : List (Nat × σ))
    (hseeds : ∀ s ∈ seeds, s.1 < (ofPattern n).nodes.size) :
    ∃ arrivals, (ofPattern n).closure seeds = .ok arrivals ∧
      (ofPattern n).FindsFirst seeds arrivals := by
  have hA := wellFormed_ofPattern n
  obtain ⟨arrivals, hclosure, hlanded⟩ := closure_landed (P := fun _ => True) hA.toClosed
    fun s hs => ⟨hseeds s hs, trivial⟩
  exact ⟨arrivals, hclosure, hA.findsFirst hlanded hclosure⟩

/-- In a loop over what may be empty, the fork of the loop and the one of its body lead to each
other. From three seeds, two of them the same, everything is found from the first one. -/
theorem closure_first_cycle :
    (∀ s ∈ [(2, 'x'), (5, 'y'), (2, 'z')], s.1 < (ofPattern
      ⟨.repeated (.alt .empty (.char 'a')) ⟨0, none, false⟩, #[0]⟩).nodes.size) ∧
    (ofPattern ⟨.repeated (.alt .empty (.char 'a')) ⟨0, none, false⟩, #[0]⟩).closure
      [(2, 'x'), (5, 'y'), (2, 'z')] = .ok [⟨3, 'x', []⟩, ⟨0, 'x', [1]⟩] ∧
    (ofPattern ⟨.repeated (.alt .empty (.char 'a')) ⟨0, none, false⟩, #[0]⟩).FindsFirst
      [(2, 'x'), (5, 'y'), (2, 'z')] [⟨3, 'x', []⟩, ⟨0, 'x', [1]⟩] := by
  have hseeds : ∀ s ∈ [(2, 'x'), (5, 'y'), (2, 'z')], s.1 < (ofPattern
      ⟨.repeated (.alt .empty (.char 'a')) ⟨0, none, false⟩, #[0]⟩).nodes.size := by
    decide
  have hclosure : (ofPattern
      ⟨.repeated (.alt .empty (.char 'a')) ⟨0, none, false⟩, #[0]⟩).closure
        [(2, 'x'), (5, 'y'), (2, 'z')] = .ok [⟨3, 'x', []⟩, ⟨0, 'x', [1]⟩] := by
    cbv
  obtain ⟨arrivals, hfound, hfirst⟩ := closure_first _ _ hseeds
  obtain rfl := Except.ok.inj (hclosure.symm.trans hfound)
  exact ⟨hseeds, hclosure, hfirst⟩

end Automaton

end Submatch
