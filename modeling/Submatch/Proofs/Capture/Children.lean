import Mathlib
import Submatch.Capture.Outcome
import Submatch.Proofs.Capture.Tree

/-!
# The children of iterations

Whatever the tags have recorded, the tree loses no iteration and adds none
(`SpanTree.Ordered.entries_perm`), each hangs below its host (`Iteration.isHost_host`), and siblings
are in order (`SpanTree.Ordered.pairwise_childrenOf`). None of this needs parents to come before
their groups, or spans to end behind where they start.

* `Outcome.ofHistories_tree`: what is made of histories, balanced or not.
-/

namespace Submatch

/-! ### Hosts -/

namespace Iteration

variable {parents : Array Nat} {spans : List (List Span)} {c d h h' : Iteration} {span : Span}
  {g k : Nat}

theorem Precedes.irrefl (c : Iteration) : ¬ c.Precedes c := by
  unfold Precedes
  omega

theorem Precedes.asymm (h : c.Precedes d) : ¬ d.Precedes c := by
  unfold Precedes at *
  omega

/-- The iteration `d` is one of the group around `c`, but not of group zero. It has been placed
before `c`, and contains it. -/
structure MayHost (parents : Array Nat) (spans : List (List Span)) (c d : Iteration) : Prop where
  parent : parents[c.group]? = some d.group
  positive : 0 < d.group
  precedes : d.Precedes c
  contains : ∃ s o, c.span? spans = some s ∧ d.span? spans = some o ∧ o.contains s = true

/-- The iteration `h` is the one placed last of those that may host `c`, or the whole match if there
is none. -/
def IsHost (parents : Array Nat) (spans : List (List Span)) (c h : Iteration) : Prop :=
  MayHost parents spans c h ∧ (∀ d, MayHost parents spans c d → d = h ∨ d.Precedes h) ∨
    h = root ∧ ∀ d, ¬ MayHost parents spans c d

theorem IsHost.unique (hh : IsHost parents spans c h) (hh' : IsHost parents spans c h') :
    h = h' := by
  rcases hh with ⟨hmay, hlast⟩ | ⟨rfl, hnone⟩
  · rcases hh' with ⟨hmay', hlast'⟩ | ⟨rfl, hnone'⟩
    · rcases hlast h' hmay' with heq | hprecedes
      · exact heq.symm
      · rcases hlast' h hmay with heq | hprecedes'
        · exact heq
        · exact absurd hprecedes hprecedes'.asymm
    · exact absurd hmay (hnone' h)
  · rcases hh' with ⟨hmay', -⟩ | ⟨rfl, -⟩
    · exact absurd hmay' (hnone h')
    · rfl

theorem pairwise_ofGroup (spans : List (List Span)) (g : Nat) :
    (ofGroup spans g).Pairwise fun d e => d.1.Precedes e.1 := by
  rw [List.pairwise_iff_getElem]
  intro i j hi hj hlt
  have hentry : ∀ (i : Nat) (hi : i < (ofGroup spans g).length),
      ((ofGroup spans g)[i]).1 = ⟨g, i⟩ := by
    intro i hi
    have hget := getElem?_ofGroup spans g i
    rw [List.getElem?_eq_getElem hi] at hget
    obtain ⟨s, -, heq⟩ := Option.map_eq_some_iff.1 hget.symm
    rw [← heq]
  rw [hentry i hi, hentry j hj]
  exact .inr ⟨rfl, hlt⟩

/-- Iterations are listed in the order in which they are placed. -/
theorem pairwise_upTo (spans : List (List Span)) (g : Nat) :
    (upTo spans g).Pairwise fun d e => d.1.Precedes e.1 := by
  unfold upTo
  rw [List.pairwise_flatMap]
  refine ⟨fun k _ => pairwise_ofGroup spans k, ?_⟩
  refine List.Pairwise.imp (fun {j k} hlt d hd e he => ?_) List.pairwise_lt_range'
  have hd := (mem_ofGroup.1 hd).1
  have he := (mem_ofGroup.1 he).1
  exact .inl (by omega)

theorem pairwise_before (hpos : 0 < c.group) :
    (before spans c).Pairwise fun d e => d.1.Precedes e.1 := by
  have hall := pairwise_upTo spans (c.group + 1)
  rw [upTo_succ hpos] at hall
  exact hall.sublist (List.Sublist.append_left (List.take_sublist ..) _)

/-- **An iteration hangs below its host.** -/
theorem isHost_host (hpos : 0 < c.group) (hspan : c.span? spans = some span)
    (hparent : parents[c.group]? = some k) :
    IsHost parents spans c (host parents spans c) := by
  have hmem : ∀ d o, d.group = k → 0 < d.group → d.Precedes c → d.span? spans = some o →
      (d, o) ∈ (before spans c).filter fun e => e.1.group = k := by
    intro d o hgroup hd hprecedes ho
    exact List.mem_filter.2 ⟨(mem_before hpos).2 ⟨hd, ho, hprecedes⟩, decide_eq_true hgroup⟩
  unfold host latestOf
  rw [hspan, hparent]
  simp only [Option.getD_some]
  cases hfind : ((before spans c).filter fun e => e.1.group = k).reverse.find?
      fun e => e.2.contains span with
  | none =>
    refine .inr ⟨rfl, fun d hd => ?_⟩
    obtain ⟨s, o, hs, ho, hcontains⟩ := hd.contains
    obtain rfl := Option.some.inj (hspan.symm.trans hs)
    have hgroup := Option.some.inj (hd.parent.symm.trans hparent)
    have hlisted := hmem d o hgroup hd.positive hd.precedes ho
    exact List.find?_eq_none.1 hfind (d, o) (List.mem_reverse.2 hlisted) hcontains
  | some e =>
    obtain ⟨hcontains, newer, older, hsplit, hnewer⟩ := List.find?_eq_some_iff_append.1 hfind
    have hlist : ((before spans c).filter fun e => e.1.group = k) =
        older.reverse ++ e :: newer.reverse := by
      rw [← List.reverse_reverse ((before spans c).filter _), hsplit]
      simp
    obtain ⟨hbefore, hgroup⟩ := List.mem_filter.1
      (hlist ▸ List.mem_append_right _ List.mem_cons_self)
    obtain ⟨hpositive, ho, hprecedes⟩ := (mem_before hpos).1 hbefore
    have hgroup := of_decide_eq_true hgroup
    refine .inl ⟨⟨hparent.trans (congrArg some hgroup.symm), hpositive, hprecedes,
      span, e.2, hspan, ho, hcontains⟩, fun d hd => ?_⟩
    obtain ⟨s, o, hs, ho, hcontains'⟩ := hd.contains
    obtain rfl := Option.some.inj (hspan.symm.trans hs)
    have hsame := Option.some.inj (hd.parent.symm.trans hparent)
    have hlisted := hmem d o hsame hd.positive hd.precedes ho
    have hplacing : (before spans c).Pairwise fun d e => d.1.Precedes e.1 := pairwise_before hpos
    have hsorted := hplacing.filter fun e => e.1.group = k
    rw [hlist] at hlisted hsorted
    rcases List.mem_append.1 hlisted with hold | hnew
    · exact .inr ((List.pairwise_append.1 hsorted).2.2 (d, o) hold e List.mem_cons_self)
    · rcases List.mem_cons.1 hnew with heq | hnew
      · exact .inl (congrArg Prod.fst heq)
      · -- those placed later have been tried before
        have hfalse := hnewer (d, o) (List.mem_reverse.1 hnew)
        rw [hcontains'] at hfalse
        cases hfalse

end Iteration

/-! ### Pairs of entries in a list -/

/-- Different entries of a list come in one of the two orders. -/
theorem pair_sublist_or {α : Type} {l : List α} {a b : α} (ha : a ∈ l) (hb : b ∈ l) (hne : a ≠ b) :
    [a, b].Sublist l ∨ [b, a].Sublist l := by
  obtain ⟨s, t, rfl⟩ := List.append_of_mem ha
  rcases List.mem_append.1 hb with hs | ht
  · have hleft : [b].Sublist s := List.singleton_sublist.2 hs
    exact .inr (hleft.append (List.singleton_sublist.2 List.mem_cons_self))
  · have ht : b ∈ t := (List.mem_cons.1 ht).resolve_left (Ne.symm hne)
    exact .inl (((List.singleton_sublist.2 ht).cons_cons a).trans (List.sublist_append_right s _))

/-- In a list without repetitions they come in one order only. -/
theorem not_pair_sublist_of_nodup {α : Type} {l : List α} {a b : α} (h : l.Nodup)
    (hab : [a, b].Sublist l) : ¬ [b, a].Sublist l := by
  intro hba
  induction l with
  | nil => cases hab
  | cons c l ih =>
    obtain ⟨hc, hl⟩ := List.nodup_cons.1 h
    cases hab with
    | cons _ hab =>
      cases hba with
      | cons _ hba => exact ih hl hab hba
      | cons_cons _ hba => exact hc (hab.subset (List.mem_cons_of_mem _ List.mem_cons_self))
    | cons_cons _ hb =>
      cases hba with
      | cons _ hba => exact hc (hba.subset (List.mem_cons_of_mem _ List.mem_cons_self))
      | cons_cons _ hba => exact hc (hba.subset List.mem_cons_self)

/-- What stands in front at one place of a list without repetitions can be put in front of all. -/
theorem flatMap_ite_perm {α β : Type} [DecidableEq α] {l : List α} {x : α} (hx : x ∈ l)
    (hnodup : l.Nodup) (front : List β) (f : α → List β) :
    (l.flatMap fun a => if x = a then front ++ f a else f a).Perm (front ++ l.flatMap f) := by
  obtain ⟨s, t, rfl⟩ := List.append_of_mem hx
  have hsplit := List.nodup_append.1 hnodup
  have hs : (s.flatMap fun a => if x = a then front ++ f a else f a) = s.flatMap f :=
    List.flatMap_congr fun a ha => if_neg fun hxa =>
      hsplit.2.2 a ha x List.mem_cons_self hxa.symm
  have ht : (t.flatMap fun a => if x = a then front ++ f a else f a) = t.flatMap f :=
    List.flatMap_congr fun a ha => if_neg (by
      rintro rfl
      exact (List.nodup_cons.1 hsplit.2.1).1 ha)
  rw [List.flatMap_append, List.flatMap_append, List.flatMap_cons, List.flatMap_cons, hs, ht,
    if_pos rfl, List.append_assoc]
  exact List.perm_append_comm_assoc ..

namespace SpanTree

variable {host : Iteration → Iteration} {listed earlier later : List (Iteration × Span)}
  {e : Iteration × Span} {it : Iteration}

/-! ### Children -/

/-- Iterations are listed in the order in which they are placed, and each hangs below the whole
match or one that is listed before it. -/
structure Ordered (host : Iteration → Iteration) (listed : List (Iteration × Span)) : Prop where
  positive : ∀ e ∈ listed, 0 < e.1.group
  pairwise : listed.Pairwise fun d e => d.1.Precedes e.1
  host : ∀ e ∈ listed, host e.1 = .root ∨ ∃ d ∈ listed, host e.1 = d.1 ∧ d.1.Precedes e.1

/-- The tree of an iteration, given all iterations. -/
def treeOf (host : Iteration → Iteration) (listed : List (Iteration × Span))
    (e : Iteration × Span) : SpanTree :=
  branch e.1.group e.2 (under host listed e.1)

/-- The iterations that hang below one, in order. -/
def childrenOf (host : Iteration → Iteration) (listed : List (Iteration × Span))
    (it : Iteration) : List (Iteration × Span) :=
  (listed.filter fun e => host e.1 = it).mergeSort fun d e =>
    d.2.start < e.2.start || (d.2.start == e.2.start && d.1.group ≤ e.1.group)

theorem under_append_of_ne (h : ∀ d ∈ earlier, host d.1 ≠ it) :
    under host (earlier ++ later) it = under host later it := by
  induction earlier with
  | nil => rfl
  | cons d earlier ih =>
    obtain ⟨hd, hearlier⟩ := List.forall_mem_cons.1 h
    rw [List.cons_append, under, if_neg hd, ih hearlier]

/-- What precedes an iteration does not hang below it. -/
theorem Ordered.under_eq (h : Ordered host listed) (hsplit : listed = earlier ++ e :: later) :
    under host later e.1 = under host listed e.1 := by
  have hne : ∀ d ∈ earlier ++ [e], host d.1 ≠ e.1 := by
    intro d hd heq
    have hmem : d ∈ listed := by
      rw [hsplit]
      simp only [List.mem_append, List.mem_cons, List.not_mem_nil, or_false] at hd ⊢
      exact hd.imp_right Or.inl
    have hpositive : 0 < e.1.group := h.positive e (by simp [hsplit])
    rcases h.host d hmem with hroot | ⟨d', -, hhost, hprecedes⟩
    · rw [← heq, hroot] at hpositive
      exact absurd hpositive (Nat.lt_irrefl 0)
    · rw [← hhost, heq] at hprecedes
      rcases List.mem_append.1 hd with hd | hd
      · have hpairwise := h.pairwise
        rw [hsplit] at hpairwise
        exact hprecedes.asymm ((List.pairwise_append.1 hpairwise).2.2 d hd e List.mem_cons_self)
      · rw [List.mem_singleton.1 hd] at hprecedes
        exact Iteration.Precedes.irrefl _ hprecedes
  rw [hsplit, List.append_cons, under_append_of_ne hne]

/-- What hangs below an iteration are the trees of those that have it as their host. -/
theorem Ordered.under_eq_map (h : Ordered host listed) (it : Iteration)
    (hsplit : listed = earlier ++ later) :
    under host later it = (later.filter fun e => host e.1 = it).map (treeOf host listed) := by
  induction later generalizing earlier with
  | nil => rfl
  | cons e later ih =>
    have hrest := ih (hsplit.trans (List.append_cons earlier e later))
    have hself := h.under_eq hsplit
    rw [under, hrest, hself]
    by_cases heq : host e.1 = it
    · rw [if_pos heq, List.filter_cons_of_pos (by simpa using heq)]
      rfl
    · rw [if_neg heq, List.filter_cons_of_neg (by simpa using heq)]

/-- **The children of a tree are the trees of the iterations that hang below it, in order.** -/
theorem Ordered.treeOf_eq (h : Ordered host listed) (e : Iteration × Span) :
    treeOf host listed e =
      .node e.1.group e.2 ((childrenOf host listed e.1).map (treeOf host listed)) := by
  have hunder := h.under_eq_map e.1 (List.nil_append listed).symm
  have hsort : (childrenOf host listed e.1).map (treeOf host listed) =
      (under host listed e.1).mergeSort le := by
    rw [hunder]
    exact List.map_mergeSort fun _ _ _ _ => rfl
  rw [hsort]
  rfl

theorem mem_childrenOf : e ∈ childrenOf host listed it ↔ e ∈ listed ∧ host e.1 = it := by
  unfold childrenOf
  rw [List.mem_mergeSort, List.mem_filter, decide_eq_true_iff]

/-- **Siblings are in order**: by where they start, then by group, and iterations of one group
oldest first. -/
theorem Ordered.pairwise_childrenOf (h : Ordered host listed) (it : Iteration) :
    (childrenOf host listed it).Pairwise fun d e =>
      d.2.start < e.2.start ∨ d.2.start = e.2.start ∧ d.1.Precedes e.1 := by
  have htrans : ∀ c d e : Iteration × Span,
      (c.2.start < d.2.start || (c.2.start == d.2.start && c.1.group ≤ d.1.group)) = true →
      (d.2.start < e.2.start || (d.2.start == e.2.start && d.1.group ≤ e.1.group)) = true →
      (c.2.start < e.2.start || (c.2.start == e.2.start && c.1.group ≤ e.1.group)) = true := by
    intro c d e
    simp only [Bool.or_eq_true, Bool.and_eq_true, decide_eq_true_eq, beq_iff_eq]
    omega
  have htotal : ∀ d e : Iteration × Span,
      ((d.2.start < e.2.start || (d.2.start == e.2.start && d.1.group ≤ e.1.group)) ||
        (e.2.start < d.2.start || (e.2.start == d.2.start && e.1.group ≤ d.1.group))) = true := by
    intro d e
    simp only [Bool.or_eq_true, Bool.and_eq_true, decide_eq_true_eq, beq_iff_eq]
    omega
  have hplaced : (listed.filter fun e => host e.1 = it).Pairwise fun d e => d.1.Precedes e.1 :=
    h.pairwise.filter _
  have hnodup : (childrenOf host listed it).Nodup := by
    refine (List.mergeSort_perm ..).nodup_iff.2 (hplaced.imp fun {d e} hprecedes heq => ?_)
    subst heq
    exact Iteration.Precedes.irrefl _ hprecedes
  rw [List.pairwise_iff_forall_sublist]
  intro d e hpair
  have hle := List.pairwise_iff_forall_sublist.1 (List.pairwise_mergeSort htrans htotal _) hpair
  simp only [Bool.or_eq_true, Bool.and_eq_true, decide_eq_true_eq, beq_iff_eq] at hle
  rcases hle with hlt | ⟨hstart, hgroup⟩
  · exact .inl hlt
  refine .inr ⟨hstart, ?_⟩
  by_cases hsame : d.1.group = e.1.group
  · -- ties are kept in the order of placing
    have hne : d ≠ e := by
      rintro rfl
      exact List.nodup_iff_sublist.1 hnodup d hpair
    have hd : d ∈ listed.filter fun e => host e.1 = it :=
      List.mem_mergeSort.1 (hpair.subset List.mem_cons_self)
    have he : e ∈ listed.filter fun e => host e.1 = it :=
      List.mem_mergeSort.1 (hpair.subset (List.mem_cons_of_mem _ List.mem_cons_self))
    rcases pair_sublist_or hd he hne with hplacing | hplacing
    · exact List.pairwise_iff_forall_sublist.1 hplaced hplacing
    · have htie : (e.2.start < d.2.start || (e.2.start == d.2.start && e.1.group ≤ d.1.group)) =
          true := by
        simp [hstart, hsame]
      have hswapped := List.pair_sublist_mergeSort htrans htotal htie hplacing
      exact absurd hswapped (not_pair_sublist_of_nodup hnodup hpair)
  · exact .inl (by omega)

/-! ### Nothing is lost and nothing is added -/

mutual

/-- The depth at which a tree is listed shows in the depths only. -/
theorem map_snd_listing (depth depth' : Nat) (t : SpanTree) :
    (listing depth t).map Prod.snd = (listing depth' t).map Prod.snd := by
  cases t with
  | node group span children =>
    rw [listing_node, listing_node, List.map_cons, List.map_cons,
      map_snd_flatMap_listing (depth + 1) (depth' + 1) children]

theorem map_snd_flatMap_listing (depth depth' : Nat) (ts : List SpanTree) :
    (ts.flatMap (listing depth)).map Prod.snd = (ts.flatMap (listing depth')).map Prod.snd := by
  cases ts with
  | nil => rfl
  | cons t rest =>
    rw [List.flatMap_cons, List.flatMap_cons, List.map_append, List.map_append,
      map_snd_listing depth depth' t, map_snd_flatMap_listing depth depth' rest]

end

/-- The iterations in a tree, each before those nested in it. -/
def entries (t : SpanTree) : List (Nat × Span) := (t.listing 0).map Prod.snd

theorem entries_branch_perm (group : Nat) (span : Span) (ts : List SpanTree) :
    (branch group span ts).entries.Perm ((group, span) :: ts.flatMap entries) := by
  have hsorted : (branch group span ts).entries =
      (group, span) :: (ts.mergeSort le).flatMap entries := by
    unfold entries branch
    rw [listing_node, List.map_cons, map_snd_flatMap_listing _ 0, List.map_flatMap]
  rw [hsorted]
  exact ((List.mergeSort_perm ts le).flatMap_right entries).cons _

/-- Each iteration is in the tree of one of those that are active, if every host is active when its
turn comes. -/
theorem entries_under_perm {active : List Iteration}
    (hnodup : (active ++ listed.map Prod.fst).Nodup)
    (hhosts : ∀ earlier e later, listed = earlier ++ e :: later →
      host e.1 ∈ active ++ earlier.map Prod.fst) :
    (active.flatMap fun it => (under host listed it).flatMap entries).Perm
      (listed.map fun e => (e.1.group, e.2)) := by
  induction listed generalizing active with
  | nil =>
    have hnone : (active.flatMap fun it => (under host [] it).flatMap entries) = [] :=
      List.flatMap_eq_nil_iff.2 fun _ _ => rfl
    rw [hnone]
    rfl
  | cons e later ih =>
    obtain ⟨c, span⟩ := e
    have hactive : host c ∈ active := by
      simpa using hhosts [] (c, span) later rfl
    have hunder : ∀ it, (under host ((c, span) :: later) it).flatMap entries =
        if host c = it then
          (branch c.group span (under host later c)).entries ++
            (under host later it).flatMap entries
        else (under host later it).flatMap entries := by
      intro it
      rw [under]
      split <;> rfl
    have hmoved := flatMap_ite_perm hactive (List.nodup_append.1 hnodup).1
      (branch c.group span (under host later c)).entries
      fun it => (under host later it).flatMap entries
    have hrest := @ih (c :: active) (by
      rw [List.map_cons] at hnodup
      exact (List.perm_middle.nodup_iff.1 hnodup)) fun earlier e' later' hsplit => by
        have hhost := hhosts ((c, span) :: earlier) e' later' (by rw [hsplit]; rfl)
        simp only [List.map_cons, List.mem_append, List.mem_cons] at hhost ⊢
        tauto
    have hbranch := entries_branch_perm c.group span (under host later c)
    simp only [hunder]
    refine hmoved.trans ((hbranch.append_right _).trans ?_)
    rw [List.map_cons, List.cons_append]
    exact hrest.cons _

/-- **Nothing is lost and nothing is added.** The tree has the whole match and every iteration that
is listed, each once. -/
theorem Ordered.entries_perm (h : Ordered host listed) (whole : Span) :
    (treeOf host listed (.root, whole)).entries.Perm
      ((0, whole) :: listed.map fun e => (e.1.group, e.2)) := by
  have hnodup : ([Iteration.root] ++ listed.map Prod.fst).Nodup := by
    refine List.nodup_cons.2 ⟨fun hroot => ?_, ?_⟩
    · obtain ⟨e, he, heq⟩ := List.mem_map.1 hroot
      have hpositive := h.positive e he
      rw [heq] at hpositive
      exact Nat.lt_irrefl 0 hpositive
    · refine List.pairwise_map.2 (h.pairwise.imp fun {d e} hprecedes heq => ?_)
      rw [heq] at hprecedes
      exact Iteration.Precedes.irrefl _ hprecedes
  have hhosts : ∀ earlier e later, listed = earlier ++ e :: later →
      host e.1 ∈ [Iteration.root] ++ earlier.map Prod.fst := by
    rintro earlier e later rfl
    rcases h.host e (by simp) with hroot | ⟨d, hd, hhost, hprecedes⟩
    · rw [hroot]
      exact List.mem_append_left _ List.mem_cons_self
    · rw [hhost]
      refine List.mem_append_right _ (List.mem_map_of_mem ?_)
      -- what comes later does not precede
      rcases List.mem_append.1 hd with hd | hd
      · exact hd
      · rcases List.mem_cons.1 hd with rfl | hd
        · exact absurd hprecedes (Iteration.Precedes.irrefl _)
        · have hlater := (List.pairwise_append.1 h.pairwise).2.1
          exact absurd hprecedes (List.rel_of_pairwise_cons hlater hd).asymm
  have hbranch := entries_branch_perm 0 whole (under host listed .root)
  have hunder := entries_under_perm hnodup hhosts
  rw [List.flatMap_singleton] at hunder
  exact hbranch.trans (hunder.cons _)

end SpanTree

theorem Iteration.ordered_host {parents : Array Nat} {spans : List (List Span)}
    (hpos : 0 < spans.length)
    (hparents : ∀ g, 0 < g → g < spans.length → ∃ k, parents[g]? = some k ∧ k < spans.length) :
    SpanTree.Ordered (host parents spans) (upTo spans spans.length) where
  positive := fun e he => ((mem_upTo hpos).1 he).1
  pairwise := pairwise_upTo spans spans.length
  host := by
    intro e he
    obtain ⟨hgroup, hlt, hspan⟩ := (mem_upTo hpos).1 he
    obtain ⟨k, hparent, hk⟩ := hparents e.1.group hgroup hlt
    rcases isHost_host hgroup hspan hparent with ⟨hmay, -⟩ | ⟨hroot, -⟩
    · obtain ⟨s, o, -, ho, -⟩ := hmay.contains
      have hsame := Option.some.inj (hmay.parent.symm.trans hparent)
      have hlisted : (host parents spans e.1).group < spans.length := hsame ▸ hk
      exact .inr ⟨(host parents spans e.1, o), (mem_upTo hpos).2 ⟨hmay.positive, hlisted, ho⟩,
        rfl, hmay.precedes⟩
    · exact .inl hroot

/-- The tree of a match with the span `whole`, given for every group the one around it and its
spans. It has the whole match and every iteration of the other groups, each once, each below its
host, and siblings in order. -/
structure SpanTree.Nests (parents : Array Nat) (whole : Span) (spans : List (List Span))
    (t : SpanTree) : Prop where
  entries : ((t.listing 0).map Prod.snd).Perm
    ((0, whole) :: (Iteration.upTo spans spans.length).map fun e => (e.1.group, e.2))
  children : ∃ tree : Iteration × Span → SpanTree, t = tree (.root, whole) ∧
    ∀ e, ∃ children : List (Iteration × Span), tree e = .node e.1.group e.2 (children.map tree) ∧
      (∀ d, d ∈ children ↔
        d ∈ Iteration.upTo spans spans.length ∧ Iteration.IsHost parents spans d.1 e.1) ∧
      children.Pairwise fun d d' =>
        d.2.start < d'.2.start ∨ d.2.start = d'.2.start ∧ d.1.Precedes d'.1

/-- **Nesting works with any parents.** -/
theorem SpanTree.nests_nest {parents : Array Nat} {spans : List (List Span)} (whole : Span)
    (hpos : 0 < spans.length)
    (hparents : ∀ g, 0 < g → g < spans.length → ∃ k, parents[g]? = some k ∧ k < spans.length) :
    (nest parents whole spans).Nests parents whole spans := by
  have hordered := Iteration.ordered_host hpos hparents
  have htree : nest parents whole spans = ofHosts (Iteration.host parents spans) whole spans :=
    nest_eq_ofHosts hpos hparents
  have hhost : ∀ d ∈ Iteration.upTo spans spans.length, ∀ it,
      Iteration.host parents spans d.1 = it ↔ Iteration.IsHost parents spans d.1 it := by
    intro d hd it
    obtain ⟨hgroup, hlt, hspan⟩ := (Iteration.mem_upTo hpos).1 hd
    obtain ⟨k, hparent, -⟩ := hparents d.1.group hgroup hlt
    have hishost := Iteration.isHost_host hgroup hspan hparent
    refine ⟨?_, hishost.unique⟩
    rintro rfl
    exact hishost
  rw [htree]
  refine ⟨hordered.entries_perm whole, treeOf _ _, rfl, fun e => ?_⟩
  refine ⟨_, hordered.treeOf_eq e, fun d => ?_, hordered.pairwise_childrenOf e.1⟩
  rw [mem_childrenOf]
  exact and_congr_right fun hd => hhost d hd e.1

namespace Outcome

/-! ### Histories -/

variable {parents : Array Nat} {histories : List (List Nat)} {g n : Nat}

/-- The starts that are recorded for a group. -/
def starts (histories : List (List Nat)) (g : Nat) : List Nat := histories[2 * g]?.getD []

/-- The ends that are recorded for a group. -/
def stops (histories : List (List Nat)) (g : Nat) : List Nat := histories[2 * g + 1]?.getD []

/-- The starts and ends that are recorded for a group can be paired. -/
def Paired (histories : List (List Nat)) (g : Nat) : Prop :=
  (starts histories g).length = (stops histories g).length

theorem starts_succ (opens closes : List Nat) (rest : List (List Nat)) (g : Nat) :
    starts (opens :: closes :: rest) (g + 1) = starts rest g := by
  unfold starts
  rw [Nat.mul_succ, List.getElem?_cons_succ, List.getElem?_cons_succ]

theorem stops_succ (opens closes : List Nat) (rest : List (List Nat)) (g : Nat) :
    stops (opens :: closes :: rest) (g + 1) = stops rest g := by
  unfold stops
  rw [Nat.mul_succ, List.getElem?_cons_succ, List.getElem?_cons_succ]

theorem paired_succ {opens closes : List Nat} {rest : List (List Nat)} :
    Paired (opens :: closes :: rest) (g + 1) ↔ Paired rest g := by
  unfold Paired
  rw [starts_succ, stops_succ]

theorem exists_cons_cons (hlength : histories.length = 2 * (n + 1)) :
    ∃ opens closes rest, histories = opens :: closes :: rest ∧ rest.length = 2 * n := by
  rcases histories with _ | ⟨opens, _ | ⟨closes, rest⟩⟩
  · cases hlength
  · simp only [List.length_cons, List.length_nil] at hlength
    omega
  · simp only [List.length_cons] at hlength
    exact ⟨opens, closes, rest, rfl, by omega⟩

/-- The first group whose starts and ends cannot be paired is reported. -/
theorem spansOf_eq_error (hlength : histories.length = 2 * n) (hg : g < n)
    (hearlier : ∀ k < g, Paired histories k) (h : ¬ Paired histories g) :
    spansOf histories = .error (.unbalancedGroup (starts histories g) (stops histories g)) := by
  induction n generalizing histories g with
  | zero => omega
  | succ n ih =>
    obtain ⟨opens, closes, rest, rfl, hrest⟩ := exists_cons_cons hlength
    unfold spansOf
    cases g with
    | zero =>
      have hpair : pairSpans opens closes = .error (.unbalancedGroup opens closes) := if_neg h
      rw [hpair]
      rfl
    | succ g =>
      have hpair : pairSpans opens closes = .ok (List.zipWith Span.mk opens closes) :=
        if_pos (hearlier 0 (Nat.succ_pos g))
      have herror := ih hrest (Nat.lt_of_succ_lt_succ hg)
        (fun k hk => paired_succ.1 (hearlier (k + 1) (Nat.succ_lt_succ hk))) (mt paired_succ.2 h)
      rw [hpair, herror, starts_succ, stops_succ]
      rfl

/-- Starts and ends that can be paired are. -/
theorem spansOf_eq_ok (hlength : histories.length = 2 * n) (h : ∀ k < n, Paired histories k) :
    spansOf histories = .ok ((List.range n).map fun g =>
      List.zipWith Span.mk (starts histories g) (stops histories g)) := by
  induction n generalizing histories with
  | zero =>
    rw [List.length_eq_zero_iff.1 hlength]
    rfl
  | succ n ih =>
    obtain ⟨opens, closes, rest, rfl, hrest⟩ := exists_cons_cons hlength
    have hpair : pairSpans opens closes = .ok (List.zipWith Span.mk opens closes) :=
      if_pos (h 0 (Nat.succ_pos n))
    have hok := ih hrest fun k hk => paired_succ.1 (h (k + 1) (Nat.succ_lt_succ hk))
    unfold spansOf
    rw [hpair, hok, List.range_succ_eq_map, List.map_cons, List.map_map]
    refine congrArg (fun later => Except.ok (List.zipWith Span.mk opens closes :: later)) ?_
    refine List.map_congr_left fun g _ => ?_
    show _ = List.zipWith Span.mk (starts _ (g + 1)) (stops _ (g + 1))
    rw [starts_succ, stops_succ]

/-- **What is made of histories.** The first group whose starts and ends cannot be paired is an
error. If all can be, there is no match without an iteration of group zero, and a tree of all
iterations otherwise. Parents need not come before their groups. -/
theorem ofHistories_tree (hpos : 0 < parents.size) (hlength : histories.length = 2 * parents.size)
    (hparents : ∀ k ∈ parents, k < parents.size) :
    (∀ g < parents.size, (∀ k < g, Paired histories k) → ¬ Paired histories g →
      ofHistories parents histories =
        .error (.unbalancedGroup (starts histories g) (stops histories g))) ∧
    ((∀ g < parents.size, Paired histories g) → starts histories 0 = [] →
      ofHistories parents histories = .ok .noMatch) ∧
    ((∀ g < parents.size, Paired histories g) → starts histories 0 ≠ [] → ∃ result whole,
      ofHistories parents histories = .ok (.matched result) ∧ result.histories = histories ∧
      result.spans = ((List.range parents.size).map fun g =>
        List.zipWith Span.mk (starts histories g) (stops histories g)) ∧
      (result.spans[0]?.getD []).getLast? = some whole ∧
      result.tree.Nests parents whole result.spans) := by
  have hcomplete : ofHistories parents histories = ofComplete parents histories := by
    unfold ofHistories
    simp only
    rw [if_neg (by omega), hlength, Nat.sub_self, List.replicate_zero, List.append_nil]
  have hhead : ((List.range parents.size).map fun g =>
      List.zipWith Span.mk (starts histories g) (stops histories g))[0]? =
        some (List.zipWith Span.mk (starts histories 0) (stops histories 0)) := by
    rw [List.getElem?_map, List.getElem?_range hpos]
    rfl
  rw [hcomplete]
  unfold ofComplete
  refine ⟨?_, ?_, ?_⟩
  · intro g hg hearlier hnot
    rw [spansOf_eq_error hlength hg hearlier hnot]
    rfl
  · intro hpaired hempty
    rw [spansOf_eq_ok hlength hpaired]
    simp only [bind, Except.bind, List.head?_eq_getElem?, hhead, hempty]
    rfl
  · intro hpaired hne
    have hspans : List.zipWith Span.mk (starts histories 0) (stops histories 0) ≠ [] := by
      have hstops := hpaired 0 hpos
      unfold Paired at hstops
      rw [← List.length_pos_iff] at hne ⊢
      rw [List.length_zipWith]
      omega
    obtain ⟨whole, hwhole⟩ := Option.isSome_iff_exists.1 (List.getLast?_isSome.2 hspans)
    rw [spansOf_eq_ok hlength hpaired]
    simp only [bind, Except.bind, List.head?_eq_getElem?, hhead, Option.getD_some, hwhole]
    refine ⟨_, whole, rfl, rfl, rfl, ?_, SpanTree.nests_nest whole ?_ ?_⟩
    · rw [hhead]
      exact hwhole
    · rw [List.length_map, List.length_range]
      exact hpos
    · intro g hg hlt
      rw [List.length_map, List.length_range] at hlt ⊢
      exact ⟨parents[g], Array.getElem?_eq_getElem hlt, hparents _ (Array.getElem_mem hlt)⟩

/-- Group 1 is its own parent, group 2 has a later one and group 3 an earlier one; an iteration of
group 1 ends before it starts, and those of group 2 are the same. -/
theorem ofHistories_tree_odd_parents :
    ofHistories #[0, 1, 3, 1] [[0], [9], [1], [8, 4], [], [3], [2], []] =
        .error (.unbalancedGroup [1] [8, 4]) ∧
      ofHistories #[0, 1, 3, 1] [[], [], [1], [8], [], [], [], []] = .ok .noMatch ∧
      ∃ result, ofHistories #[0, 1, 3, 1]
          [[0], [9], [1, 2, 5], [8, 4, 3], [2, 2], [3, 3], [2], [4]] = .ok (.matched result) ∧
        result.tree.Nests #[0, 1, 3, 1] ⟨0, 9⟩ result.spans ∧
        result.tree.text =
          "0: [0, 9)\n  1: [1, 8)\n    1: [2, 4)\n      3: [2, 4)\n      1: [5, 3)\n" ++
            "  2: [2, 3)\n  2: [2, 3)\n" := by
  have hparents : ∀ k ∈ #[0, 1, 3, 1], k < (#[0, 1, 3, 1] : Array Nat).size := by decide
  have hpaired : ∀ g < 4,
      Paired [[0], [9], [1, 2, 5], [8, 4, 3], [2, 2], [3, 3], [2], [4]] g := by
    unfold Paired
    decide
  have hempty : ∀ g < 4, Paired [[], [], [1], [8], [], [], [], []] g := by
    unfold Paired
    decide
  refine ⟨?_, ?_, ?_⟩
  · refine (ofHistories_tree (by decide) rfl hparents).1 1 (by decide) ?_ ?_
    · unfold Paired
      decide
    · unfold Paired
      decide
  · exact (ofHistories_tree (by decide) rfl hparents).2.1 hempty rfl
  · obtain ⟨result, whole, hok, -, -, hwhole, hnests⟩ :=
      (ofHistories_tree (by decide) rfl hparents).2.2 hpaired (by decide)
    have hresult := Outcome.matched.inj (Except.ok.inj (hok.symm.trans rfl))
    subst hresult
    obtain rfl := Option.some.inj hwhole
    exact ⟨_, hok, hnests, by cbv⟩

end Outcome

end Submatch
