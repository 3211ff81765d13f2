import Submatch.Pattern.Backtracking
import Submatch.Proofs.Automaton.Walks

/-!
# Routes in the order of preference

A route leads from the start of an automaton to its accepting node, reads a first part of
a text, and comes to no node twice at the same offset. Of two routes that part at a fork
the one that takes the first branch is preferred. `Automaton.routes` lists the routes:

* `mem_routes`: it lists them all, and nothing else;
* `pairwise_routes`: preferred routes come first;
* `routes_eq_walks`: a route is a silent walk and what follows it.

`exists_nodup_path`: what any path reads is read by one that comes to no place twice. But a path
that does so can be made as long as one likes (`exists_longer_path`).
-/

namespace Submatch

namespace Motion

/-- The characters read, in order. -/
def chars (ms : List Motion) : List Char := ms.filterMap char?

/-- How many characters a move reads. -/
def width : Motion → Nat
  | read _ => 1
  | pass _ | choose _ => 0

/-- The boundaries passed, each with its offset, when the moves start at an offset. -/
def events : Nat → List Motion → List Event
  | _, [] => []
  | i, read _ :: ms => events (i + 1) ms
  | i, pass tag :: ms => ⟨tag, i⟩ :: events i ms
  | i, choose _ :: ms => events i ms

/-- Where two lists of moves part, the first takes the first branch of a fork. -/
inductive Precedes : List Motion → List Motion → Prop where
  | part (ms ns : List Motion) : Precedes (choose true :: ms) (choose false :: ns)
  | cons {ms ns : List Motion} (m : Motion) (h : Precedes ms ns) : Precedes (m :: ms) (m :: ns)

variable {ms ns : List Motion}

@[simp] theorem chars_nil : chars [] = [] := rfl

@[simp] theorem chars_read (c : Char) (ms : List Motion) :
    chars (read c :: ms) = c :: chars ms := rfl

@[simp] theorem chars_pass (tag : Tag) (ms : List Motion) :
    chars (pass tag :: ms) = chars ms := rfl

@[simp] theorem chars_choose (isFirst : Bool) (ms : List Motion) :
    chars (choose isFirst :: ms) = chars ms := rfl

@[simp] theorem chars_append (ms ns : List Motion) :
    chars (ms ++ ns) = chars ms ++ chars ns :=
  List.filterMap_append

theorem chars_cons (m : Motion) (ms : List Motion) : chars (m :: ms) = chars [m] ++ chars ms :=
  chars_append [m] ms

theorem chars_cons_of_silent {m : Motion} (hm : m.char? = none) (ms : List Motion) :
    chars (m :: ms) = chars ms :=
  List.filterMap_cons_none hm

theorem events_append (i : Nat) (ms ns : List Motion) :
    events i (ms ++ ns) = events i ms ++ events (i + (chars ms).length) ns := by
  induction ms generalizing i with
  | nil => rfl
  | cons m ms ih =>
    cases m with
    | read c =>
      simp only [List.cons_append, events, ih, chars_read, List.length_cons]
      rw [show i + 1 + (chars ms).length = i + ((chars ms).length + 1) by omega]
    | pass tag => simp only [List.cons_append, events, ih, chars_pass]
    | choose isFirst => simp only [List.cons_append, events, ih, chars_choose]

theorem Precedes.append_left (h : Precedes ms ns) (common : List Motion) :
    Precedes (common ++ ms) (common ++ ns) := by
  induction common with
  | nil => exact h
  | cons m common ih => exact .cons m ih

theorem Precedes.append (h : Precedes ms ns) (xs ys : List Motion) :
    Precedes (ms ++ xs) (ns ++ ys) := by
  induction h with
  | part ms ns => exact .part ..
  | cons m _ ih => exact .cons m ih

theorem Precedes.asymm (h : Precedes ms ns) : ¬ Precedes ns ms := by
  induction h with
  | part ms ns => exact fun h => nomatch h
  | cons m _ ih => exact fun | .cons _ h => ih h

end Motion

namespace Automaton

/-- The node to which a move leads. -/
def target (A : Automaton) (i : Nat) (m : Motion) : Nat :=
  match A.nodes[i]?, m with
  | some (.consume _ next), .read _ => next
  | some (.mark _ next), .pass _ => next
  | some (.fork first second), .choose isFirst => if isFirst then first else second
  | _, _ => i

/-- The places, each a node and an offset, to which moves come from the node `i` at the
offset `p` on. -/
def visits (A : Automaton) : (i p : Nat) → List Motion → List (Nat × Nat)
  | i, p, [] => [(i, p)]
  | i, p, m :: ms => (i, p) :: visits A (A.target i m) (p + m.width) ms

/-- The moves lead from the start to a node, read a first part of the text, and come to no
node twice at the same offset. -/
structure Admissible (A : Automaton) (text : List Char) (ms : List Motion) (k : Nat) : Prop where
  path : A.Path A.start ms k
  chars : Motion.chars ms <+: text
  visits : (A.visits A.start 0 ms).Nodup

/-- The moves are an admissible way to accept, and preferred to every other. -/
structure IsFirstRoute (A : Automaton) (text : List Char) (ms : List Motion) : Prop where
  admissible : A.Admissible text ms final
  precedes : ∀ ns, A.Admissible text ns final → ns = ms ∨ Motion.Precedes ms ns

/-- The ways to accept from the node `i` that read a first part of the text, avoid the
nodes in `seen` until they read, and come to no node twice at the same offset; preferred
ones first. -/
def routes (A : Automaton) (seen : Finset Nat) (i : Nat) (text : List Char) :
    List (List Motion) :=
  if _hi : i ∈ seen then []
  else
    match _hn : A.nodes[i]? with
    | none => []
    | some .accept => [[]]
    | some (.consume ranges next) =>
      match text with
      | [] => []
      | c :: rest =>
        if RangeSet.covers ranges c.toNat then (routes A ∅ next rest).map (.read c :: ·) else []
    | some (.mark tag next) => (routes A (insert i seen) next text).map (.pass tag :: ·)
    | some (.fork first second) =>
      (routes A (insert i seen) first text).map (.choose true :: ·) ++
        (routes A (insert i seen) second text).map (.choose false :: ·)
termination_by (text.length, (Finset.range A.nodes.size \ seen).card)
decreasing_by
  · exact Prod.Lex.left _ _ (Nat.lt_succ_self _)
  all_goals exact Prod.Lex.right _ (card_sdiff_insert_lt _hi _hn)

variable {A : Automaton} {seen : Finset Nat} {i p : Nat} {text : List Char} {ms : List Motion}

theorem routes_of_mem (h : i ∈ seen) : A.routes seen i text = [] := by
  rw [routes, dif_pos h]

theorem routes_of_none (hn : A.nodes[i]? = none) : A.routes seen i text = [] := by
  rw [routes]
  split
  · rfl
  · split <;> simp_all

theorem routes_of_accept (h : i ∉ seen) (hn : A.nodes[i]? = some .accept) :
    A.routes seen i text = [[]] := by
  rw [routes, dif_neg h]
  split <;> simp_all

theorem routes_of_consume_nil {ranges : List SymbolRange} {next : Nat}
    (hn : A.nodes[i]? = some (.consume ranges next)) : A.routes seen i [] = [] := by
  rw [routes]
  split
  · rfl
  · split <;> simp_all

theorem routes_of_consume {ranges : List SymbolRange} {next : Nat} (h : i ∉ seen)
    (hn : A.nodes[i]? = some (.consume ranges next)) (c : Char) (rest : List Char) :
    A.routes seen i (c :: rest) =
      if RangeSet.covers ranges c.toNat then (A.routes ∅ next rest).map (.read c :: ·)
      else [] := by
  rw [routes, dif_neg h]
  split <;> simp_all

theorem routes_of_mark {tag : Tag} {next : Nat} (h : i ∉ seen)
    (hn : A.nodes[i]? = some (.mark tag next)) :
    A.routes seen i text = (A.routes (insert i seen) next text).map (.pass tag :: ·) := by
  rw [routes, dif_neg h]
  split <;> simp_all

theorem routes_of_fork {first second : Nat} (h : i ∉ seen)
    (hn : A.nodes[i]? = some (.fork first second)) :
    A.routes seen i text = (A.routes (insert i seen) first text).map (.choose true :: ·) ++
      (A.routes (insert i seen) second text).map (.choose false :: ·) := by
  rw [routes, dif_neg h]
  split <;> simp_all

theorem Step.target_eq {j : Nat} {m : Motion} (h : A.Step i m j) : A.target i m = j := by
  cases h with
  | read hn | pass hn | first hn | second hn => simp [target, hn]

theorem Step.of_consume {ranges : List SymbolRange} {next j : Nat} {m : Motion}
    (h : A.Step i m j) (hn : A.nodes[i]? = some (.consume ranges next)) :
    ∃ c, m = .read c ∧ RangeSet.covers ranges c.toNat = true := by
  cases h <;> simp_all

theorem Step.of_mark {tag : Tag} {next j : Nat} {m : Motion} (h : A.Step i m j)
    (hn : A.nodes[i]? = some (.mark tag next)) : m = .pass tag := by
  cases h <;> simp_all

theorem Step.of_fork {first second j : Nat} {m : Motion} (h : A.Step i m j)
    (hn : A.nodes[i]? = some (.fork first second)) : m = .choose true ∨ m = .choose false := by
  cases h <;> simp_all

theorem visits_cons {j : Nat} {m : Motion} (h : A.Step i m j) (p : Nat) (ms : List Motion) :
    A.visits i p (m :: ms) = (i, p) :: A.visits j (p + m.width) ms := by
  rw [visits, h.target_eq]

theorem mem_visits_self (i p : Nat) (ms : List Motion) : (i, p) ∈ A.visits i p ms := by
  cases ms with
  | nil => exact List.mem_cons_self
  | cons m ms => exact List.mem_cons_self

/-- Offsets only grow along moves. -/
theorem le_of_mem_visits {q : Nat × Nat} (h : q ∈ A.visits i p ms) : p ≤ q.2 := by
  induction ms generalizing i p with
  | nil =>
    rw [visits, List.mem_singleton] at h
    rw [h]
  | cons m ms ih =>
    rcases List.mem_cons.1 h with h | h
    · rw [h]
    · have := ih h
      omega

/-- A place on a path splits the path. -/
theorem Path.split_visits {k : Nat} (h : A.Path i ms k) {q : Nat × Nat}
    (hq : q ∈ A.visits i p ms) :
    ∃ xs ys, ms = xs ++ ys ∧ A.Path i xs q.1 ∧ A.Path q.1 ys k ∧
      p + (Motion.chars xs).length = q.2 ∧ A.visits q.1 q.2 ys <:+ A.visits i p ms := by
  induction h generalizing p with
  | refl i =>
    rw [visits, List.mem_singleton] at hq
    subst hq
    exact ⟨[], [], rfl, .refl i, .refl i, rfl, List.suffix_refl _⟩
  | @step i j k m ms first rest ih =>
    rw [visits_cons first] at hq ⊢
    rcases List.mem_cons.1 hq with rfl | hq
    · refine ⟨[], m :: ms, rfl, .refl i, .step first rest, rfl, ?_⟩
      rw [visits_cons first]
    · obtain ⟨xs, ys, rfl, hxs, hys, hlen, hsuffix⟩ := ih hq
      refine ⟨m :: xs, ys, rfl, .step first hxs, hys, ?_, hsuffix.trans (List.suffix_cons ..)⟩
      cases m <;> simp [Motion.width] at hlen ⊢ <;> omega

/-- A path that comes back to the place where it starts goes round without reading, and then
on from there. -/
theorem Path.exists_round {j k : Nat} {m : Motion} (first : A.Step i m j) (rest : A.Path j ms k)
    (hmem : (i, p) ∈ A.visits j (p + m.width) ms) :
    ∃ xs ys, ms = xs ++ ys ∧ A.Path i (m :: xs) i ∧ Motion.chars (m :: xs) = [] ∧
      A.Path i ys k ∧ A.visits i p ys <:+ A.visits j (p + m.width) ms := by
  obtain ⟨xs, ys, rfl, hxs, hys, hlen, hsuffix⟩ := rest.split_visits hmem
  have hwidth : m.width = 0 := by simp only at hlen; omega
  have hxs' : Motion.chars xs = [] := by
    refine List.eq_nil_of_length_eq_zero ?_
    simp only at hlen
    omega
  refine ⟨xs, ys, rfl, .step first hxs, ?_, hys, hsuffix⟩
  cases m with
  | read c => exact absurd hwidth Nat.one_ne_zero
  | pass tag | choose isFirst => exact hxs'

/-- **Cycles can be left out.** What a path reads is read by a path that comes to no place
twice. -/
theorem exists_nodup_path {k : Nat} (h : A.Path i ms k) (p : Nat) :
    ∃ ns, A.Path i ns k ∧ Motion.chars ns = Motion.chars ms ∧ (A.visits i p ns).Nodup := by
  induction h generalizing p with
  | refl i => exact ⟨[], .refl i, rfl, List.nodup_singleton _⟩
  | @step i j k m ms first rest ih =>
    obtain ⟨ns, hpath, hchars, hnodup⟩ := ih (p + m.width)
    have hread : Motion.chars (m :: ns) = Motion.chars (m :: ms) := by
      rw [Motion.chars_cons, Motion.chars_cons m ms, hchars]
    by_cases hmem : (i, p) ∈ A.visits j (p + m.width) ns
    · -- the path comes back to where it starts: the round is left out
      obtain ⟨xs, ys, rfl, -, hround, hys, hsuffix⟩ := hpath.exists_round first hmem
      refine ⟨ys, hys, ?_, hnodup.sublist hsuffix.sublist⟩
      rw [← hread, ← List.cons_append, Motion.chars_append, hround, List.nil_append]
    · refine ⟨m :: ns, .step first hpath, hread, ?_⟩
      rw [visits_cons first]
      exact List.nodup_cons.2 ⟨hmem, hnodup⟩

/-- A round that reads nothing can be gone as often as one likes. -/
theorem Path.exists_rounds {k : Nat} {m : Motion} {round : List Motion}
    (hround : A.Path i (m :: round) i) (hsilent : Motion.chars (m :: round) = [])
    (h : A.Path i ms k) (bound : Nat) :
    ∃ ns, A.Path i ns k ∧ Motion.chars ns = Motion.chars ms ∧ bound ≤ ns.length := by
  induction bound with
  | zero => exact ⟨ms, h, rfl, Nat.zero_le _⟩
  | succ bound ih =>
    obtain ⟨ns, hns, hchars, hlength⟩ := ih
    refine ⟨m :: round ++ ns, hround.append hns, ?_, ?_⟩
    · rw [Motion.chars_append, hsilent, hchars, List.nil_append]
    · rw [List.length_append, List.length_cons]
      omega

/-- **Cycles can be gone round again.** A path that comes to a place twice is only one of many
that read the same: there are longer ones than any bound. -/
theorem exists_longer_path {k : Nat} (h : A.Path i ms k) (p bound : Nat)
    (htwice : ¬ (A.visits i p ms).Nodup) :
    ∃ ns, A.Path i ns k ∧ Motion.chars ns = Motion.chars ms ∧ bound ≤ ns.length := by
  induction h generalizing p with
  | refl i => exact absurd (List.nodup_singleton _) htwice
  | @step i j k m ms first rest ih =>
    rw [visits_cons first, List.nodup_cons, not_and_or, not_not] at htwice
    -- either the path comes back to its start, or the rest of it comes to a place twice
    rcases htwice with hmem | htwice
    · obtain ⟨xs, ys, rfl, hxs, hround, hys, -⟩ := rest.exists_round first hmem
      obtain ⟨ns, hns, hchars, hlength⟩ := hxs.exists_rounds hround hys bound
      refine ⟨ns, hns, ?_, hlength⟩
      rw [hchars, ← List.cons_append, Motion.chars_append, hround, List.nil_append]
    · obtain ⟨ns, hns, hchars, hlength⟩ := ih (p + m.width) htwice
      refine ⟨m :: ns, .step first hns, ?_, Nat.le_succ_of_le hlength⟩
      rw [Motion.chars_cons, Motion.chars_cons m ms, hchars]

/-- Moves that begin without reading come to no place twice, and to none in `seen`, if this holds
of the rest of them and `seen` with the node where they start. -/
theorem avoids_cons {j : Nat} {m : Motion} (hstep : A.Step i m j) (hm : m.char? = none) :
    ((A.visits i p (m :: ms)).Nodup ∧ ∀ q ∈ seen, (q, p) ∉ A.visits i p (m :: ms)) ↔
      i ∉ seen ∧ (A.visits j p ms).Nodup ∧ ∀ q ∈ insert i seen, (q, p) ∉ A.visits j p ms := by
  have hwidth : p + m.width = p := by cases m <;> simp_all [Motion.width, Motion.char?]
  have hvisits := visits_cons hstep p ms
  rw [hwidth] at hvisits
  rw [hvisits, List.nodup_cons]
  constructor
  · rintro ⟨⟨hself, hnodup⟩, hfresh⟩
    refine ⟨fun hi => hfresh i hi List.mem_cons_self, hnodup, fun q hq hmem => ?_⟩
    rcases Finset.mem_insert.1 hq with rfl | hq
    · exact hself hmem
    · exact hfresh q hq (List.mem_cons_of_mem _ hmem)
  · rintro ⟨hi, hnodup, hfresh⟩
    refine ⟨⟨hfresh i (Finset.mem_insert_self i seen), hnodup⟩, fun q hq hmem => ?_⟩
    rcases List.mem_cons.1 hmem with heq | hmem
    · exact hi ((Prod.mk.inj heq).1 ▸ hq)
    · exact hfresh q (Finset.mem_insert_of_mem hq) hmem

/-- The moves lead from the node `i` at the offset `p` to an accepting node, read a first
part of the text, avoid the nodes in `seen` until they read, and come to no place twice. -/
structure RouteFrom (A : Automaton) (seen : Finset Nat) (text : List Char) (i p : Nat)
    (ms : List Motion) : Prop where
  path : ∃ k, A.nodes[k]? = some .accept ∧ A.Path i ms k
  chars : Motion.chars ms <+: text
  visits : (A.visits i p ms).Nodup
  fresh : ∀ q ∈ seen, (q, p) ∉ A.visits i p ms

theorem RouteFrom.not_mem (h : A.RouteFrom seen text i p ms) : i ∉ seen :=
  fun hi => h.fresh i hi (mem_visits_self i p ms)

theorem routeFrom_accept (hn : A.nodes[i]? = some .accept) :
    A.RouteFrom seen text i p ms ↔ i ∉ seen ∧ ms = [] := by
  constructor
  · intro h
    refine ⟨h.not_mem, ?_⟩
    obtain ⟨k, -, hpath⟩ := h.path
    cases hpath with
    | refl => rfl
    | step first => cases first <;> simp_all
  · rintro ⟨hi, rfl⟩
    refine ⟨⟨i, hn, .refl i⟩, List.nil_prefix, List.nodup_singleton _, fun q hq hmem => ?_⟩
    rw [Automaton.visits, List.mem_singleton, Prod.mk.injEq] at hmem
    exact hi (hmem.1 ▸ hq)

/-- Before a node that does not accept, a route has a first step. -/
theorem RouteFrom.exists_step {node : Node} (h : A.RouteFrom seen text i p ms)
    (hn : A.nodes[i]? = some node) (hna : node ≠ .accept) :
    ∃ m j ns, ms = m :: ns ∧ A.Step i m j := by
  obtain ⟨k, hk, hpath⟩ := h.path
  cases hpath with
  | refl => exact absurd (Option.some.inj (hn.symm.trans hk)) hna
  | step first => exact ⟨_, _, _, rfl, first⟩

theorem routeFrom_silent {j : Nat} {m : Motion} (hstep : A.Step i m j) (hm : m.char? = none) :
    A.RouteFrom seen text i p (m :: ms) ↔
      i ∉ seen ∧ A.RouteFrom (insert i seen) text j p ms := by
  have hchars : Motion.chars (m :: ms) = Motion.chars ms := Motion.chars_cons_of_silent hm ms
  constructor
  · intro h
    obtain ⟨⟨k, hk, hpath⟩, hread, hnodup, hfresh⟩ := h
    obtain ⟨hi, hnodup, hfresh⟩ := (avoids_cons hstep hm).1 ⟨hnodup, hfresh⟩
    obtain ⟨j', hstep', hrest⟩ := path_cons_iff.1 hpath
    obtain rfl := hstep.target_unique hstep'
    exact ⟨hi, ⟨k, hk, hrest⟩, hchars ▸ hread, hnodup, hfresh⟩
  · rintro ⟨hi, ⟨k, hk, hpath⟩, hread, hnodup, hfresh⟩
    obtain ⟨hnodup, hfresh⟩ := (avoids_cons hstep hm).2 ⟨hi, hnodup, hfresh⟩
    exact ⟨⟨k, hk, .step hstep hpath⟩, hchars ▸ hread, hnodup, hfresh⟩

theorem routeFrom_read {j : Nat} {c : Char} (hstep : A.Step i (.read c) j) :
    A.RouteFrom seen text i p (.read c :: ms) ↔
      i ∉ seen ∧ ∃ rest, text = c :: rest ∧ A.RouteFrom ∅ rest j (p + 1) ms := by
  have hvisits : A.visits i p (.read c :: ms) = (i, p) :: A.visits j (p + 1) ms :=
    visits_cons hstep p ms
  constructor
  · intro h
    obtain ⟨⟨k, hk, hpath⟩, hread, hnodup, hfresh⟩ := id h
    rw [hvisits] at hnodup
    obtain ⟨j', hstep', hrest⟩ := path_cons_iff.1 hpath
    obtain rfl := hstep.target_unique hstep'
    obtain ⟨rest, rfl⟩ := hread
    refine ⟨h.not_mem, Motion.chars ms ++ rest, rfl, ⟨k, hk, hrest⟩, List.prefix_append .., ?_, ?_⟩
    · exact (List.nodup_cons.1 hnodup).2
    · exact fun q hq => absurd hq (Finset.notMem_empty q)
  · rintro ⟨hi, rest, rfl, ⟨k, hk, hpath⟩, hread, hnodup, -⟩
    -- behind the character every offset is larger
    have hlater : ∀ q, (q, p) ∉ A.visits j (p + 1) ms := fun q hmem => by
      have := le_of_mem_visits hmem
      simp only at this
      omega
    refine ⟨⟨k, hk, .step hstep hpath⟩, ?_, ?_, ?_⟩
    · rw [Motion.chars_read]
      exact (List.prefix_cons_inj c).2 hread
    · rw [hvisits]
      exact List.nodup_cons.2 ⟨hlater i, hnodup⟩
    · intro q hq hmem
      rw [hvisits] at hmem
      rcases List.mem_cons.1 hmem with heq | hmem
      · exact hi ((Prod.mk.inj heq).1 ▸ hq)
      · exact hlater q hmem

theorem not_routeFrom_of_none (hn : A.nodes[i]? = none) : ¬ A.RouteFrom seen text i p ms := by
  intro h
  obtain ⟨k, hk, hpath⟩ := h.path
  cases hpath with
  | refl => exact absurd (hk.symm.trans hn) (by simp)
  | step first => cases first <;> simp_all

theorem routeFrom_consume {ranges : List SymbolRange} {next : Nat}
    (hn : A.nodes[i]? = some (.consume ranges next)) :
    A.RouteFrom seen text i p ms ↔ i ∉ seen ∧ ∃ c rest ns, text = c :: rest ∧
      RangeSet.covers ranges c.toNat = true ∧ ms = .read c :: ns ∧
        A.RouteFrom ∅ rest next (p + 1) ns := by
  constructor
  · intro h
    obtain ⟨m, j, ns, rfl, hstep⟩ := h.exists_step hn nofun
    obtain ⟨c, rfl, hc⟩ := hstep.of_consume hn
    obtain ⟨hi, rest, htext, hns⟩ := (routeFrom_read (.read hn hc)).1 h
    exact ⟨hi, c, rest, ns, htext, hc, rfl, hns⟩
  · rintro ⟨hi, c, rest, ns, htext, hc, rfl, hns⟩
    exact (routeFrom_read (.read hn hc)).2 ⟨hi, rest, htext, hns⟩

theorem routeFrom_mark {tag : Tag} {next : Nat} (hn : A.nodes[i]? = some (.mark tag next)) :
    A.RouteFrom seen text i p ms ↔ i ∉ seen ∧ ∃ ns, ms = .pass tag :: ns ∧
      A.RouteFrom (insert i seen) text next p ns := by
  constructor
  · intro h
    obtain ⟨m, j, ns, rfl, hstep⟩ := h.exists_step hn nofun
    obtain rfl := hstep.of_mark hn
    obtain ⟨hi, hns⟩ := (routeFrom_silent (.pass hn) rfl).1 h
    exact ⟨hi, ns, rfl, hns⟩
  · rintro ⟨hi, ns, rfl, hns⟩
    exact (routeFrom_silent (.pass hn) rfl).2 ⟨hi, hns⟩

theorem routeFrom_fork {first second : Nat} (hn : A.nodes[i]? = some (.fork first second)) :
    A.RouteFrom seen text i p ms ↔ i ∉ seen ∧
      ((∃ ns, ms = .choose true :: ns ∧ A.RouteFrom (insert i seen) text first p ns) ∨
        ∃ ns, ms = .choose false :: ns ∧ A.RouteFrom (insert i seen) text second p ns) := by
  constructor
  · intro h
    obtain ⟨m, j, ns, rfl, hstep⟩ := h.exists_step hn nofun
    rcases hstep.of_fork hn with rfl | rfl
    · obtain ⟨hi, hns⟩ := (routeFrom_silent (.first hn) rfl).1 h
      exact ⟨hi, .inl ⟨ns, rfl, hns⟩⟩
    · obtain ⟨hi, hns⟩ := (routeFrom_silent (.second hn) rfl).1 h
      exact ⟨hi, .inr ⟨ns, rfl, hns⟩⟩
  · rintro ⟨hi, ⟨ns, rfl, hns⟩ | ⟨ns, rfl, hns⟩⟩
    · exact (routeFrom_silent (.first hn) rfl).2 ⟨hi, hns⟩
    · exact (routeFrom_silent (.second hn) rfl).2 ⟨hi, hns⟩

theorem mem_map_cons {m : Motion} {mss : List (List Motion)} :
    ms ∈ mss.map (m :: ·) ↔ ∃ ns, ms = m :: ns ∧ ns ∈ mss := by
  rw [List.mem_map]
  constructor
  · rintro ⟨ns, hns, rfl⟩
    exact ⟨ns, rfl, hns⟩
  · rintro ⟨ns, rfl, hns⟩
    exact ⟨ns, hns, rfl⟩

/-- **All routes are listed, and nothing else.** -/
theorem mem_routes {seen : Finset Nat} {i : Nat} {text : List Char} (p : Nat)
    {ms : List Motion} : ms ∈ A.routes seen i text ↔ A.RouteFrom seen text i p ms := by
  by_cases hi : i ∈ seen
  · rw [routes_of_mem hi]
    exact ⟨fun h => absurd h List.not_mem_nil, fun h => absurd hi h.not_mem⟩
  cases hn : A.nodes[i]? with
  | none =>
    rw [routes_of_none hn]
    exact ⟨fun h => absurd h List.not_mem_nil, fun h => absurd h (not_routeFrom_of_none hn)⟩
  | some node =>
    have hlt := card_sdiff_insert_lt hi hn
    cases node with
    | accept => rw [routes_of_accept hi hn, List.mem_singleton, routeFrom_accept hn, and_iff_right hi]
    | consume ranges next =>
      rw [routeFrom_consume hn, and_iff_right hi]
      cases text with
      | nil =>
        rw [routes_of_consume_nil hn]
        constructor
        · intro h
          cases h
        · rintro ⟨c, rest, ns, htext, -⟩
          cases htext
      | cons c rest =>
        -- behind the character every node may be visited again
        have ih := fun ns => @mem_routes ∅ next rest (p + 1) ns
        rw [routes_of_consume hi hn]
        constructor
        · intro h
          split at h
          next hc =>
            obtain ⟨ns, rfl, hns⟩ := mem_map_cons.1 h
            exact ⟨c, rest, ns, rfl, hc, rfl, (ih ns).1 hns⟩
          next => cases h
        · rintro ⟨c', rest', ns, htext, hc, rfl, hns⟩
          cases htext
          rw [if_pos hc]
          exact mem_map_cons.2 ⟨ns, rfl, (ih ns).2 hns⟩
    | mark tag next =>
      have ih := fun ns => @mem_routes (insert i seen) next text p ns
      rw [routes_of_mark hi hn, routeFrom_mark hn, and_iff_right hi, mem_map_cons]
      simp only [ih]
    | fork first second =>
      have ih := fun j ns => @mem_routes (insert i seen) j text p ns
      rw [routes_of_fork hi hn, routeFrom_fork hn, and_iff_right hi, List.mem_append, mem_map_cons,
        mem_map_cons]
      simp only [ih]
termination_by (text.length, (Finset.range A.nodes.size \ seen).card)
decreasing_by
  all_goals first
    | exact Prod.Lex.right _ hlt
    | exact Prod.Lex.left _ _ (Nat.lt_succ_self _)

theorem pairwise_map_cons (m : Motion) {mss : List (List Motion)}
    (h : mss.Pairwise Motion.Precedes) : (mss.map (m :: ·)).Pairwise Motion.Precedes :=
  List.pairwise_map.2 (h.imp (.cons m))

/-- **Preferred routes come first.** -/
theorem pairwise_routes (A : Automaton) (seen : Finset Nat) (i : Nat) (text : List Char) :
    (A.routes seen i text).Pairwise Motion.Precedes := by
  fun_induction routes A seen i text with
  | case1 => exact .nil
  | case2 => exact .nil
  | case3 => exact List.pairwise_singleton ..
  | case4 => exact .nil
  | case5 => exact pairwise_map_cons _ ‹_›
  | case6 => exact .nil
  | case7 => exact pairwise_map_cons _ ‹_›
  | case8 seen i text hi first second hn ih₁ ih₂ =>
    refine List.pairwise_append.2 ⟨pairwise_map_cons _ ih₁, pairwise_map_cons _ ih₂, ?_⟩
    intro ms hms ns hns
    obtain ⟨ms', -, rfl⟩ := List.mem_map.1 hms
    obtain ⟨ns', -, rfl⟩ := List.mem_map.1 hns
    exact .part ms' ns'

/-- At rest only the text decides how a route goes on. -/
theorem routes_of_resting {node : Node} (hi : i ∉ seen) (hn : A.nodes[i]? = some node)
    (hr : node.isResting = true) : A.routes seen i text = A.routes ∅ i text := by
  have hi' : i ∉ (∅ : Finset Nat) := Finset.notMem_empty i
  cases node with
  | accept => rw [routes_of_accept hi hn, routes_of_accept hi' hn]
  | consume ranges next =>
    cases text with
    | nil => rw [routes_of_consume_nil hn, routes_of_consume_nil hn]
    | cons c rest => rw [routes_of_consume hi hn, routes_of_consume hi' hn]
  | mark | fork => cases hr

/-- The routes that begin with a walk. -/
def routesBehind (A : Automaton) (text : List Char) (w : Walk) : List (List Motion) :=
  (A.routes ∅ w.stop text).map (w.moves ++ ·)

theorem routesBehind_cons (m : Motion) (ws : List Walk) :
    (ws.map (Walk.cons m)).flatMap (A.routesBehind text) =
      (ws.flatMap (A.routesBehind text)).map (m :: ·) := by
  rw [List.flatMap_map, List.map_flatMap]
  refine List.flatMap_congr fun w _ => ?_
  rw [routesBehind, routesBehind, List.map_map]
  rfl

/-- A route is a silent walk and what follows it. -/
theorem routes_eq_walks {seen : Finset Nat} {i : Nat} :
    A.routes seen i text = (A.walks seen i).flatMap (A.routesBehind text) := by
  by_cases hi : i ∈ seen
  · rw [routes_of_mem hi, walks_of_mem hi, List.flatMap_nil]
  cases hn : A.nodes[i]? with
  | none => rw [routes_of_none hn, walks_of_none hn, List.flatMap_nil]
  | some node =>
    have hlt := card_sdiff_insert_lt hi hn
    cases node with
    | consume | accept =>
      rw [walks_of_resting hi hn rfl, List.flatMap_singleton, routes_of_resting hi hn rfl,
        routesBehind]
      exact (List.map_id' _).symm
    | mark tag next =>
      rw [routes_of_mark hi hn, walks_of_mark hi hn, routesBehind_cons, routes_eq_walks]
    | fork first second =>
      rw [routes_of_fork hi hn, walks_of_fork hi hn, List.flatMap_append, routesBehind_cons,
        routesBehind_cons, routes_eq_walks, routes_eq_walks]
termination_by (Finset.range A.nodes.size \ seen).card

end Automaton

end Submatch
