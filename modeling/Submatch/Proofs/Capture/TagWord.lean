import Submatch.Proofs.Capture.Nesting

/-!
# The tags of a path

The boundaries that an accepting path passes are the brackets of a well-nested word: read with a
stack of the groups that are open, every closing boundary closes the group on top, and every
opening one opens a group whose parent is on top (`Automaton.wellNested_of_path`).

`Tag.Nests` is the run of that stack with the condition on the parents built in. Boundaries of
nested iterations make such a run (`Event.Nested.nests`), whatever is open around them. What a word
must satisfy follows from the run by induction.
-/

namespace Submatch

namespace Tag

/-- The groups that are open, innermost first, once a boundary has been passed. Only the innermost
group can be closed. -/
def pass : List Nat → Tag → Option (List Nat)
  | stack, ⟨group, .opening⟩ => some (group :: stack)
  | [], ⟨_, .closing⟩ => none
  | innermost :: outer, ⟨group, .closing⟩ => if innermost = group then some outer else none

/-- The groups that are open once the boundaries have been passed one after the other. -/
def passAll (stack : List Nat) (tags : List Tag) : Option (List Nat) := tags.foldlM pass stack

/-- The boundaries form a balanced word, in which group zero is the outermost pair and every other
group is opened right inside its parent. -/
structure WellNested (parents : Array Nat) (tags : List Tag) : Prop where
  /-- Every boundary that closes a group closes the innermost one, and none is left open. -/
  balanced : passAll [] tags = some []
  /-- Group zero is opened first and closed last, and neither in between. -/
  outermost : ∃ inner, tags = ⟨0, .opening⟩ :: (inner ++ [⟨0, .closing⟩]) ∧
    ∀ tag ∈ inner, 0 < tag.group
  /-- When another group is opened, its parent is the innermost open group. -/
  parent : ∀ before group after, tags = before ++ ⟨group, .opening⟩ :: after → 0 < group →
    ∃ host outer, parents[group]? = some host ∧ passAll [] before = some (host :: outer)
  /-- At no time is a group open twice. -/
  once : ∀ before after, tags = before ++ after →
    ∃ stack, passAll [] before = some stack ∧ stack.Nodup
  /-- Every group is opened as often as it is closed. -/
  paired : ∀ group, tags.count ⟨group, .opening⟩ = tags.count ⟨group, .closing⟩

/-- The boundaries lead from some open groups to others, innermost first: a group is opened right
inside its parent, which has a smaller number, and only the innermost group is closed. -/
inductive Nests (parents : Array Nat) : List Nat → List Tag → List Nat → Prop where
  | done (stack : List Nat) : Nests parents stack [] stack
  | opening {host group : Nat} {outer stack : List Nat} {tags : List Tag}
      (parent : parents[group]? = some host) (larger : host < group)
      (rest : Nests parents (group :: host :: outer) tags stack) :
      Nests parents (host :: outer) (⟨group, .opening⟩ :: tags) stack
  | closing {group : Nat} {outer stack : List Nat} {tags : List Tag}
      (rest : Nests parents outer tags stack) :
      Nests parents (group :: outer) (⟨group, .closing⟩ :: tags) stack

variable {parents : Array Nat} {stack stack' : List Nat} {tags before after : List Tag}

@[simp] theorem passAll_nil (stack : List Nat) : passAll stack [] = some stack := rfl

@[simp] theorem passAll_opening (stack : List Nat) (group : Nat) (tags : List Tag) :
    passAll stack (⟨group, .opening⟩ :: tags) = passAll (group :: stack) tags := rfl

@[simp] theorem passAll_closing (outer : List Nat) (group : Nat) (tags : List Tag) :
    passAll (group :: outer) (⟨group, .closing⟩ :: tags) = passAll outer tags := by
  unfold passAll
  rw [List.foldlM_cons]
  simp [pass]

namespace Nests

theorem append {mid : List Nat} {more : List Tag} (h : Nests parents stack tags mid)
    (hmore : Nests parents mid more stack') : Nests parents stack (tags ++ more) stack' := by
  induction h with
  | done => exact hmore
  | opening parent larger _ ih => exact .opening parent larger (ih hmore)
  | closing _ ih => exact .closing (ih hmore)

/-- A run can be stopped anywhere. -/
theorem split (h : Nests parents stack tags stack') (hsplit : tags = before ++ after) :
    ∃ mid, Nests parents stack before mid ∧ Nests parents mid after stack' := by
  induction h generalizing before with
  | done stack =>
    obtain ⟨rfl, rfl⟩ := List.append_eq_nil_iff.1 hsplit.symm
    exact ⟨stack, .done stack, .done stack⟩
  | @opening host group outer stack' tags parent larger rest ih =>
    cases before with
    | nil =>
      obtain rfl : _ = after := hsplit
      exact ⟨host :: outer, .done _, .opening parent larger rest⟩
    | cons tag before =>
      obtain ⟨rfl, htail⟩ := List.cons.inj hsplit
      obtain ⟨mid, hbefore, hafter⟩ := ih htail
      exact ⟨mid, .opening parent larger hbefore, hafter⟩
  | @closing group outer stack' tags rest ih =>
    cases before with
    | nil =>
      obtain rfl : _ = after := hsplit
      exact ⟨group :: outer, .done _, .closing rest⟩
    | cons tag before =>
      obtain ⟨rfl, htail⟩ := List.cons.inj hsplit
      obtain ⟨mid, hbefore, hafter⟩ := ih htail
      exact ⟨mid, .closing hbefore, hafter⟩

/-- The run is one of the stack alone. -/
theorem passAll_eq (h : Nests parents stack tags stack') : passAll stack tags = some stack' := by
  induction h with
  | done => rfl
  | opening _ _ _ ih => rw [passAll_opening, ih]
  | closing _ ih => rw [passAll_closing, ih]

/-- The numbers of the open groups descend to the outermost one. -/
theorem pairwise (h : Nests parents stack tags stack') (hstack : stack.Pairwise (· > ·)) :
    stack'.Pairwise (· > ·) := by
  induction h with
  | done => exact hstack
  | @opening host group outer _ _ _ larger _ ih =>
    refine ih (List.pairwise_cons.2 ⟨fun g hg => ?_, hstack⟩)
    rcases List.mem_cons.1 hg with rfl | hg
    · exact larger
    · exact Nat.lt_trans (List.rel_of_pairwise_cons hstack hg) larger
  | closing _ ih => exact ih hstack.of_cons

/-- What is open afterwards was open before or has been opened, but not closed. -/
theorem count_eq (h : Nests parents stack tags stack') (group : Nat) :
    tags.count ⟨group, .opening⟩ + stack.count group =
      tags.count ⟨group, .closing⟩ + stack'.count group := by
  induction h with
  | done => rfl
  | @opening host opened outer _ tags _ _ _ ih =>
    have hclosing : (⟨opened, .opening⟩ : Tag) ≠ ⟨group, .closing⟩ := by simp
    rw [List.count_cons (l := host :: outer)] at ih
    rw [List.count_cons_of_ne hclosing, ← ih, List.count_cons]
    by_cases hgroup : opened = group
    · simp [hgroup]
      omega
    · simp [hgroup]
  | @closing closed outer _ tags _ ih =>
    have hopening : (⟨closed, .closing⟩ : Tag) ≠ ⟨group, .opening⟩ := by simp
    rw [List.count_cons_of_ne hopening, List.count_cons, List.count_cons]
    by_cases hgroup : closed = group
    · simp [hgroup]
      omega
    · simp [hgroup, ih]

/-- Inside group zero a run that comes back to it is a well-nested word. -/
theorem wellNested (h : Nests parents [0] tags [0]) (hpos : ∀ tag ∈ tags, 0 < tag.group) :
    WellNested parents (⟨0, .opening⟩ :: (tags ++ [⟨0, .closing⟩])) := by
  have hclose : Nests parents [0] (tags ++ [⟨0, .closing⟩]) [] := h.append (.closing (.done []))
  constructor
  · rw [passAll_opening, hclose.passAll_eq]
  · exact ⟨tags, rfl, hpos⟩
  · intro before group after hsplit hgroup
    cases before with
    | nil =>
      -- the first boundary opens group zero
      obtain ⟨htag, -⟩ := List.cons.inj hsplit
      cases htag
      exact absurd hgroup (Nat.lt_irrefl 0)
    | cons tag before =>
      obtain ⟨rfl, htail⟩ := List.cons.inj hsplit
      obtain ⟨mid, hbefore, hafter⟩ := hclose.split htail
      cases hafter with
      | @opening host _ outer _ _ parent =>
        refine ⟨host, outer, parent, ?_⟩
        rw [passAll_opening, hbefore.passAll_eq]
  · intro before after hsplit
    cases before with
    | nil => exact ⟨[], rfl, List.nodup_nil⟩
    | cons tag before =>
      obtain ⟨rfl, htail⟩ := List.cons.inj hsplit
      obtain ⟨mid, hbefore, -⟩ := hclose.split htail
      have hdescending := hbefore.pairwise (List.pairwise_singleton ..)
      refine ⟨mid, ?_, hdescending.imp fun hlt => Nat.ne_of_gt hlt⟩
      rw [passAll_opening, hbefore.passAll_eq]
  · intro group
    have hcount := hclose.count_eq group
    by_cases hgroup : group = 0
    · subst hgroup
      rw [List.count_cons_self, List.count_cons_of_ne (by simp)]
      simpa using hcount
    · rw [List.count_cons_of_ne (by simpa using Ne.symm hgroup), List.count_cons_of_ne (by simp)]
      simpa [hgroup, Ne.symm hgroup] using hcount

end Nests

end Tag

/-- Nested iterations of the groups inside an open group open and close it no more, and leave open
what was open. -/
theorem Event.Nested.nests {parents : Array Nat} {host start stop : Nat} {es : List Event}
    (h : Nested parents host start stop es) (outer : List Nat) :
    Tag.Nests parents (host :: outer) (es.map Event.tag) (host :: outer) := by
  induction h generalizing outer with
  | done => exact .done _
  | @iteration host _ _ group _ _ inner rest parent larger _ _ _ inside behind =>
    rw [List.map_cons, List.map_append, List.map_cons]
    exact .opening parent larger ((inside (host :: outer)).append (.closing (behind outer)))

/-- The boundaries of a whole match are a well-nested word. -/
theorem Event.Complete.wellNested_tags {parents : Array Nat} {stop : Nat} {es : List Event}
    (h : Complete parents stop es) : Tag.WellNested parents (es.map Event.tag) := by
  obtain ⟨inner, hinner, rfl⟩ := h
  rw [List.map_cons, List.map_append, List.map_singleton]
  refine (hinner.nests []).wellNested fun tag htag => ?_
  obtain ⟨e, he, rfl⟩ := List.mem_map.1 htag
  exact hinner.lt_group e he

/-- The tags of the moves are those of the boundaries that they pass. -/
theorem Motion.map_tag_events (i : Nat) (ms : List Motion) :
    (events i ms).map Event.tag = ms.filterMap tag? := by
  induction ms generalizing i with
  | nil => rfl
  | cons m ms ih =>
    cases m with
    | read c => exact ih (i + 1)
    | choose isFirst => exact ih i
    | pass tag => exact congrArg (tag :: ·) (ih i)

namespace Automaton

/-- **Accepting paths carry well-nested tags.** On every path of the automaton of a pattern from
the start to the accepting node, however often it goes round the loops, the tags form a balanced
word: group zero is the outermost pair, every other group is opened when its parent is the innermost
open group, no group is open twice at once, and each is opened and closed equally often. -/
theorem wellNested_of_path {limits : Limits} {text : String} {n : NumberedPattern}
    (h : NumberedPattern.read limits text = .ok n) {ms : List Motion}
    (hpath : (ofPattern n).Path (ofPattern n).start ms final) :
    Tag.WellNested n.parents (ms.filterMap Motion.tag?) := by
  have htour := (path_ofPattern_iff n).1 hpath
  have hhosted := (NumberedPattern.read_numbered h).hosted
  have hcomplete := Pattern.complete_tours hhosted htour
  rw [← Motion.map_tag_events 0 ms]
  exact hcomplete.wellNested_tags

/-- Two rounds of a loop, only the first of which passes the inner group. -/
theorem wellNested_of_path_loop : ∃ n, NumberedPattern.read {} "((a)|b)*" = .ok n ∧
    (ofPattern n).Path (ofPattern n).start
      [.pass ⟨0, .opening⟩, .choose true, .pass ⟨1, .opening⟩, .choose true, .pass ⟨2, .opening⟩,
        .read 'a', .pass ⟨2, .closing⟩, .pass ⟨1, .closing⟩, .choose true, .pass ⟨1, .opening⟩,
        .choose false, .read 'b', .pass ⟨1, .closing⟩, .choose false, .pass ⟨0, .closing⟩] final ∧
    Tag.WellNested #[0, 0, 1] [⟨0, .opening⟩, ⟨1, .opening⟩, ⟨2, .opening⟩, ⟨2, .closing⟩,
      ⟨1, .closing⟩, ⟨1, .opening⟩, ⟨1, .closing⟩, ⟨0, .closing⟩] := by
  let n : NumberedPattern := ⟨.repeated (.group 1 (.alt (.group 2 (.char 'a')) (.char 'b')))
    ⟨0, none, false⟩, #[0, 0, 1]⟩
  have hread : NumberedPattern.read {} "((a)|b)*" = .ok n := by cbv
  have hnodes : ofPattern n = ⟨#[.accept, .mark ⟨0, .closing⟩ 0, .fork 9 1,
      .mark ⟨1, .closing⟩ 2, .consume [.ofChar 'b'] 3, .mark ⟨2, .closing⟩ 3,
      .consume [.ofChar 'a'] 5, .mark ⟨2, .opening⟩ 6, .fork 7 4, .mark ⟨1, .opening⟩ 8,
      .mark ⟨0, .opening⟩ 2], 10, 2, #[0, 0, 1]⟩ := by cbv
  suffices hpath : _ from ⟨n, hread, hpath, wellNested_of_path hread hpath⟩
  rw [hnodes]
  refine .step (.pass rfl) (.step (.first rfl) (.step (.pass rfl) ?_))
  refine .step (.first rfl) (.step (.pass rfl) (.step (.read rfl rfl) ?_))
  refine .step (.pass rfl) (.step (.pass rfl) (.step (.first rfl) (.step (.pass rfl) ?_)))
  refine .step (.second rfl) (.step (.read rfl rfl) (.step (.pass rfl) ?_))
  exact .step (.second rfl) (.step (.pass rfl) (.refl _))

end Automaton

end Submatch
