import Submatch.Proofs.Capture.Outcome
import Submatch.Proofs.Pattern.Numbering

/-!
# Nested iterations

On a tour the iterations of the groups are nested as the groups are: `Event.Nested` says of a list
of boundaries that it consists of iterations one after the other, each of a group with the given
parent and with nested iterations inside. The tours of a numbered pattern pass such boundaries
(`Pattern.nested_tours`). What follows for the spans does not depend on the pattern:

* `Nested.bounds`, `Nested.pairwise`: the spans of a group ascend and do not overlap;
* `Nested.exists_outer`: every span lies inside one of the parent;
* `Nested.enclosed`: when an iteration is opened, exactly one iteration of its parent is open, and
  contains it.
-/

namespace Submatch

namespace Event

/-- The spans of a group, one for each time that it is opened and closed. -/
def iterations (group : Nat) (es : List Event) : List Span :=
  List.zipWith Span.mk (positions ⟨group, .opening⟩ es) (positions ⟨group, .closing⟩ es)

/-- The boundaries are those of iterations one after the other, between the offsets `start` and
`stop`, of groups whose parent is `host`, each with nested iterations inside. -/
inductive Nested (parents : Array Nat) : (host start stop : Nat) → List Event → Prop where
  | done {host start stop : Nat} (ordered : start ≤ stop) : Nested parents host start stop []
  | iteration {host start stop group opened closed : Nat} {inner rest : List Event}
      (parent : parents[group]? = some host) (larger : host < group) (ordered : start ≤ opened)
      (inside : Nested parents group opened closed inner)
      (behind : Nested parents host closed stop rest) :
      Nested parents host start stop
        (⟨⟨group, .opening⟩, opened⟩ :: (inner ++ ⟨⟨group, .closing⟩, closed⟩ :: rest))

variable {parents : Array Nat} {host start stop group g k : Nat} {es fs : List Event}

@[simp] theorem positions_nil (tag : Tag) : positions tag [] = [] := rfl

theorem positions_cons (tag : Tag) (e : Event) (es : List Event) :
    positions tag (e :: es) =
      if e.tag = tag then e.position :: positions tag es else positions tag es := by
  unfold positions
  by_cases h : e.tag = tag <;> simp [h]

theorem positions_append (tag : Tag) (es fs : List Event) :
    positions tag (es ++ fs) = positions tag es ++ positions tag fs := by
  unfold positions
  rw [List.filter_append, List.map_append]

theorem Balanced.append (hes : Balanced es) (hfs : Balanced fs) : Balanced (es ++ fs) := by
  intro g
  rw [positions_append, positions_append, List.length_append, List.length_append, hes g, hfs g]

/-- A group is opened and closed once more around its iterations. -/
theorem Balanced.around (hes : Balanced es) (group opened closed : Nat) :
    Balanced (⟨⟨group, .opening⟩, opened⟩ :: (es ++ [⟨⟨group, .closing⟩, closed⟩])) := by
  intro g
  have hg := hes g
  by_cases h : group = g
  · subst h
    simp [positions_cons, positions_append, hg]
  · simp [positions_cons, positions_append, hg, h]

/-- Behind boundaries that are balanced the pairing starts anew. -/
theorem iterations_append (hes : Balanced es) (g : Nat) (fs : List Event) :
    iterations g (es ++ fs) = iterations g es ++ iterations g fs := by
  unfold iterations
  rw [positions_append, positions_append, List.zipWith_append (hes g)]

theorem length_iterations (hes : Balanced es) (g : Nat) :
    (iterations g es).length = (positions ⟨g, .closing⟩ es).length := by
  unfold iterations
  rw [List.length_zipWith, hes g, Nat.min_self]

namespace Nested

theorem le (h : Nested parents host start stop es) : start ≤ stop := by
  induction h with
  | done ordered => exact ordered
  | iteration _ _ ordered _ _ inside behind => omega

theorem mono {start' : Nat} (h : Nested parents host start stop es) (hle : start' ≤ start) :
    Nested parents host start' stop es := by
  cases h with
  | done ordered => exact .done (by omega)
  | iteration parent larger ordered inside behind =>
    exact .iteration parent larger (by omega) inside behind

theorem append {mid : Nat} (hes : Nested parents host start mid es)
    (hfs : Nested parents host mid stop fs) : Nested parents host start stop (es ++ fs) := by
  induction hes with
  | done ordered => exact hfs.mono ordered
  | iteration parent larger ordered inside _ _ behind =>
    rw [List.cons_append, List.append_assoc, List.cons_append]
    exact .iteration parent larger ordered inside (behind hfs)

/-- All groups inside have larger numbers. -/
theorem lt_group (h : Nested parents host start stop es) : ∀ e ∈ es, host < e.tag.group := by
  induction h with
  | done => nofun
  | iteration _ larger _ _ _ inside behind =>
    intro e he
    rcases List.mem_cons.1 he with rfl | he
    · exact larger
    rcases List.mem_append.1 he with he | he
    · exact Nat.lt_trans larger (inside e he)
    rcases List.mem_cons.1 he with rfl | he
    · exact larger
    · exact behind e he

theorem positions_host (h : Nested parents host start stop es) (boundary : Boundary) :
    positions ⟨host, boundary⟩ es = [] := by
  unfold positions
  rw [List.map_eq_nil_iff, List.filter_eq_nil_iff]
  intro e he htag
  have hlt := h.lt_group e he
  rw [of_decide_eq_true htag] at hlt
  exact Nat.lt_irrefl host hlt

theorem balanced (h : Nested parents host start stop es) : Balanced es := by
  induction h with
  | done => exact fun _ => rfl
  | @iteration _ _ _ group opened closed inner rest _ _ _ _ _ inside behind =>
    have haround := (inside.around group opened closed).append behind
    rwa [List.cons_append, List.append_assoc] at haround

/-- The spans of an iteration and what comes behind: the iteration itself, or what is inside. -/
theorem iterations_eq {opened closed : Nat} (hes : Nested parents group opened closed es) (g : Nat)
    (fs : List Event) :
    iterations g (⟨⟨group, .opening⟩, opened⟩ :: (es ++ ⟨⟨group, .closing⟩, closed⟩ :: fs)) =
      (if group = g then [⟨opened, closed⟩] else iterations g es) ++ iterations g fs := by
  have happend := iterations_append (hes.balanced.around group opened closed) g fs
  rw [List.cons_append, List.append_assoc] at happend
  refine happend.trans (congrArg (· ++ _) ?_)
  unfold iterations
  by_cases h : group = g
  · subst h
    simp [positions_cons, positions_append, hes.positions_host]
  · simp [positions_cons, positions_append, h]

/-- Every span lies between the offsets. -/
theorem bounds (h : Nested parents host start stop es) (g : Nat) :
    ∀ s ∈ iterations g es, start ≤ s.start ∧ s.start ≤ s.stop ∧ s.stop ≤ stop := by
  induction h with
  | done => nofun
  | @iteration _ start stop group opened closed inner rest _ _ ordered hinside hbehind inside
      behind =>
    have hle := hinside.le
    have hle' := hbehind.le
    intro s hs
    rw [hinside.iterations_eq, List.mem_append] at hs
    rcases hs with hs | hs
    · split at hs
      · rw [List.mem_singleton.1 hs]
        exact ⟨ordered, hle, hle'⟩
      · have := inside s hs
        omega
    · have := behind s hs
      omega

/-- **The spans of a group ascend and do not overlap.** -/
theorem pairwise (h : Nested parents host start stop es) (g : Nat) :
    (iterations g es).Pairwise fun s t => s.stop ≤ t.start := by
  induction h with
  | done => exact .nil
  | @iteration _ start stop group opened closed inner rest _ _ ordered hinside hbehind inside
      behind =>
    rw [hinside.iterations_eq]
    refine List.pairwise_append.2 ⟨?_, behind, fun s hs t ht => ?_⟩
    · split
      · exact List.pairwise_singleton ..
      · exact inside
    · have ht := hbehind.bounds g t ht
      split at hs
      · rw [List.mem_singleton.1 hs]
        exact ht.1
      · have hs := hinside.bounds g s hs
        omega

/-- **Every span lies inside a span of the parent**, unless that is the group around. -/
theorem exists_outer (h : Nested parents host start stop es) (hparent : parents[g]? = some k) :
    ∀ s ∈ iterations g es, k = host ∨ ∃ outer ∈ iterations k es, outer.contains s = true := by
  induction h with
  | done => nofun
  | @iteration host start stop group opened closed inner rest parent _ _ hinside _ inside
      behind =>
    intro s hs
    rw [hinside.iterations_eq, List.mem_append] at hs
    rw [hinside.iterations_eq]
    rcases hs with hs | hs
    · by_cases hgroup : group = g
      · -- the iteration itself
        subst hgroup
        exact .inl (Option.some.inj (hparent.symm.trans parent))
      · rw [if_neg hgroup] at hs
        have hwithin := hinside.bounds g s hs
        refine .inr ?_
        by_cases hk : group = k
        · rw [if_pos hk]
          refine ⟨⟨opened, closed⟩, List.mem_append_left _ (List.mem_singleton_self _), ?_⟩
          simp [Span.contains]
          omega
        · rw [if_neg hk]
          obtain ⟨outer, houter, hcontains⟩ := (inside s hs).resolve_left (Ne.symm hk)
          exact ⟨outer, List.mem_append_left _ houter, hcontains⟩
    · refine (behind s hs).imp_right ?_
      rintro ⟨outer, houter, hcontains⟩
      exact ⟨outer, List.mem_append_right _ houter, hcontains⟩

end Nested

theorem getElem?_append_of_some {α : Type} {l m : List α} {i : Nat} {a : α} (h : l[i]? = some a) :
    (l ++ m)[i]? = some a := by
  obtain ⟨hlt, -⟩ := List.getElem?_eq_some_iff.1 h
  rw [List.getElem?_append_left hlt, h]

/-- When the last of these iterations of the group `g` is opened, one iteration of the group `k` is
open, and contains it. The boundaries passed by then are those in `before`. -/
def Encloses (es before : List Event) (g k : Nat) : Prop :=
  (positions ⟨k, .opening⟩ before).length = (positions ⟨k, .closing⟩ before).length + 1 ∧
    ∃ outer s, (iterations k es)[(positions ⟨k, .closing⟩ before).length]? = some outer ∧
      (iterations g es)[(positions ⟨g, .opening⟩ before).length]? = some s ∧
        outer.contains s = true

variable {before after : List Event}

/-- What comes before makes no difference. -/
theorem Encloses.shift (h : Encloses es before g k) (hfs : Balanced fs) :
    Encloses (fs ++ es) (fs ++ before) g k := by
  obtain ⟨hopen, outer, s, houter, hs, hcontains⟩ := h
  have hk := hfs k
  have hg := hfs g
  refine ⟨?_, outer, s, ?_, ?_, hcontains⟩
  · rw [positions_append, positions_append, List.length_append, List.length_append, hk, hopen,
      Nat.add_assoc]
  · rw [iterations_append hfs, positions_append, List.length_append, ← length_iterations hfs,
      List.getElem?_append_right (Nat.le_add_right ..), Nat.add_sub_cancel_left]
    exact houter
  · rw [iterations_append hfs, positions_append, List.length_append, hg, ← length_iterations hfs,
      List.getElem?_append_right (Nat.le_add_right ..), Nat.add_sub_cancel_left]
    exact hs

/-- Inside an iteration of the group `group`, that iteration is the one that is open, or it is one
inside it. -/
theorem Nested.encloses {opened closed p : Nat} (hes : Nested parents group opened closed es)
    (hsplit : es = before ++ ⟨⟨g, .opening⟩, p⟩ :: after) (h : k = group ∨ Encloses es before g k)
    (fs : List Event) :
    Encloses (⟨⟨group, .opening⟩, opened⟩ :: (es ++ ⟨⟨group, .closing⟩, closed⟩ :: fs))
      (⟨⟨group, .opening⟩, opened⟩ :: before) g k := by
  have hlarger : group < g :=
    hes.lt_group ⟨⟨g, .opening⟩, p⟩ (hsplit ▸ List.mem_append_right _ List.mem_cons_self)
  have hg : group ≠ g := Nat.ne_of_lt hlarger
  by_cases hk : k = group
  · subst hk
    -- no boundary of the group lies inside its iteration
    have hbefore : ∀ boundary, positions ⟨k, boundary⟩ before = [] := by
      intro boundary
      have hnone := hes.positions_host boundary
      rw [hsplit, positions_append] at hnone
      exact (List.append_eq_nil_iff.1 hnone).1
    have hlt : (positions ⟨g, .opening⟩ before).length < (iterations g es).length := by
      rw [length_iterations hes.balanced, ← hes.balanced g, hsplit, positions_append,
        positions_cons, if_pos rfl, List.length_append, List.length_cons]
      omega
    have hwithin := hes.bounds g _ (List.getElem_mem hlt)
    refine ⟨?_, ⟨opened, closed⟩, (iterations g es)[(positions ⟨g, .opening⟩ before).length], ?_,
      ?_, ?_⟩
    · simp [positions_cons, hbefore]
    · rw [hes.iterations_eq, if_pos rfl]
      simp [positions_cons, hbefore]
    · rw [hes.iterations_eq, if_neg hg, positions_cons, if_neg (by simp [hg])]
      exact getElem?_append_of_some (List.getElem?_eq_getElem hlt)
    · simp [Span.contains]
      omega
  · obtain ⟨hopen, outer, s, houter, hs, hcontains⟩ := h.resolve_left hk
    have hk' : group ≠ k := Ne.symm hk
    have hcount : ∀ other boundary, group ≠ other →
        positions ⟨other, boundary⟩ (⟨⟨group, .opening⟩, opened⟩ :: before) =
          positions ⟨other, boundary⟩ before := by
      intro other boundary hother
      simp [positions_cons, hother]
    rw [Encloses, hcount k _ hk', hcount k _ hk', hcount g _ hg, hes.iterations_eq, if_neg hk',
      hes.iterations_eq, if_neg hg]
    exact ⟨hopen, outer, s, getElem?_append_of_some houter, getElem?_append_of_some hs, hcontains⟩

/-- **Every iteration is opened inside one of its parent**, unless that is the group around. -/
theorem Nested.enclosed (h : Nested parents host start stop es) (hparent : parents[g]? = some k)
    {p : Nat} (hsplit : es = before ++ ⟨⟨g, .opening⟩, p⟩ :: after) :
    k = host ∨ Encloses es before g k := by
  induction h generalizing before after with
  | done => simp at hsplit
  | @iteration host start stop group opened closed inner rest parent _ _ hinside _ inside
      behind =>
    cases before with
    | nil =>
      -- the iteration itself is opened
      obtain ⟨heq, -⟩ := List.cons.inj hsplit
      cases heq
      exact .inl (Option.some.inj (hparent.symm.trans parent))
    | cons e before =>
      obtain ⟨rfl, htail⟩ := List.cons.inj hsplit
      rcases List.append_eq_append_iff.1 htail with ⟨xs, rfl, hrest⟩ | ⟨xs, hinner, hrest⟩
      · cases xs with
        | nil => simp at hrest
        | cons e before =>
          -- an iteration behind it is opened
          obtain ⟨rfl, hbehind⟩ := List.cons.inj hrest
          refine (behind hbehind).imp_right fun hencloses => ?_
          have hshift := hencloses.shift (hinside.balanced.around group opened closed)
          simpa only [List.cons_append, List.append_assoc, List.nil_append] using hshift
      · cases xs with
        | nil => simp at hrest
        | cons e after' =>
          -- an iteration inside it is opened
          obtain ⟨rfl, -⟩ := List.cons.inj hrest
          exact .inr (hinside.encloses hinner (inside hinner) rest)

/-- The boundaries of a whole match that ends at the offset `stop`: those of group zero, and nested
iterations in between. -/
def Complete (parents : Array Nat) (stop : Nat) (es : List Event) : Prop :=
  ∃ inner, Nested parents 0 0 stop inner ∧
    es = ⟨⟨0, .opening⟩, 0⟩ :: (inner ++ [⟨⟨0, .closing⟩, stop⟩])

namespace Complete

theorem balanced (h : Complete parents stop es) : Balanced es := by
  obtain ⟨inner, hinner, rfl⟩ := h
  exact hinner.balanced.around 0 0 stop

/-- Group zero has one iteration, the whole match. -/
theorem iterations_zero (h : Complete parents stop es) : iterations 0 es = [⟨0, stop⟩] := by
  obtain ⟨inner, hinner, rfl⟩ := h
  rw [hinner.iterations_eq, if_pos rfl]
  rfl

theorem bounds (h : Complete parents stop es) (g : Nat) :
    ∀ s ∈ iterations g es, s.start ≤ s.stop ∧ s.stop ≤ stop := by
  obtain ⟨inner, hinner, rfl⟩ := h
  intro s hs
  rw [hinner.iterations_eq, List.mem_append] at hs
  rcases hs with hs | hs
  · split at hs
    · rw [List.mem_singleton.1 hs]
      exact ⟨Nat.zero_le stop, Nat.le_refl stop⟩
    · exact (hinner.bounds g s hs).2
  · cases hs

theorem pairwise (h : Complete parents stop es) (g : Nat) :
    (iterations g es).Pairwise fun s t => s.stop ≤ t.start := by
  by_cases hg : g = 0
  · subst hg
    rw [h.iterations_zero]
    exact List.pairwise_singleton ..
  · obtain ⟨inner, hinner, rfl⟩ := h
    rw [hinner.iterations_eq, if_neg (Ne.symm hg)]
    exact List.pairwise_append.2 ⟨hinner.pairwise g, .nil, nofun⟩

/-- Every span of a group lies inside one of its parent. -/
theorem exists_outer (h : Complete parents stop es) (hg : 0 < g) (hparent : parents[g]? = some k) :
    ∀ s ∈ iterations g es, ∃ outer ∈ iterations k es, outer.contains s = true := by
  obtain ⟨inner, hinner, rfl⟩ := h
  intro s hs
  rw [hinner.iterations_eq, if_neg (Nat.ne_of_lt hg), List.mem_append] at hs
  rw [hinner.iterations_eq]
  have hs := hs.resolve_right nofun
  have hwithin := hinner.bounds g s hs
  by_cases hk : 0 = k
  · rw [if_pos hk]
    refine ⟨⟨0, stop⟩, List.mem_append_left _ (List.mem_singleton_self _), ?_⟩
    simp [Span.contains, hwithin]
  · rw [if_neg hk]
    obtain ⟨outer, houter, hcontains⟩ :=
      (hinner.exists_outer hparent s hs).resolve_left (Ne.symm hk)
    exact ⟨outer, List.mem_append_left _ houter, hcontains⟩

/-- Every iteration of a group is opened inside one of its parent. -/
theorem encloses {before after : List Event} {p : Nat} (h : Complete parents stop es) (hg : 0 < g)
    (hparent : parents[g]? = some k) (hsplit : es = before ++ ⟨⟨g, .opening⟩, p⟩ :: after) :
    Encloses es before g k := by
  obtain ⟨inner, hinner, rfl⟩ := h
  cases before with
  | nil =>
    obtain ⟨heq, -⟩ := List.cons.inj hsplit
    cases heq
    exact absurd hg (Nat.lt_irrefl 0)
  | cons e before =>
    obtain ⟨rfl, htail⟩ := List.cons.inj hsplit
    rcases List.append_eq_append_iff.1 htail with ⟨xs, -, hrest⟩ | ⟨xs, hinside, hrest⟩
    · cases xs with
      | nil => simp at hrest
      | cons e xs => simp at hrest
    · cases xs with
      | nil => simp at hrest
      | cons e after' =>
        obtain ⟨rfl, -⟩ := List.cons.inj hrest
        exact hinner.encloses hinside (hinner.enclosed hparent hinside) []

end Complete

end Event

/-- The moves pass the boundaries of nested iterations inside an iteration of a group. -/
def Motion.Nests (parents : Array Nat) (host : Nat) (ms : List Motion) : Prop :=
  ∀ i, Event.Nested parents host i (i + (Motion.chars ms).length) (Motion.events i ms)

theorem Motion.composable_nests (parents : Array Nat) (host : Nat) :
    Composable (Nests parents host) where
  nil := fun i => .done (Nat.le_refl i)
  append := by
    intro ms ns hms hns i
    rw [events_append, chars_append, List.length_append, ← Nat.add_assoc]
    exact (hms i).append (hns _)
  read := fun _ i => .done (Nat.le_succ i)
  choose := fun _ i => .done (Nat.le_refl i)

namespace Pattern

variable {parents : Array Nat} {p : Pattern}

/-- A tour of a group passes its boundaries around those of a tour of the body. -/
theorem events_group (index i : Nat) (ms : List Motion) :
    Motion.events i (.pass ⟨index, .opening⟩ :: (ms ++ [.pass ⟨index, .closing⟩])) =
      ⟨⟨index, .opening⟩, i⟩ :: (Motion.events i ms ++
        [⟨⟨index, .closing⟩, i + (Motion.chars ms).length⟩]) := by
  rw [Motion.events, Motion.events_append]
  rfl

/-- **Tours pass nested iterations.** -/
theorem nested_tours {host : Nat} (hp : p.Hosted parents host) :
    ∀ ms ∈ p.tours, Motion.Nests parents host ms := by
  induction p generalizing host with
  | empty =>
    rintro ms rfl
    exact (Motion.composable_nests parents host).nil
  | char c => exact (Motion.composable_nests parents host).reading _
  | set ranges => exact (Motion.composable_nests parents host).reading ranges
  | any => exact (Motion.composable_nests parents host).reading _
  | seq left right ihl ihr =>
    obtain ⟨hleft, hright⟩ := List.forall_mem_append.1 hp
    exact (Motion.composable_nests parents host).mul (ihl hleft) (ihr hright)
  | alt left right ihl ihr =>
    obtain ⟨hleft, hright⟩ := List.forall_mem_append.1 hp
    have hP := Motion.composable_nests parents host
    rintro ms (hms | hms)
    · exact hP.mul (hP.only _) (ihl hleft) ms hms
    · exact hP.mul (hP.only _) (ihr hright) ms hms
  | repeated body q ih => exact (Motion.composable_nests parents host).repeated (ih hp) q
  | group index body ih =>
    obtain ⟨⟨hparent, hlarger⟩, hbody⟩ := List.forall_mem_cons.1 hp
    intro ms hms i
    obtain ⟨inner, hinner, rfl⟩ := mem_tours_group.1 hms
    have hinside := ih hbody inner hinner i
    rw [events_group]
    have hlength : (Motion.chars (.pass ⟨index, .opening⟩ ::
        (inner ++ [.pass ⟨index, .closing⟩]))).length = (Motion.chars inner).length := by
      simp
    rw [hlength]
    exact .iteration hparent hlarger (Nat.le_refl i) hinside (.done (Nat.le_refl _))

/-- A tour of group zero passes the boundaries of a whole match. -/
theorem complete_tours (hp : p.Hosted parents 0) {ms : List Motion}
    (h : ms ∈ (group 0 p).tours) :
    Event.Complete parents (Motion.chars ms).length (Motion.events 0 ms) := by
  obtain ⟨inner, hinner, rfl⟩ := mem_tours_group.1 h
  have hinside := nested_tours hp inner hinner 0
  refine ⟨Motion.events 0 inner, ?_, ?_⟩
  · simpa using hinside
  · simp [events_group]

end Pattern

end Submatch
