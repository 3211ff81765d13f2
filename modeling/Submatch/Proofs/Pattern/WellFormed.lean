import Mathlib
import Submatch.Proofs.Pattern.Numbering

/-!
# What is read is well formed

Whatever text is read as a pattern, its groups are numbered in preorder and the table of parents
says which group is innermost around each, its sets are in normal form, the bounds of its
repetitions ascend and respect the limit, and groups are nested no deeper than allowed
(`NumberedPattern.read_wellFormed`). A plus and a question mark count for this as repetitions
without a counter: the limit of zero does not rule them out (`read_plus_unlimited`).
-/

namespace Submatch

namespace Pattern

/-- The nodes of a pattern in preorder. -/
def nodes : Pattern → List Pattern
  | empty => [empty]
  | char c => [char c]
  | set ranges => [set ranges]
  | any => [any]
  | seq left right => seq left right :: (left.nodes ++ right.nodes)
  | alt left right => alt left right :: (left.nodes ++ right.nodes)
  | repeated body q => repeated body q :: body.nodes
  | group index body => group index body :: body.nodes

/-- The number of a group. -/
def index? : Pattern → Option Nat
  | group index _ => some index
  | _ => none

/-- How deep groups that capture are nested. -/
def captureDepth : Pattern → Nat
  | empty | char _ | set _ | any => 0
  | seq left right | alt left right => max left.captureDepth right.captureDepth
  | repeated body _ => body.captureDepth
  | group _ body => body.captureDepth + 1

/-- The numbers of the groups in preorder. -/
def indices (p : Pattern) : List Nat := p.nodes.filterMap index?

/-- The group `outer` stands around the group `inner`. -/
def Encloses (p : Pattern) (outer inner : Nat) : Prop :=
  ∃ body, .group outer body ∈ p.nodes ∧ inner ∈ body.indices

/-- `host` is the innermost group around a group: what stands around the group is `host` and
whatever stands around `host`. It is zero if there is no group around. -/
def Innermost (p : Pattern) (host inner : Nat) : Prop :=
  ∀ outer, p.Encloses outer inner ↔ 0 < host ∧ (outer = host ∨ p.Encloses outer host)

variable {left right body p : Pattern} {outer inner index host : Nat}

@[simp] theorem nodes_empty : nodes empty = [empty] := rfl

@[simp] theorem nodes_char {c : Char} : (char c).nodes = [char c] := rfl

@[simp] theorem nodes_set {ranges : List SymbolRange} : (set ranges).nodes = [set ranges] := rfl

@[simp] theorem nodes_any : nodes any = [any] := rfl

@[simp] theorem nodes_seq : (seq left right).nodes = seq left right :: (left.nodes ++ right.nodes) :=
  rfl

@[simp] theorem nodes_alt : (alt left right).nodes = alt left right :: (left.nodes ++ right.nodes) :=
  rfl

@[simp] theorem nodes_repeated {q : Quantifier} :
    (repeated body q).nodes = repeated body q :: body.nodes := rfl

@[simp] theorem nodes_group : (group index body).nodes = group index body :: body.nodes := rfl

@[simp] theorem indices_seq : (seq left right).indices = left.indices ++ right.indices := by
  rw [indices, nodes_seq, List.filterMap_cons_none rfl, List.filterMap_append]
  rfl

@[simp] theorem indices_alt : (alt left right).indices = left.indices ++ right.indices := by
  rw [indices, nodes_alt, List.filterMap_cons_none rfl, List.filterMap_append]
  rfl

@[simp] theorem indices_repeated {q : Quantifier} : (repeated body q).indices = body.indices := by
  rw [indices, nodes_repeated, List.filterMap_cons_none rfl]
  rfl

@[simp] theorem indices_group : (group index body).indices = index :: body.indices := by
  have hindex : (group index body).index? = some index := rfl
  rw [indices, nodes_group, List.filterMap_cons_some hindex]
  rfl

@[simp] theorem encloses_seq : (seq left right).Encloses outer inner ↔
    left.Encloses outer inner ∨ right.Encloses outer inner := by
  simp [Encloses, or_and_right, exists_or]

@[simp] theorem encloses_alt : (alt left right).Encloses outer inner ↔
    left.Encloses outer inner ∨ right.Encloses outer inner := by
  simp [Encloses, or_and_right, exists_or]

@[simp] theorem encloses_repeated {q : Quantifier} :
    (repeated body q).Encloses outer inner ↔ body.Encloses outer inner := by
  simp [Encloses]

@[simp] theorem encloses_group : (group index body).Encloses outer inner ↔
    (outer = index ∧ inner ∈ body.indices) ∨ body.Encloses outer inner := by
  simp [Encloses, or_and_right, exists_or]

theorem Encloses.outer_mem (h : p.Encloses outer inner) : outer ∈ p.indices := by
  obtain ⟨body, hmem, -⟩ := h
  exact List.mem_filterMap.2 ⟨_, hmem, rfl⟩

theorem Encloses.inner_mem (h : p.Encloses outer inner) : inner ∈ p.indices := by
  induction p with
  | empty | char c | set ranges | any => simp [Encloses] at h
  | seq left right ihl ihr =>
    rw [indices_seq, List.mem_append]
    exact (encloses_seq.1 h).imp ihl ihr
  | alt left right ihl ihr =>
    rw [indices_alt, List.mem_append]
    exact (encloses_alt.1 h).imp ihl ihr
  | repeated body q ih =>
    rw [indices_repeated]
    exact ih (encloses_repeated.1 h)
  | group index body ih =>
    rw [indices_group, List.mem_cons]
    rcases encloses_group.1 h with ⟨-, hmem⟩ | hbody
    · exact .inr hmem
    · exact .inr (ih hbody)

/-- The groups come in preorder. -/
theorem map_fst_captures (p : Pattern) (host : Nat) :
    (p.captures host).map Prod.fst = p.indices := by
  induction p generalizing host with
  | empty | char c | set ranges | any => rfl
  | seq left right ihl ihr => rw [captures, List.map_append, ihl, ihr, indices_seq]
  | alt left right ihl ihr => rw [captures, List.map_append, ihl, ihr, indices_alt]
  | repeated body q ih => rw [captures, ih, indices_repeated]
  | group index body ih => rw [captures, List.map_cons, ih, indices_group]

/-- The innermost group around a group is `host`: one of the pattern, or the group `index` around
the pattern, if there is none. -/
def HasHost (p : Pattern) (index host inner : Nat) : Prop :=
  (host = index ∧ ∀ outer, ¬ p.Encloses outer inner) ∨
    (p.Encloses host inner ∧ ∀ outer, p.Encloses outer inner ↔ outer = host ∨ p.Encloses outer host)

/-- What is innermost in a part is so in the whole, where no other group has the same number. -/
theorem HasHost.of_part {whole : Pattern} (h : p.HasHost index host inner)
    (hinner : inner ∈ p.indices)
    (hpart : ∀ i ∈ p.indices, ∀ outer, whole.Encloses outer i ↔ p.Encloses outer i) :
    whole.HasHost index host inner := by
  rcases h with ⟨heq, hnone⟩ | ⟨hhost, hiff⟩
  · refine .inl ⟨heq, fun outer houter => ?_⟩
    exact hnone outer ((hpart inner hinner outer).1 houter)
  · refine .inr ⟨(hpart inner hinner host).2 hhost, fun outer => ?_⟩
    rw [hpart inner hinner, hpart host hhost.outer_mem]
    exact hiff outer

theorem mem_indices_of_mem_captures (h : (inner, host) ∈ p.captures index) :
    inner ∈ p.indices := by
  rw [← map_fst_captures p index]
  exact List.mem_map_of_mem h

/-- The group that is listed with a group is the innermost one around it. -/
theorem hasHost_of_mem_captures (hnodup : p.indices.Nodup)
    (h : (inner, host) ∈ p.captures index) : p.HasHost index host inner := by
  induction p generalizing index with
  | empty | char c | set ranges | any => cases h
  | seq left right ihl ihr | alt left right ihl ihr =>
    have hparts : (left.indices ++ right.indices).Nodup := by simpa using hnodup
    obtain ⟨hleft, hright, hdisjoint⟩ := List.nodup_append'.1 hparts
    rcases List.mem_append.1 h with h | h
    · have hinner := mem_indices_of_mem_captures h
      refine (ihl hleft h).of_part hinner fun i hi outer => ?_
      have hnot : ¬ right.Encloses outer i := fun hi' => hdisjoint hi hi'.inner_mem
      simp [hnot]
    · have hinner := mem_indices_of_mem_captures h
      refine (ihr hright h).of_part hinner fun i hi outer => ?_
      have hnot : ¬ left.Encloses outer i := fun hi' => hdisjoint hi'.inner_mem hi
      simp [hnot]
  | repeated body q ih =>
    rw [indices_repeated] at hnodup
    exact (ih hnodup h).of_part (mem_indices_of_mem_captures h) fun i _ outer => encloses_repeated
  | group own body ih =>
    rw [indices_group, List.nodup_cons] at hnodup
    obtain ⟨hown, hnodup⟩ := hnodup
    -- no group of the body stands around the group itself
    have hnone : ∀ outer, ¬ (group own body).Encloses outer own := by
      intro outer hencloses
      rcases encloses_group.1 hencloses with ⟨-, hmem⟩ | hbody
      · exact hown hmem
      · exact hown hbody.inner_mem
    rcases List.mem_cons.1 h with heq | hmem
    · obtain ⟨rfl, rfl⟩ := Prod.mk.inj heq
      exact .inl ⟨rfl, hnone⟩
    · have hinner := mem_indices_of_mem_captures hmem
      rcases ih hnodup hmem with ⟨rfl, hfree⟩ | ⟨hhost, hiff⟩
      · refine .inr ⟨encloses_group.2 (.inl ⟨rfl, hinner⟩), fun outer => ?_⟩
        rw [or_iff_left (hnone outer), encloses_group, or_iff_left (hfree outer),
          and_iff_left hinner]
      · refine .inr ⟨encloses_group.2 (.inr hhost), fun outer => ?_⟩
        rw [encloses_group, encloses_group, hiff, and_iff_left hinner,
          and_iff_left hhost.outer_mem, or_left_comm]

/-- What is allowed of a node by itself: a set is in normal form, and a repetition has bounds that
the reader lets through. -/
def NodeAllowed (limits : Limits) : Pattern → Prop
  | set ranges => RangeSet.Proper ranges
  | repeated _ q => limits.Allows q.min q.max
  | empty | char _ | any | seq _ _ | alt _ _ | group _ _ => True

/-- Every node is allowed, and `room` is enough for the groups. -/
structure Allowed (limits : Limits) (room : Nat) (p : Pattern) : Prop where
  nodes : ∀ q ∈ p.nodes, q.NodeAllowed limits
  depth : p.captureDepth ≤ room

variable {limits : Limits} {room : Nat}

/-- **The reader puts together what is allowed.** -/
theorem preserves_allowed (limits : Limits) : Reader.Preserves limits (Allowed limits) where
  empty := fun room => ⟨List.forall_mem_singleton.2 trivial, Nat.zero_le room⟩
  char := fun room _ => ⟨List.forall_mem_singleton.2 trivial, Nat.zero_le room⟩
  any := fun room => ⟨List.forall_mem_singleton.2 trivial, Nat.zero_le room⟩
  shorthand := fun room s => ⟨List.forall_mem_singleton.2 s.proper_ranges, Nat.zero_le room⟩
  bracket := fun room b => ⟨List.forall_mem_singleton.2 b.proper_ranges, Nat.zero_le room⟩
  seq := by
    intro room p q hp hq
    exact ⟨List.forall_mem_cons.2 ⟨trivial, List.forall_mem_append.2 ⟨hp.nodes, hq.nodes⟩⟩,
      Nat.max_le.2 ⟨hp.depth, hq.depth⟩⟩
  alt := by
    intro room p q hp hq
    exact ⟨List.forall_mem_cons.2 ⟨trivial, List.forall_mem_append.2 ⟨hp.nodes, hq.nodes⟩⟩,
      Nat.max_le.2 ⟨hp.depth, hq.depth⟩⟩
  repeated := fun room p q hq hp => ⟨List.forall_mem_cons.2 ⟨hq, hp.nodes⟩, hp.depth⟩
  group := fun room index p hp =>
    ⟨List.forall_mem_cons.2 ⟨trivial, hp.nodes⟩, Nat.succ_le_succ hp.depth⟩
  weaken := fun room p hp => ⟨hp.nodes, Nat.le_succ_of_le hp.depth⟩

end Pattern

namespace NumberedPattern

/-- A pattern as it comes out of the reader. -/
structure WellFormed (limits : Limits) (n : NumberedPattern) : Prop where
  /-- In preorder the groups have the numbers from one on, each exactly once. -/
  indices : n.pattern.indices = List.range' 1 n.groupCount
  /-- There is a parent for every group and for the whole pattern. -/
  size : n.parents.size = n.groupCount + 1
  whole : n.parents[0]? = some 0
  /-- The parent of a group is the innermost group around it, or zero, and has a smaller number. -/
  parents : ∀ g, 1 ≤ g → g ≤ n.groupCount →
    ∃ host, n.parents[g]? = some host ∧ n.pattern.Innermost host g ∧ host < g
  /-- The ranges of a set ascend within the input domain, with gaps between them. -/
  sets : ∀ ranges, .set ranges ∈ n.pattern.nodes →
    RangeSet.Separated ranges ∧ ∀ r ∈ ranges, r.lo ≤ r.hi ∧ r.hi ≤ lastSymbol
  /-- A character is a scalar value. -/
  chars : ∀ c, .char c ∈ n.pattern.nodes → c.toNat.isValidChar
  /-- The bounds of a repetition ascend, and respect the limit unless they are those of a plus or a
  question mark. -/
  ascend : ∀ body q, .repeated body q ∈ n.pattern.nodes → ∀ m ∈ q.max, q.min ≤ m
  bounds : ∀ body q, .repeated body q ∈ n.pattern.nodes →
    (q.min ≤ limits.maxRepetition ∧ ∀ m ∈ q.max, m ≤ limits.maxRepetition) ∨
      limits.maxRepetition = 0 ∧ (q.min = 1 ∧ q.max = none ∨ q.min = 0 ∧ q.max = some 1)
  /-- Groups that capture are nested no deeper than groups may be. -/
  depth : n.pattern.captureDepth ≤ limits.maxNesting

variable {limits : Limits} {text : String} {n : NumberedPattern}

theorem Numbered.mem_captures (h : n.Numbered) {g : Nat} (hg : 1 ≤ g) (hle : g ≤ n.groupCount) :
    ∃ host, (g, host) ∈ n.pattern.captures 0 := by
  have hmem : g ∈ (n.pattern.captures 0).map Prod.fst := by
    rw [h.indices, List.mem_range'_1]
    omega
  obtain ⟨⟨g', host⟩, he, rfl⟩ := List.mem_map.1 hmem
  exact ⟨host, he⟩

theorem Numbered.indices_eq (h : n.Numbered) :
    n.pattern.indices = List.range' 1 n.groupCount := by
  rw [← Pattern.map_fst_captures n.pattern 0, h.indices]

theorem Numbered.innermost (h : n.Numbered) {g host : Nat}
    (hmem : (g, host) ∈ n.pattern.captures 0) : n.pattern.Innermost host g := by
  have hnodup : n.pattern.indices.Nodup := by
    rw [h.indices_eq]
    exact List.nodup_range'
  have hpos : ∀ i ∈ n.pattern.indices, 0 < i := by
    intro i hi
    rw [h.indices_eq, List.mem_range'_1] at hi
    exact hi.1
  intro outer
  rcases Pattern.hasHost_of_mem_captures hnodup hmem with ⟨rfl, hnone⟩ | ⟨hhost, hiff⟩
  · exact iff_of_false (hnone outer) fun hzero => Nat.lt_irrefl 0 hzero.1
  · rw [hiff, and_iff_right (hpos host hhost.outer_mem)]

/-- **What is read is well formed.** -/
theorem read_wellFormed (h : read limits text = .ok n) : n.WellFormed limits := by
  have hnumbered := read_numbered h
  obtain ⟨hpos, hallowed⟩ := read_induction (Pattern.preserves_allowed limits) h
  exact {
    indices := hnumbered.indices_eq
    size := (Nat.sub_add_cancel hpos).symm
    whole := by rw [← Array.getElem?_toList, hnumbered.hosts]; rfl
    parents := by
      intro g hg hle
      obtain ⟨host, hmem⟩ := hnumbered.mem_captures hg hle
      obtain ⟨hparent, hlt⟩ := hnumbered.hosted _ hmem
      exact ⟨host, hparent, hnumbered.innermost hmem, hlt⟩
    sets := by
      intro ranges hmem
      obtain ⟨hseparated, hdomain⟩ : RangeSet.Proper ranges := hallowed.nodes _ hmem
      exact ⟨hseparated, fun r hr => ⟨r.lo_le_hi, hdomain r hr⟩⟩
    chars := fun c _ => c.valid
    ascend := by
      intro body q hmem
      have hq : limits.Allows q.min q.max := hallowed.nodes _ hmem
      exact hq.ascend
    bounds := by
      intro body q hmem
      have hq : limits.Allows q.min q.max := hallowed.nodes _ hmem
      exact hq.bound
    depth := hallowed.depth }

/-- A negated class in a loop over nested groups, under limits that are just wide enough. -/
theorem read_wellFormed_nested : ∃ n, read ⟨2, 3⟩ "(a{2,3}?([^-\\dx])|.)+" = .ok n ∧
    n.groupCount = 2 ∧ n.WellFormed ⟨2, 3⟩ := by
  have hcount : (do return (← read ⟨2, 3⟩ "(a{2,3}?([^-\\dx])|.)+").groupCount) = Except.ok 2 := by
    cbv
  obtain ⟨n, hread, htwo⟩ := bind_eq_ok.1 hcount
  exact ⟨n, hread, Except.ok.inj htwo, read_wellFormed hread⟩

/-- The limit says nothing about a plus. -/
theorem read_plus_unlimited : ∃ n, read ⟨250, 0⟩ "a+" = .ok n ∧
    ¬ ∀ body q, .repeated body q ∈ n.pattern.nodes → q.min ≤ 0 ∧ ∀ m ∈ q.max, m ≤ 0 := by
  have hread : read ⟨250, 0⟩ "a+" = .ok ⟨.repeated (.char 'a') ⟨1, none, false⟩, #[0]⟩ := by cbv
  refine ⟨_, hread, fun hlimit => ?_⟩
  have hzero := (hlimit (.char 'a') ⟨1, none, false⟩ List.mem_cons_self).1
  exact absurd hzero (by decide)

end NumberedPattern

end Submatch
