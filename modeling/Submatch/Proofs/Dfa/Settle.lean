import Submatch.Proofs.Dfa.Program
import Submatch.Proofs.Order.Numbering

/-!
# Threads that settle

A `Contender` is a thread with its histories written out. When threads arrive, their frontier
and its program make up threads that hold what the arriving ones bring, with the position on
top for every tag passed on the way (`settle_reaches`), cell by cell (`updates_threadOf`).
-/

namespace Submatch

/-- A thread with its histories, newest position first, in place of registers. -/
structure Contender where
  /-- The node on which the thread rests. -/
  node : Nat
  /-- For every tag the positions recorded. -/
  histories : List (List Nat)
  deriving DecidableEq

/-- A thread with what its registers hold. -/
def Thread.contender (layout : Layout) (slots : PlainRegisters) (t : Thread) : Contender :=
  ⟨t.node, t.cells.map (slots.cell layout)⟩

/-- The threads of a frontier with what their registers hold. -/
def Frontier.contenders (layout : Layout) (slots : PlainRegisters) (f : Frontier) :
    List Contender :=
  f.threads.map (Thread.contender layout slots)

/-- A thread that arrives, with the position recorded for every tag that it has passed. -/
def Arrival.contender (layout : Layout) (slots : PlainRegisters) (position : Nat)
    (a : Arrival (List (Option Nat))) : Contender :=
  ⟨a.node, a.origin.mapIdx fun index cell =>
    List.replicate (a.passed.count index) position ++ slots.cell layout cell⟩

/-- Cells that fit into a register file: one for every tag, each in the working bank. -/
structure Fits (layout : Layout) (cells : List (Option Nat)) : Prop where
  length : cells.length = layout.tags
  working : ∀ r, some r ∈ cells → r < layout.working

/-- A tag that is passed a number of times has its cell updated: the new cell is empty only if the
old one is and the tag is not passed, and it holds the position on top as often as the tag is. -/
structure Updates (layout : Layout) (before after : PlainRegisters) (position times : Nat)
    (source target : Option Nat) : Prop where
  none_iff : target = none ↔ source = none ∧ times = 0
  positions : after.cell layout target =
    List.replicate times position ++ before.cell layout source

namespace Frontier

variable {layout : Layout} {arrivals : List (Arrival (List (Option Nat)))} {f : Frontier}

theorem foldl_max_le_iff {l : List Nat} {start bound : Nat} :
    l.foldl max start ≤ bound ↔ start ≤ bound ∧ ∀ x ∈ l, x ≤ bound := by
  induction l generalizing start with
  | nil => simp
  | cons x l ih =>
    rw [List.foldl_cons, ih, Nat.max_le, List.forall_mem_cons, and_assoc]

/-- A bound on the registers in use. -/
theorem registerCount_le_iff {bound : Nat} :
    f.registerCount ≤ bound ↔ ∀ t ∈ f.threads, ∀ r, some r ∈ t.cells → r < bound := by
  unfold registerCount
  rw [foldl_max_le_iff, and_iff_right (Nat.zero_le bound)]
  constructor
  · intro h t ht r hr
    exact h _ (List.mem_flatMap.2 ⟨t, ht, List.mem_filterMap.2 ⟨some r, hr, rfl⟩⟩)
  · intro h x hx
    obtain ⟨t, ht, hx⟩ := List.mem_flatMap.1 hx
    obtain ⟨cell, hcell, hx⟩ := List.mem_filterMap.1 hx
    cases cell with
    | none => cases hx
    | some r =>
      cases hx
      exact h t ht r hcell

/-- A content that a landing holds comes from a cell that the thread has brought. -/
theorem register_of_mem_held {a : Arrival (List (Option Nat))} {content : Content}
    (h : content ∈ (Landing.ofArrival a).held) {r : Nat} (hr : r ∈ content.register?) :
    some r ∈ a.origin := by
  obtain ⟨held, hheld, heq⟩ := List.mem_filterMap.1 h
  obtain ⟨index, hlt, hget⟩ := List.mem_mapIdx.1 hheld
  cases hcell : a.origin[index] with
  | none =>
    rw [hcell] at hget
    subst heq
    cases hcount : a.passed.count index with
    | zero =>
      rw [hcount] at hget
      cases hget
    | succ n =>
      rw [hcount] at hget
      cases hget
      cases hr
  | some s =>
    rw [hcell] at hget
    subst heq
    cases hget
    cases hr
    rw [← hcell]
    exact List.getElem_mem hlt

theorem mem_values {content : Content}
    (h : content ∈ (values (arrivals.map Landing.ofArrival)).items.toList) :
    ∃ a ∈ arrivals, content ∈ (Landing.ofArrival a).held := by
  have hmem := Numbering.mem_of_mem_ofList (Array.mem_toList_iff.1 h)
  obtain ⟨l, hl, hcontent⟩ := List.mem_flatMap.1 hmem
  obtain ⟨a, ha, rfl⟩ := List.mem_map.1 hl
  exact ⟨a, ha, hcontent⟩

/-- The threads of a frontier are those of the arrivals. -/
theorem mem_threads_ofLandings {t : Thread}
    (ht : t ∈ (ofLandings (arrivals.map Landing.ofArrival)).threads) :
    ∃ a ∈ arrivals,
      t = threadOf (values (arrivals.map Landing.ofArrival)) (Landing.ofArrival a) := by
  obtain ⟨l, hl, rfl⟩ := List.mem_map.1 ht
  obtain ⟨a, ha, rfl⟩ := List.mem_map.1 hl
  exact ⟨a, ha, rfl⟩

/-- No thread holds more contents than there are tags. -/
theorem size_values_le (h : ∀ a ∈ arrivals, a.origin.length = layout.tags) :
    (values (arrivals.map Landing.ofArrival)).items.toList.length ≤
      arrivals.length * layout.tags := by
  refine Nat.le_trans (Numbering.size_ofList_le _) ?_
  rw [List.flatMap_map]
  induction arrivals with
  | nil => simp
  | cons a rest ih =>
    obtain ⟨ha, hrest⟩ := List.forall_mem_cons.1 h
    have hheld : (Landing.ofArrival a).held.length ≤ layout.tags := by
      have hle := List.length_filterMap_le (fun content => content) (Landing.ofArrival a).contents
      have hlen : (Landing.ofArrival a).contents.length = a.origin.length := List.length_mapIdx
      unfold Landing.held
      omega
    rw [List.flatMap_cons, List.length_append, List.length_cons, Nat.succ_mul]
    have := ih hrest
    omega

/-- Where everything that a thread holds has a register with its value, the cells are updated. -/
theorem updates_threadOf {a : Arrival (List (Option Nat))} {values : Numbering Content}
    {before after : PlainRegisters} {position : Nat}
    (hvalue : ∀ content ∈ (Landing.ofArrival a).held, ∃ r, values.number? content = some r ∧
      after.read (layout.tags + r) = content.value layout before position)
    {tag : Nat} {source : Option Nat} (hsource : a.origin[tag]? = some source) :
    ∃ target, (threadOf values (Landing.ofArrival a)).cells[tag]? = some target ∧
      Updates layout before after position (a.passed.count tag) source target := by
  have hcell : (threadOf values (Landing.ofArrival a)).cells[tag]? =
      some ((Content.of? source (a.passed.count tag)).bind values.number?) := by
    unfold threadOf Landing.ofArrival
    rw [List.getElem?_map, List.getElem?_mapIdx, hsource]
    rfl
  refine ⟨_, hcell, ?_⟩
  have hpositions := @Content.value_of? layout before position source (a.passed.count tag)
  have hempty := @Content.of?_eq_none source (a.passed.count tag)
  cases hcontent : Content.of? source (a.passed.count tag) with
  | none =>
    rw [hcontent] at hpositions hempty
    exact ⟨iff_of_true rfl (hempty.1 rfl), hpositions⟩
  | some content =>
    obtain ⟨hlt, hget⟩ := List.getElem?_eq_some_iff.1 hsource
    obtain ⟨r, hnumber, hread⟩ := hvalue content (List.mem_filterMap.2
      ⟨some content, List.mem_mapIdx.2 ⟨tag, hlt, by rw [hget, hcontent]⟩, rfl⟩)
    rw [hcontent] at hpositions hempty
    rw [Option.bind_some, hnumber]
    have hsome : ¬ (source = none ∧ a.passed.count tag = 0) := fun hnone => nomatch hempty.2 hnone
    exact ⟨iff_of_false nofun hsome, hread.trans hpositions⟩

/-- A thread with registers for all that it holds stands for the thread that arrives. -/
theorem contender_threadOf {a : Arrival (List (Option Nat))} {values : Numbering Content}
    {before after : PlainRegisters} {position : Nat}
    (hvalue : ∀ content ∈ (Landing.ofArrival a).held, ∃ r, values.number? content = some r ∧
      after.read (layout.tags + r) = content.value layout before position) :
    (threadOf values (Landing.ofArrival a)).contender layout after =
      a.contender layout before position := by
  unfold Thread.contender Arrival.contender
  simp only [Contender.mk.injEq]
  refine ⟨rfl, List.ext_getElem? fun tag => ?_⟩
  rw [List.getElem?_map, List.getElem?_mapIdx]
  cases hsource : a.origin[tag]? with
  | none =>
    unfold threadOf Landing.ofArrival
    rw [List.getElem?_map, List.getElem?_mapIdx, hsource]
    rfl
  | some source =>
    obtain ⟨target, htarget, hupdates⟩ := updates_threadOf hvalue hsource
    rw [htarget]
    exact congrArg some hupdates.positions

/-- The cells of the new threads are numbers of contents, so there is room for them. -/
theorem fits_threadOf {a : Arrival (List (Option Nat))} (h : a.origin.length = layout.tags)
    {contents : List Content}
    (hroom : (Numbering.ofList contents).items.toList.length ≤ layout.working) :
    Fits layout (threadOf (.ofList contents) (Landing.ofArrival a)).cells := by
  refine ⟨?_, fun r hr => ?_⟩
  · unfold threadOf Landing.ofArrival
    rw [List.length_map, List.length_mapIdx, h]
  · obtain ⟨content, -, hnumber⟩ := List.mem_map.1 hr
    cases content with
    | none => cases hnumber
    | some content =>
      have hitem := (Numbering.consistent_ofList _ content r).1 hnumber
      obtain ⟨hlt, -⟩ := Array.getElem?_eq_some_iff.1 hitem
      exact Nat.lt_of_lt_of_le hlt hroom

/-- Threads that are few enough hold contents that fit into the working bank. -/
theorem size_values_le_working (hfew : arrivals.length * layout.tags ≤ layout.working)
    (hfits : ∀ a ∈ arrivals, Fits layout a.origin) :
    (values (arrivals.map Landing.ofArrival)).items.toList.length ≤ layout.working :=
  Nat.le_trans (size_values_le fun a ha => (hfits a ha).length) hfew

/-- The contents are built on registers of the working bank. -/
theorem register_lt_working (hfits : ∀ a ∈ arrivals, Fits layout a.origin) :
    ∀ content ∈ (values (arrivals.map Landing.ofArrival)).items.toList,
      ∀ r ∈ content.register?, r < layout.working := by
  intro content hcontent r hr
  obtain ⟨a, ha, hheld⟩ := mem_values hcontent
  exact (hfits a ha).working r (register_of_mem_held hheld hr)

/-- Threads that fit into the file, and are few enough for the working bank, settle. -/
theorem settle_eq_ok {previous : Nat} (hne : arrivals ≠ [])
    (hfew : arrivals.length * layout.tags ≤ layout.working)
    (hfits : ∀ a ∈ arrivals, Fits layout a.origin) (hp : previous ≤ layout.working) :
    settle layout arrivals previous = .ok (.reach (ofLandings (arrivals.map Landing.ofArrival))
      (placedProgram layout (values (arrivals.map Landing.ofArrival)).items.toList previous)) := by
  have hprogram := program_eq_ok (size_values_le_working hfew hfits) hp (register_lt_working hfits)
  unfold settle
  rw [if_neg (by simpa using hne)]
  simp only [hprogram]
  rfl

/-- Every content that a thread holds has a number, and the program fills the register of that
number. -/
theorem exists_filled (hfew : arrivals.length * layout.tags ≤ layout.working)
    (hfits : ∀ a ∈ arrivals, Fits layout a.origin) {slots : PlainRegisters}
    (hlen : slots.length = layout.slots) (previous position : Nat)
    {a : Arrival (List (Option Nat))} (ha : a ∈ arrivals) :
    ∀ content ∈ (Landing.ofArrival a).held, ∃ r,
      (values (arrivals.map Landing.ofArrival)).number? content = some r ∧
        (slots.execute (placedProgram layout
          (values (arrivals.map Landing.ofArrival)).items.toList previous) position).read
            (layout.tags + r) = content.value layout slots position := by
  intro content hcontent
  obtain ⟨r, hnumber, hitem⟩ := Numbering.exists_number_ofList
    (List.mem_flatMap.2 ⟨_, List.mem_map_of_mem ha, hcontent⟩)
  exact ⟨r, hnumber, read_execute_program (size_values_le_working hfew hfits) hlen
    ((Array.getElem?_toList ..).trans hitem)⟩

/-- **Arriving threads settle.** Threads that fit into the file, and are few enough for the
working bank, make up a frontier and a program that brings the registers along. -/
theorem settle_reaches {previous : Nat} (hne : arrivals ≠ [])
    (hfew : arrivals.length * layout.tags ≤ layout.working)
    (hfits : ∀ a ∈ arrivals, Fits layout a.origin) (hp : previous ≤ layout.working) :
    ∃ f program, settle layout arrivals previous = .ok (.reach f program) ∧
      f.threads.map Thread.node = arrivals.map Arrival.node ∧
      (∀ t ∈ f.threads, Fits layout t.cells) ∧
      (∀ i ∈ program, i.Within layout.slots) ∧
      ∀ (slots : PlainRegisters) (position : Nat), slots.length = layout.slots →
        f.contenders layout (slots.execute program position) =
          arrivals.map (Arrival.contender layout slots position) := by
  have hroom := size_values_le_working hfew hfits
  refine ⟨_, _, settle_eq_ok hne hfew hfits hp, ?_, ?_,
    within_placedProgram hroom hp (register_lt_working hfits), fun slots position hlen => ?_⟩
  · unfold ofLandings
    rw [List.map_map, List.map_map]
    rfl
  · intro t ht
    obtain ⟨a, ha, rfl⟩ := mem_threads_ofLandings ht
    exact fits_threadOf (hfits a ha).length hroom
  · unfold contenders ofLandings
    rw [List.map_map, List.map_map]
    exact List.map_congr_left fun a ha =>
      contender_threadOf (exists_filled hfew hfits hlen previous position ha)

end Frontier

end Submatch
