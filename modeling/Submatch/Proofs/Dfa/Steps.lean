import Mathlib.Data.Finset.Dedup
import Submatch.Proofs.Dfa.Bounds
import Submatch.Proofs.Order.Appearance

/-!
# The steps of a text

Which steps of the deterministic automaton a text takes depends on the contents of states alone
(`Machine.steps`), whatever their numbers are and whatever has been built before. A cache that has
been used holds exactly the steps taken and the states that they reach (`Cache.Holds`): a step that
is taken for the first time is added (`Session.step_holds`), and packing keeps what there is.
-/

namespace Submatch

/-- The frontier that is reached, if there is one. -/
def Expansion.frontier? : Expansion → Option Frontier
  | dead => none
  | reach f _ => some f

namespace Machine

/-- A state, given by its content, and a symbol read in it. -/
abbrev Step := Frontier × InputSymbol

/-- The frontier before the first character. -/
def first? (M : Machine) : Option Frontier :=
  (Frontier.initial M.automaton M.layout).toOption.bind Expansion.frontier?

/-- The frontier that a step on a character reaches. At the end of the text none is reached. -/
def next? (M : Machine) : Step → Option Frontier
  | (f, .letter index) =>
    (do f.advance M.automaton M.layout (← M.alphabet.getClass index).lo).toOption.bind
      Expansion.frontier?
  | (_, .ending) => none

/-- The steps that reading on from a frontier takes, and the last accepting frontier that it comes
to, where `best` is the last one met before. -/
def walk (M : Machine) : (text : List Char) → (f : Frontier) → (best : Option Frontier) →
    List Step × Option Frontier
  | [], _, best => ([], best)
  | c :: rest, f, best =>
    match M.alphabet.classify c.toNat with
    | none => ([], best)
    | some index =>
      let (steps, last) :=
        match M.next? (f, .letter index) with
        | none => ([], best)
        | some g =>
          match g.acceptance with
          | .reject => M.walk rest g best
          | .candidate => M.walk rest g (some g)
          | .settled => ([], some g)
      ((f, .letter index) :: steps, last)

/-- What is walked from a frontier just reached, which becomes the last accepting one if it
accepts. -/
def arrive (M : Machine) (text : List Char) (f : Frontier) (best : Option Frontier) :
    List Step × Option Frontier :=
  match f.acceptance with
  | .reject => M.walk text f best
  | .candidate => M.walk text f (some f)
  | .settled => ([], some f)

/-- What is walked from the first state. -/
def search (M : Machine) (text : List Char) : List Step × Option Frontier :=
  match M.first? with
  | none => ([], none)
  | some f => M.arrive text f none

/-- The steps that a run on a text takes: those on characters, and the one at the end of the text
from the last accepting frontier. -/
def steps (M : Machine) (text : List Char) : List Step :=
  (M.search text).1 ++ (M.search text).2.toList.map fun g => (g, .ending)

/-- The different steps that runs on some texts take. -/
def stepsOf (M : Machine) (texts : List (List Char)) : Finset Step :=
  (texts.flatMap M.steps).toFinset

/-- The different states that runs on some texts come to. -/
def statesOf (M : Machine) (texts : List (List Char)) : Finset Frontier :=
  (texts.flatMap fun text => M.first?.toList ++ (M.steps text).filterMap M.next?).toFinset

variable {M : Machine} {texts texts' : List (List Char)} {c : Char} {rest : List Char}
  {f : Frontier} {best : Option Frontier}

theorem mem_stepsOf {p : Step} : p ∈ M.stepsOf texts ↔ ∃ text ∈ texts, p ∈ M.steps text := by
  rw [stepsOf, List.mem_toFinset, List.mem_flatMap]

theorem mem_statesOf :
    f ∈ M.statesOf texts ↔ (texts ≠ [] ∧ M.first? = some f) ∨
      ∃ p ∈ M.stepsOf texts, M.next? p = some f := by
  simp only [statesOf, List.mem_toFinset, List.mem_flatMap, List.mem_append, Option.mem_toList,
    List.mem_filterMap, mem_stepsOf]
  constructor
  · rintro ⟨text, htext, hfirst | ⟨p, hp, hnext⟩⟩
    · exact .inl ⟨List.ne_nil_of_mem htext, hfirst⟩
    · exact .inr ⟨p, ⟨text, htext, hp⟩, hnext⟩
  · rintro (⟨hne, hfirst⟩ | ⟨p, ⟨text, htext, hp⟩, hnext⟩)
    · obtain ⟨text, htext⟩ := List.exists_mem_of_ne_nil texts hne
      exact ⟨text, htext, .inl hfirst⟩
    · exact ⟨text, htext, .inr ⟨p, hp, hnext⟩⟩

theorem stepsOf_append (texts texts' : List (List Char)) :
    M.stepsOf (texts ++ texts') = M.stepsOf texts ∪ M.stepsOf texts' := by
  rw [stepsOf, List.flatMap_append, List.toFinset_append]
  rfl

theorem stepsOf_singleton (text : List Char) : M.stepsOf [text] = (M.steps text).toFinset := by
  rw [stepsOf, List.flatMap_singleton]

theorem stepsOf_subset (h : texts ⊆ texts') : M.stepsOf texts ⊆ M.stepsOf texts' := by
  intro p hp
  obtain ⟨text, htext, hstep⟩ := mem_stepsOf.1 hp
  exact mem_stepsOf.2 ⟨text, h htext, hstep⟩

theorem statesOf_subset (h : texts ⊆ texts') : M.statesOf texts ⊆ M.statesOf texts' := by
  intro f hf
  rcases mem_statesOf.1 hf with ⟨hne, hfirst⟩ | ⟨p, hp, hnext⟩
  · exact mem_statesOf.2 (.inl ⟨mt (fun hnil => List.subset_nil.1 (hnil ▸ h)) hne, hfirst⟩)
  · exact mem_statesOf.2 (.inr ⟨p, stepsOf_subset h hp, hnext⟩)

theorem walk_of_unread (h : M.alphabet.classify c.toNat = none) :
    M.walk (c :: rest) f best = ([], best) := by
  rw [walk, h]

theorem walk_of_dead {index : Nat} (h : M.alphabet.classify c.toNat = some index)
    (hnext : M.next? (f, .letter index) = none) :
    M.walk (c :: rest) f best = ([(f, .letter index)], best) := by
  rw [walk, h]
  simp only [hnext]

theorem walk_of_reach {index : Nat} {g : Frontier} (h : M.alphabet.classify c.toNat = some index)
    (hnext : M.next? (f, .letter index) = some g) :
    M.walk (c :: rest) f best =
      ((f, .letter index) :: (M.arrive rest g best).1, (M.arrive rest g best).2) := by
  rw [walk, h]
  simp only [hnext]
  rfl

end Machine

namespace StateStore

variable {A : Automaton} {M : Machine} {s s' : StateStore} {f : Frontier} {t : Transition}

/-- A transition leads to the frontier reached, if there is one, and the frontier has joined the
store. -/
structure Arrives (s : StateStore) (g : Option Frontier) (t : Transition) (s' : StateStore) :
    Prop where
  leads : match g with
    | none => t.target = .dead
    | some g => ∃ id, t.target = .state id g.acceptance ∧ s'.items[id]? = some g
  items : ∀ f, f ∈ s'.items ↔ f ∈ s.items ∨ g = some f

theorem arrives_record (hs : s.Consistent) (e : Expansion) :
    s.Arrives e.frontier? (s.record e).1 (s.record e).2 := by
  cases e with
  | dead => exact ⟨rfl, fun f => by simp [record, Expansion.frontier?]⟩
  | reach g program =>
    refine ⟨⟨_, rfl, hs.getElem?_add_self g⟩, fun f => ?_⟩
    have hmem : f ∈ (s.add g).2.items ↔ f ∈ s.items ∨ f = g := hs.mem_items_add
    rw [Expansion.frontier?, Option.some_inj, eq_comm (a := g)]
    exact hmem

theorem arrives_start (hs : s.Consistent) (h : s.start M = .ok (t, s')) :
    s.Arrives M.first? t s' := by
  obtain ⟨e, he, hrecord⟩ := bind_eq_ok.1 h
  have hfirst : M.first? = e.frontier? := by
    unfold Machine.first?
    rw [he]
    rfl
  have harrives := arrives_record hs e
  rw [Except.ok.inj hrecord] at harrives
  rw [hfirst]
  exact harrives

theorem arrives_letter (hs : s.Consistent) {id index : Nat} (hf : s.items[id]? = some f)
    (h : s.expand M id (.letter index) = .ok (t, s')) :
    s.Arrives (M.next? (f, .letter index)) t s' := by
  cases expand_iff.1 h with
  | @letter g r e _ hg hr he =>
    obtain rfl : g = f := Option.some.inj (hg.symm.trans hf)
    have hnext : M.next? (g, .letter index) = e.frontier? := by
      unfold Machine.next?
      simp only [hr, bind, Except.bind, he]
      rfl
    rw [hnext]
    exact arrives_record hs e

/-- A step adds the state that it reaches, and at the end of the text none is reached. -/
theorem mem_items_expand (hs : s.Consistent) {id : Nat} {symbol : InputSymbol}
    (hf : s.items[id]? = some f) (h : s.expand M id symbol = .ok (t, s')) {g : Frontier} :
    g ∈ s'.items ↔ g ∈ s.items ∨ M.next? (f, symbol) = some g := by
  cases symbol with
  | letter index => exact (arrives_letter hs hf h).items g
  | ending =>
    cases expand_iff.1 h
    rw [Machine.next?]
    exact (or_iff_left nofun).symm

theorem sound_start (hA : A.WellFormed) (hsound : ∀ f ∈ s.items, f.Sound A)
    (h : s.start (.ofAutomaton A) = .ok (t, s')) : ∀ f ∈ s'.items, f.Sound A := by
  obtain ⟨e, he, htracks⟩ := Frontier.initial_tracks hA
  rw [start_eq_ok he] at h
  have hrecord := sound_record hsound htracks
  rw [Except.ok.inj h] at hrecord
  exact hrecord

theorem sound_expand (hA : A.WellFormed) (hsound : ∀ f ∈ s.items, f.Sound A) {id : Nat}
    {symbol : InputSymbol} (h : s.expand (.ofAutomaton A) id symbol = .ok (t, s')) :
    ∀ f ∈ s'.items, f.Sound A := by
  cases expand_iff.1 h with
  | letter hf hr he =>
    obtain ⟨e', he', htracks⟩ := Frontier.advance_tracks hA (hsound _ (Array.mem_of_getElem? hf)) _
    obtain rfl := Except.ok.inj (he.symm.trans he')
    exact sound_record hsound htracks
  | ending => exact hsound

end StateStore

/-- The cache holds the transitions of the steps taken, and the one to the first state if `begun`;
and its states are those that these transitions reach. -/
structure Cache.Holds (A : Automaton) (c : Cache) (begun : Bool) (taken : Finset Machine.Step) :
    Prop where
  valid : c.Valid A
  start : c.start.isSome = begun
  source : ∀ p ∈ taken, p.1 ∈ c.states.items
  reached : ∀ f, f ∈ c.states.items ↔
    (begun = true ∧ (Machine.ofAutomaton A).first? = some f) ∨
      ∃ p ∈ taken, (Machine.ofAutomaton A).next? p = some f
  steps : ∀ id symbol, (c.table.lookup ⟨id, symbol⟩).isSome = true ↔
    ∃ f, c.states.items[id]? = some f ∧ (f, symbol) ∈ taken
  size : c.table.size = taken.card

variable {A : Automaton} {c : Cache} {begun : Bool} {taken : Finset Machine.Step}

theorem Cache.holds_empty (A : Automaton) : Cache.empty.Holds A false ∅ where
  valid := Cache.valid_empty A
  start := rfl
  source := fun p hp => absurd hp (Finset.notMem_empty p)
  reached := fun f => by simp [Cache.empty, Numbering.empty]
  steps := fun id symbol => by simp [Cache.empty, TransitionTable.lookup_empty]
  size := rfl

/-- **Packing neither drops nor doubles a transition.** -/
theorem Cache.Holds.pack (h : c.Holds A begun taken) : c.pack.Holds A begun taken where
  valid := h.valid.pack
  start := h.start
  source := h.source
  reached := h.reached
  steps := fun id symbol => by
    have hlookup : c.pack.table.lookup ⟨id, symbol⟩ = c.table.lookup ⟨id, symbol⟩ :=
      TransitionTable.lookup_pack h.valid.table _
    rw [hlookup]
    exact h.steps id symbol
  size := (TransitionTable.size_pack h.valid.table).trans h.size

/-- The table answers for the steps taken, also when there are more states. -/
theorem Cache.Holds.lookup_later (h : c.Holds A begun taken) {states : StateStore}
    (hgrows : c.states.Extends states) (hstates : states.Consistent) (id : Nat)
    (symbol : InputSymbol) :
    (c.table.lookup ⟨id, symbol⟩).isSome = true ↔
      ∃ f, states.items[id]? = some f ∧ (f, symbol) ∈ taken := by
  rw [h.steps]
  constructor
  · rintro ⟨f, hf, htaken⟩
    exact ⟨f, hgrows id f hf, htaken⟩
  · rintro ⟨f, hf, htaken⟩
    exact ⟨f, (hgrows.getElem?_iff hstates (h.source _ htaken)).1 hf, htaken⟩

/-- A table to which a transition has been added answers for its step as well, and for no other. -/
theorem Cache.Holds.lookup_insert (h : c.Holds A begun taken) {states : StateStore}
    (hgrows : c.states.Extends states) (hstates : states.Consistent) {id : Nat} {f : Frontier}
    (hf : c.states.items[id]? = some f) {symbol : InputSymbol}
    (hnew : c.table.lookup ⟨id, symbol⟩ = none) (t : Transition) (id' : Nat)
    (symbol' : InputSymbol) :
    ((c.table.insert ⟨id, symbol⟩ t).lookup ⟨id', symbol'⟩).isSome = true ↔
      ∃ g, states.items[id']? = some g ∧ (g, symbol') ∈ insert (f, symbol) taken := by
  rw [TransitionTable.lookup_insert hnew]
  by_cases hkey : (⟨id', symbol'⟩ : StepKey) = ⟨id, symbol⟩
  · obtain ⟨rfl, rfl⟩ : id' = id ∧ symbol' = symbol := by simpa using hkey
    rw [if_pos rfl]
    exact ⟨fun _ => ⟨f, hgrows _ _ hf, Finset.mem_insert_self ..⟩, fun _ => rfl⟩
  · rw [if_neg hkey, h.lookup_later hgrows hstates]
    refine exists_congr fun g => and_congr_right fun hg => ?_
    -- the step that is added has one key only
    have hne : (g, symbol') ≠ (f, symbol) := by
      intro heq
      obtain ⟨rfl, rfl⟩ : g = f ∧ symbol' = symbol := by simpa using heq
      obtain rfl : id' = id := hstates.index_inj hg (hgrows _ _ hf)
      exact hkey rfl
    rw [Finset.mem_insert, or_iff_right hne]

namespace Session

variable {s s' : Session} {t : Transition} {before : Nat}

/-- The start is taken from the cache, or else built and kept there. -/
theorem start_eq_ok (h : s.start (.ofAutomaton A) = .ok (t, s')) (hs : s.cache.Valid A) :
    s.cache.states.start (.ofAutomaton A) = .ok (t, s'.cache.states) ∧
      s'.cache.table = s.cache.table ∧
      ((s.cache.start.isSome = true ∧ s' = s) ∨
        s.cache.start = none ∧ s'.cache.start = some t ∧ s'.built = s.built + 1) := by
  unfold start at h
  split at h
  next transition hsome =>
    cases h
    exact ⟨hs.start t hsome, rfl, .inl ⟨by rw [hsome]; rfl, rfl⟩⟩
  next hnone =>
    obtain ⟨⟨transition, states⟩, hbuild, hrest⟩ := bind_eq_ok.1 h
    cases hrest
    exact ⟨hbuild, rfl, .inr ⟨hnone, rfl, rfl⟩⟩

/-- A step is taken from the cache, or else built and kept there. -/
theorem step_eq_ok {id : Nat} {symbol : InputSymbol}
    (h : s.step (.ofAutomaton A) id symbol = .ok (t, s')) (hs : s.cache.Valid A) :
    s.cache.states.expand (.ofAutomaton A) id symbol = .ok (t, s'.cache.states) ∧
      s'.cache.start = s.cache.start ∧
      (((s.cache.table.lookup ⟨id, symbol⟩).isSome = true ∧ s' = s) ∨
        s.cache.table.lookup ⟨id, symbol⟩ = none ∧
          s'.cache.table = s.cache.table.insert ⟨id, symbol⟩ t ∧ s'.built = s.built + 1) := by
  unfold step at h
  split at h
  next transition hsome =>
    cases h
    exact ⟨hs.steps _ t hsome, rfl, .inl ⟨by rw [hsome]; rfl, rfl⟩⟩
  next hnone =>
    obtain ⟨⟨transition, states⟩, hbuild, hrest⟩ := bind_eq_ok.1 h
    cases hrest
    exact ⟨hbuild, rfl, .inr ⟨hnone, rfl, rfl⟩⟩

/-- The cache holds what has been taken, and a session that found `before` transitions there has
built the others. -/
structure Holds (A : Automaton) (before : Nat) (s : Session) (begun : Bool)
    (taken : Finset Machine.Step) : Prop where
  cache : s.cache.Holds A begun taken
  built : s.built + before = s.cache.table.size + begun.toNat

/-- **The first state is built once.** -/
theorem start_holds (hA : A.WellFormed) (h : s.Holds A before begun taken)
    (hstart : s.start (.ofAutomaton A) = .ok (t, s')) :
    s'.Holds A before true taken ∧
      s.cache.states.Arrives (Machine.ofAutomaton A).first? t s'.cache.states := by
  have hvalid := h.cache.valid
  obtain ⟨hbuild, htable, hcase⟩ := start_eq_ok hstart hvalid
  have hstable := StateStore.stable_start hvalid.consistent hbuild
  have harrives := StateStore.arrives_start hvalid.consistent hbuild
  refine ⟨?_, harrives⟩
  rcases hcase with ⟨hsome, rfl⟩ | ⟨hnone, hstart', hbuilt⟩
  · have hbegun : begun = true := h.cache.start.symm.trans hsome
    rw [← hbegun]
    exact h
  · have hbegun : begun = false := by
      rw [← h.cache.start, hnone]
      rfl
    subst hbegun
    obtain ⟨s'', hstart'', hvalid', -⟩ :=
      start_valid hvalid hbuild (StateStore.sound_start hA hvalid.sound hbuild)
    obtain rfl : s'' = s' := congrArg Prod.snd (Except.ok.inj (hstart''.symm.trans hstart))
    refine ⟨⟨hvalid', by rw [hstart']; rfl, ?_, fun f => ?_, fun id symbol => ?_, ?_⟩, ?_⟩
    · exact fun p hp => hstable.grows.mem (h.cache.source p hp)
    · rw [harrives.items, h.cache.reached]
      simp [or_comm]
    · rw [htable]
      exact h.cache.lookup_later hstable.grows hstable.consistent id symbol
    · rw [htable]
      exact h.cache.size
    · have hbefore := h.built
      rw [hbuilt, htable]
      simp only [Bool.toNat_false, Bool.toNat_true] at *
      omega

/-- **A step is built once.** It is one of those taken from then on. -/
theorem step_holds (hA : A.WellFormed) (h : s.Holds A before begun taken) {id : Nat} {f : Frontier}
    (hf : s.cache.states.items[id]? = some f) {symbol : InputSymbol}
    (hstep : s.step (.ofAutomaton A) id symbol = .ok (t, s')) :
    s'.Holds A before begun (insert (f, symbol) taken) ∧
      s.cache.states.expand (.ofAutomaton A) id symbol = .ok (t, s'.cache.states) := by
  have hvalid := h.cache.valid
  obtain ⟨hbuild, hstart, hcase⟩ := step_eq_ok hstep hvalid
  have hstable := StateStore.stable_expand hvalid.consistent hbuild
  refine ⟨?_, hbuild⟩
  rcases hcase with ⟨hsome, rfl⟩ | ⟨hnone, htable, hbuilt⟩
  · obtain ⟨g, hg, htaken⟩ := (h.cache.steps id symbol).1 hsome
    obtain rfl : f = g := Option.some.inj (hf.symm.trans hg)
    rw [Finset.insert_eq_of_mem htaken]
    exact h
  · have hnew : (f, symbol) ∉ taken := by
      intro htaken
      have hsome := (h.cache.steps id symbol).2 ⟨f, hf, htaken⟩
      rw [hnone] at hsome
      cases hsome
    have hsize : s'.cache.table.size = s.cache.table.size + 1 := by
      rw [htable]
      exact TransitionTable.size_insert hnone t
    obtain ⟨s'', hstep'', hvalid', -⟩ :=
      step_valid hvalid hbuild (StateStore.sound_expand hA hvalid.sound hbuild)
    obtain rfl : s'' = s' := congrArg Prod.snd (Except.ok.inj (hstep''.symm.trans hstep))
    refine ⟨⟨hvalid', ?_, ?_, fun g => ?_, fun id' symbol' => ?_, ?_⟩, ?_⟩
    · rw [hstart]
      exact h.cache.start
    · intro p hp
      refine hstable.grows.mem ?_
      rcases Finset.mem_insert.1 hp with rfl | hp
      · exact Array.mem_of_getElem? hf
      · exact h.cache.source p hp
    · rw [StateStore.mem_items_expand hvalid.consistent hf hbuild, h.cache.reached,
        Finset.exists_mem_insert, or_assoc, or_comm (b := _ = some g)]
    · rw [htable]
      exact h.cache.lookup_insert hstable.grows hstable.consistent hf hnone t id' symbol'
    · rw [hsize, h.cache.size, Finset.card_insert_of_notMem hnew]
    · have hbefore := h.built
      rw [hbuilt, hsize]
      omega

end Session

end Submatch
