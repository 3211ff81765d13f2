import Submatch.Proofs.Dfa.Run

/-!
# Numbers in range

Nodes, states, classes and registers are known by their numbers. Whatever number a valid cache
holds is in range (`Cache.Valid.inRange`): the states that transitions leave and reach have been
built, the classes that they read belong to the alphabet, the threads of a state rest on nodes of
the automaton, and the registers that states and programs name lie in the banks of the layout.
-/

namespace Submatch

/-- The threads of a frontier rest on nodes that exist, and hold for every tag a register of the
working bank or none. -/
structure Frontier.InRange (M : Machine) (f : Frontier) : Prop where
  node : ∀ t ∈ f.threads, t.node < M.automaton.nodes.size
  tags : ∀ t ∈ f.threads, t.cells.length = M.automaton.tagCount
  register : ∀ t ∈ f.threads, ∀ r, some r ∈ t.cells →
    r < M.automaton.restingCount * M.automaton.tagCount

/-- The class that a symbol stands for belongs to the alphabet. -/
def InputSymbol.InRange (M : Machine) : InputSymbol → Prop
  | letter index => index < M.alphabet.size
  | ending => True

/-- A transition reaches one of the first `states` states, if any, and names registers that
exist. -/
structure Transition.InRange (M : Machine) (states : Nat) (t : Transition) : Prop where
  target : ∀ id acceptance, t.target = .state id acceptance → id < states
  registers : ∀ i ∈ t.program, i.Within M.layout.slots

/-- Every number in a cache is in range. -/
structure Cache.InRange (M : Machine) (c : Cache) : Prop where
  states : ∀ f ∈ c.states.items, f.InRange M
  start : ∀ transition, c.start = some transition → transition.InRange M c.states.size
  source : ∀ key transition, c.table.lookup key = some transition → key.state < c.states.size
  symbol : ∀ key transition, c.table.lookup key = some transition → key.symbol.InRange M
  steps : ∀ key transition, c.table.lookup key = some transition →
    transition.InRange M c.states.size

variable {A : Automaton} {M : Machine} {states : Nat}

theorem Frontier.Sound.inRange {f : Frontier} (h : f.Sound A) : f.InRange (.ofAutomaton A) where
  node := by
    intro t ht
    obtain ⟨node, hnode, -⟩ := h.resting t ht
    exact (Array.getElem?_eq_some_iff.1 hnode).1
  tags := fun t ht => (h.fits t ht).length
  register := fun t ht => (h.fits t ht).working

theorem Transition.inRange_dead : Transition.dead.InRange M states :=
  ⟨nofun, nofun⟩

namespace StateStore

variable {s : StateStore}

theorem lt_size_of_getElem? {id : Nat} {f : Frontier} (h : s.items[id]? = some f) :
    id < s.size :=
  (Array.getElem?_eq_some_iff.1 h).1

/-- A transition leads to a frontier that has just been numbered. -/
theorem inRange_record (hs : s.Consistent) {e : Expansion}
    {goal : PlainRegisters → Nat → List Char → Option (List (List Nat))} (he : e.Tracks A goal) :
    (s.record e).1.InRange (.ofAutomaton A) (s.record e).2.size := by
  cases e with
  | dead => exact Transition.inRange_dead
  | reach f program =>
    have hlt : (s.add f).1 < (s.add f).2.size := lt_size_of_getElem? (hs.getElem?_add_self f)
    obtain ⟨-, hwithin, -⟩ := he
    refine ⟨fun id acceptance hid => ?_, hwithin⟩
    cases hid
    exact hlt

theorem inRange_start (hA : A.WellFormed) (hs : s.Consistent) {transition : Transition}
    {s' : StateStore} (h : s.start (.ofAutomaton A) = .ok (transition, s')) :
    transition.InRange (.ofAutomaton A) s'.size := by
  obtain ⟨e, he, htracks⟩ := Frontier.initial_tracks hA
  rw [start_eq_ok he] at h
  have hrange := inRange_record hs htracks
  rwa [Except.ok.inj h] at hrange

/-- A transition leaves a state that has been built, on a class of the alphabet or at the end of
the text, for a state that has been built. -/
theorem inRange_expand (hA : A.WellFormed) (hs : s.Consistent)
    (hsound : ∀ f ∈ s.items, f.Sound A) {id : Nat} {symbol : InputSymbol}
    {transition : Transition} {s' : StateStore}
    (h : s.expand (.ofAutomaton A) id symbol = .ok (transition, s')) :
    id < s.size ∧ symbol.InRange (.ofAutomaton A) ∧
      transition.InRange (.ofAutomaton A) s'.size := by
  cases expand_iff.1 h with
  | @letter f r e index hf hr he =>
    have hfsound := hsound f (Array.mem_of_getElem? hf)
    obtain ⟨e', he', htracks⟩ := Frontier.advance_tracks hA hfsound r.lo
    obtain rfl := Except.ok.inj (he.symm.trans he')
    refine ⟨lt_size_of_getElem? hf, ?_, inRange_record hs htracks⟩
    -- a class that was found is one of the alphabet
    unfold Alphabet.getClass at hr
    split at hr
    next r' hclass => exact (Array.getElem?_eq_some_iff.1 hclass).1
    next => cases hr
  | @ending f flushed hf hflush =>
    have hlt := lt_size_of_getElem? hf
    refine ⟨hlt, trivial, ?_⟩
    cases flushed with
    | none => exact Transition.inRange_dead
    | some program =>
      have hacceptance : f.acceptance ≠ .reject := by
        intro hreject
        unfold Frontier.flush at hflush
        rw [hreject] at hflush
        cases hflush
      obtain ⟨program', hflush', hwithin, -⟩ :=
        Frontier.flush_accepted (hsound f (Array.mem_of_getElem? hf)) hacceptance
      obtain rfl : program' = program :=
        Option.some.inj (Except.ok.inj (hflush'.symm.trans hflush))
      refine ⟨fun id' acceptance hid => ?_, hwithin⟩
      cases hid
      exact hlt

end StateStore

/-- **Every number in a valid cache is in range.** -/
theorem Cache.Valid.inRange (hA : A.WellFormed) {c : Cache} (h : c.Valid A) :
    c.InRange (.ofAutomaton A) := by
  have hstep := fun key transition hlook =>
    StateStore.inRange_expand hA h.consistent h.sound (h.steps key transition hlook)
  exact {
    states := fun f hf => (h.sound f hf).inRange
    start := fun transition hstart =>
      StateStore.inRange_start hA h.consistent (h.start transition hstart)
    source := fun key transition hlook => (hstep key transition hlook).1
    symbol := fun key transition hlook => (hstep key transition hlook).2.1
    steps := fun key transition hlook => (hstep key transition hlook).2.2 }

end Submatch
