import Submatch.Dfa.Run
import Submatch.Proofs.Dfa.Frontier
import Submatch.Proofs.Dfa.Table
import Submatch.Proofs.Fault
import Submatch.Proofs.Symbols.Alphabet

/-!
# What a cache says is what would be built

States are numbered in the order in which texts have led to them, and transitions found early
are used long after. In a valid cache every transition is the one that building it anew would
give, and building it would add nothing (`Cache.Valid`). So it does not matter what is found in
the cache: `step_valid` and `start_valid` say the same either way. Packing the table keeps a
cache valid (`Cache.Valid.pack`).
-/

namespace Submatch

variable {A : Automaton} {M : Machine}

namespace StateStore

variable {s s' t : StateStore}

/-- What a store records, any later store records in the same way. -/
theorem record_later (hs : s.Consistent) (e : Expansion) (ht : t.Consistent)
    (h : (s.record e).2.Extends t) : t.record e = ((s.record e).1, t) := by
  cases e with
  | dead => rfl
  | reach f program =>
    have hitem := h _ _ (hs.getElem?_add_self f)
    have hadd : t.add f = ((s.add f).1, t) := ht.add_of_mem hitem
    unfold record
    simp only [hadd]

theorem consistent_record (hs : s.Consistent) (e : Expansion) : (s.record e).2.Consistent := by
  cases e with
  | dead => exact hs
  | reach f program => exact hs.add f

theorem extends_record (s : StateStore) (e : Expansion) : s.Extends (s.record e).2 := by
  cases e with
  | dead => exact .refl s
  | reach f program => exact Numbering.extends_add s f

/-- The frontiers of a store and the one that is recorded. -/
theorem sound_record (hs : ∀ f ∈ s.items, f.Sound A) {e : Expansion}
    {goal : PlainRegisters → Nat → List Char → Option (List (List Nat))} (he : e.Tracks A goal) :
    ∀ f ∈ (s.record e).2.items, f.Sound A := by
  cases e with
  | dead => exact hs
  | reach g program =>
    intro f hf
    rcases Numbering.mem_items_add hf with hf | rfl
    · exact hs f hf
    · exact he.1

/-- Building a transition keeps the numbers given before, and building it again later gives the
same transition and changes nothing. -/
structure Stable (build : StateStore → Except Fault (Transition × StateStore)) (s : StateStore)
    (transition : Transition) (s' : StateStore) : Prop where
  consistent : s'.Consistent
  grows : s.Extends s'
  later : ∀ t : StateStore, t.Consistent → s'.Extends t → build t = .ok (transition, t)

theorem getFrontier_eq_ok {id : Nat} {f : Frontier} :
    s.getFrontier id = .ok f ↔ s.items[id]? = some f := by
  unfold getFrontier
  cases s.items[id]? <;> simp

theorem start_eq_ok {e : Expansion} (he : Frontier.initial M.automaton M.layout = .ok e)
    (s : StateStore) : s.start M = .ok (s.record e) := by
  unfold start
  rw [he]
  rfl

theorem expand_letter {id index : Nat} {f : Frontier} (hf : s.items[id]? = some f)
    {r : SymbolRange} (hr : M.alphabet.getClass index = .ok r) {e : Expansion}
    (he : f.advance M.automaton M.layout r.lo = .ok e) :
    s.expand M id (.letter index) = .ok (s.record e) := by
  unfold expand
  rw [getFrontier_eq_ok.2 hf]
  simp only [bind, Except.bind, hr, he]
  rfl

/-- The transition at the end of the text. -/
def endingTransition (id : Nat) (f : Frontier) : Option (List Instruction) → Transition
  | some program => ⟨.state id f.acceptance, program⟩
  | none => .dead

theorem expand_ending {id : Nat} {f : Frontier} (hf : s.items[id]? = some f)
    {program : Option (List Instruction)} (hflush : f.flush M.layout = .ok program) :
    s.expand M id .ending = .ok (endingTransition id f program, s) := by
  unfold expand
  rw [getFrontier_eq_ok.2 hf]
  simp only [bind, Except.bind, hflush]
  cases program <;> rfl

/-- What a step consists of: the content of the state, and what is built from it. -/
inductive Expands (M : Machine) (s : StateStore) (id : Nat) :
    InputSymbol → Transition → StateStore → Prop where
  | letter {f : Frontier} {r : SymbolRange} {e : Expansion} {index : Nat}
      (content : s.items[id]? = some f) (range : M.alphabet.getClass index = .ok r)
      (advance : f.advance M.automaton M.layout r.lo = .ok e) :
      Expands M s id (.letter index) (s.record e).1 (s.record e).2
  | ending {f : Frontier} {program : Option (List Instruction)}
      (content : s.items[id]? = some f) (flush : f.flush M.layout = .ok program) :
      Expands M s id .ending (endingTransition id f program) s

theorem expand_iff {id : Nat} {symbol : InputSymbol} {transition : Transition} :
    s.expand M id symbol = .ok (transition, s') ↔ Expands M s id symbol transition s' := by
  constructor
  · intro h
    obtain ⟨f, hget, hbuild⟩ := bind_eq_ok.1 h
    have hf := getFrontier_eq_ok.1 hget
    cases symbol with
    | letter index =>
      obtain ⟨r, hr, hbuild⟩ := bind_eq_ok.1 hbuild
      obtain ⟨e, he, hrecord⟩ := bind_eq_ok.1 hbuild
      obtain ⟨rfl, rfl⟩ := Prod.ext_iff.1 (Except.ok.inj hrecord)
      exact .letter hf hr he
    | ending =>
      obtain ⟨program, hflush, -⟩ := bind_eq_ok.1 hbuild
      rw [expand_ending hf hflush] at h
      cases h
      exact .ending hf hflush
  · intro h
    cases h with
    | letter hf hr he => exact expand_letter hf hr he
    | ending hf hflush => exact expand_ending hf hflush

theorem stable_record (hs : s.Consistent) {e : Expansion}
    {build : StateStore → Except Fault (Transition × StateStore)}
    (hbuild : ∀ t : StateStore, s.Extends t → build t = .ok (t.record e)) :
    Stable build s (s.record e).1 (s.record e).2 := by
  refine ⟨consistent_record hs e, extends_record s e, fun t ht h => ?_⟩
  rw [hbuild t ((extends_record s e).trans h), record_later hs e ht h]

theorem stable_start (hs : s.Consistent) {transition : Transition}
    (h : s.start M = .ok (transition, s')) : Stable (start M) s transition s' := by
  obtain ⟨e, he, hrecord⟩ := bind_eq_ok.1 h
  have hstable := stable_record hs fun t _ => start_eq_ok he t
  rw [Except.ok.inj hrecord] at hstable
  exact hstable

/-- Whatever can be built of a transition, it is built from the content of the state alone. -/
theorem stable_expand (hs : s.Consistent) {id : Nat} {symbol : InputSymbol}
    {transition : Transition} (h : s.expand M id symbol = .ok (transition, s')) :
    Stable (expand M · id symbol) s transition s' := by
  -- a later store has the same content in the state
  cases expand_iff.1 h with
  | letter hf hr he => exact stable_record hs fun t ht => expand_letter (ht _ _ hf) hr he
  | ending hf hflush => exact ⟨hs, .refl s, fun t _ ht => expand_ending (ht _ _ hf) hflush⟩

end StateStore

/-- Every transition of the cache is the one that would be built, from sound states, and
building it would change nothing. -/
structure Cache.Valid (A : Automaton) (c : Cache) : Prop where
  consistent : c.states.Consistent
  sound : ∀ f ∈ c.states.items, f.Sound A
  table : c.table.Valid
  start : ∀ transition, c.start = some transition →
    c.states.start (.ofAutomaton A) = .ok (transition, c.states)
  steps : ∀ key transition, c.table.lookup key = some transition →
    c.states.expand (.ofAutomaton A) key.state key.symbol = .ok (transition, c.states)

theorem Cache.valid_empty (A : Automaton) : Cache.empty.Valid A where
  consistent := Numbering.consistent_empty
  sound := fun f hf => absurd hf (by simp [Cache.empty, Numbering.empty])
  table := TransitionTable.valid_empty
  start := nofun
  steps := fun key transition h => by
    have hnone : Cache.empty.table.lookup key = none := TransitionTable.lookup_empty key
    rw [hnone] at h
    cases h

/-- **Packing keeps a cache valid.** -/
theorem Cache.Valid.pack {c : Cache} (h : c.Valid A) : c.pack.Valid A where
  consistent := h.consistent
  sound := h.sound
  table := h.table.pack
  start := h.start
  steps := fun key transition hlook =>
    h.steps key transition (by rwa [← TransitionTable.lookup_pack h.table])

namespace Session

variable {s : Session}

/-- **A step from the cache is a step built anew.** Either way the cache stays valid and the
states only grow. -/
theorem step_valid (hs : s.cache.Valid A) {id : Nat} {symbol : InputSymbol}
    {built : Transition × StateStore}
    (hbuild : s.cache.states.expand (.ofAutomaton A) id symbol = .ok built)
    (hsound : ∀ f ∈ built.2.items, f.Sound A) :
    ∃ s', s.step (.ofAutomaton A) id symbol = .ok (built.1, s') ∧ s'.cache.Valid A ∧
      s'.cache.states = built.2 := by
  obtain ⟨transition, states⟩ := built
  have hstable := StateStore.stable_expand hs.consistent hbuild
  unfold step
  cases hlook : s.cache.table.lookup ⟨id, symbol⟩ with
  | some cached =>
    have hcached := hs.steps _ _ hlook
    rw [hbuild] at hcached
    cases hcached
    exact ⟨s, rfl, hs, rfl⟩
  | none =>
    simp only [hbuild]
    -- the transitions found before were built from fewer states, and are stable
    refine ⟨_, rfl, ⟨hstable.consistent, hsound, hs.table.insert hlook _, ?_, ?_⟩, rfl⟩
    · intro first hfirst
      exact (StateStore.stable_start hs.consistent (hs.start first hfirst)).later _
        hstable.consistent hstable.grows
    · intro key other hother
      rw [TransitionTable.lookup_insert hlook] at hother
      split at hother
      next hkey =>
        cases hother
        subst hkey
        exact hstable.later _ hstable.consistent (.refl _)
      next =>
        exact (StateStore.stable_expand hs.consistent (hs.steps key other hother)).later _
          hstable.consistent hstable.grows

/-- **A start from the cache is a start built anew.** -/
theorem start_valid (hs : s.cache.Valid A) {built : Transition × StateStore}
    (hbuild : s.cache.states.start (.ofAutomaton A) = .ok built)
    (hsound : ∀ f ∈ built.2.items, f.Sound A) :
    ∃ s', s.start (.ofAutomaton A) = .ok (built.1, s') ∧ s'.cache.Valid A ∧
      s'.cache.states = built.2 := by
  obtain ⟨transition, states⟩ := built
  have hstable := StateStore.stable_start hs.consistent hbuild
  unfold start
  cases hstart : s.cache.start with
  | some cached =>
    have hcached := hs.start _ hstart
    rw [hbuild] at hcached
    cases hcached
    exact ⟨s, rfl, hs, rfl⟩
  | none =>
    simp only [hbuild]
    refine ⟨_, rfl, ⟨hstable.consistent, hsound, hs.table, ?_, ?_⟩, rfl⟩
    · intro first hfirst
      cases hfirst
      exact hstable.later _ hstable.consistent (.refl _)
    · intro key other hother
      exact (StateStore.stable_expand hs.consistent (hs.steps key other hother)).later _
        hstable.consistent hstable.grows

end Session

end Submatch
