import Mathlib
import Submatch.Proofs.Dfa.Bounds
import Submatch.Proofs.Dfa.Canonical
import Submatch.Proofs.Dfa.Session

/-!
# Stores of states

Whatever steps are built in whatever order, a store keeps `StateStore.Sound`: its frontiers are
those that a run can come to, canonically numbered (`Sound.perform`). So its states have different
contents, even up to the names of registers, and keep them (`performed_regular`).
-/

namespace Submatch

/-- What the content of a state looks like: threads on different nodes at rest, of which only the
last one may accept, with a cell for every tag, whose registers are numbered canonically and fit
into the working bank. -/
structure Frontier.Regular (A : Automaton) (f : Frontier) : Prop where
  nonempty : f.threads ≠ []
  nodup : (f.threads.map Thread.node).Nodup
  resting : ∀ t ∈ f.threads, ∃ node, A.nodes[t.node]? = some node ∧ node.isResting = true
  final : ∀ t ∈ f.threads.dropLast, t.node ≠ Automaton.final
  tags : ∀ t ∈ f.threads, t.cells.length = A.tagCount
  canonical : f.Canonical
  room : ∀ r ∈ f.registers, r < A.restingCount * A.tagCount

theorem Frontier.Sound.regular {A : Automaton} {f : Frontier} (hA : A.WellFormed)
    (h : f.Sound A) (hcanonical : f.Canonical) : f.Regular A where
  nonempty := h.nonempty
  nodup := h.nodup
  resting := h.resting
  final := by
    intro t ht hfinal
    obtain ⟨ranges, next, hn⟩ := h.waiting t ht
    rw [(hA.accept t.node).2 hfinal] at hn
    cases hn
  tags := fun t ht => (h.fits t ht).length
  canonical := hcanonical
  room := by
    intro r hr
    obtain ⟨t, ht, hcell⟩ := Frontier.mem_registers.1 hr
    exact (h.fits t ht).working r hcell

namespace StateStore

/-- A step of the deterministic automaton that may be asked for. -/
inductive Call where
  | start
  | expand (source : Nat) (symbol : InputSymbol)
  deriving DecidableEq, Repr

/-- Build a step and keep the store. -/
def perform (M : Machine) (s : StateStore) : Call → Except Fault StateStore
  | .start => do return (← s.start M).2
  | .expand source symbol => do return (← s.expand M source symbol).2

/-- The call names one of the first `states` states and a class of the alphabet, or the end. -/
def Call.InRange (M : Machine) (states : Nat) : Call → Prop
  | start => True
  | expand source symbol => source < states ∧ symbol.InRange M

/-- A store of frontiers that a run can come to, each under one number. -/
structure Sound (A : Automaton) (s : StateStore) : Prop where
  consistent : s.Consistent
  frontiers : ∀ f ∈ s.items, f.Sound A
  canonical : ∀ f ∈ s.items, f.Canonical

/-- What can be said of the states of a store: their contents are regular, the list of contents and
the index agree, and no two states have contents that differ in the names of registers alone. -/
structure Regular (A : Automaton) (s : StateStore) : Prop where
  frontiers : ∀ f ∈ s.items, f.Regular A
  indexed : ∀ f id, s.number? f = some id ↔ s.items[id]? = some f
  nodup : s.items.toList.Nodup
  distinct : ∀ (i j : Nat) f g, s.items[i]? = some f → s.items[j]? = some g →
    ∀ ρ : Nat → Nat, Set.InjOn ρ {r | r ∈ f.registers} → f.rename ρ = g → i = j

variable {A : Automaton} {s s' : StateStore} {call : Call}

theorem sound_empty (A : Automaton) : Sound A .empty where
  consistent := Numbering.consistent_empty
  frontiers := fun f hf => absurd hf (by simp [Numbering.empty])
  canonical := fun f hf => absurd hf (by simp [Numbering.empty])

theorem Sound.regular (hA : A.WellFormed) (h : s.Sound A) : s.Regular A where
  frontiers := fun f hf => (h.frontiers f hf).regular hA (h.canonical f hf)
  indexed := h.consistent
  nodup := h.consistent.nodup
  distinct := by
    intro i j f g hi hj ρ hρ hrename
    have hf := h.canonical f (Array.mem_of_getElem? hi)
    have hg := h.canonical g (Array.mem_of_getElem? hj)
    rw [← hrename] at hg
    have heq : g = f := hrename.symm.trans (hf.rename_eq hg hρ)
    rw [heq] at hj
    exact h.consistent.index_inj hi hj

/-- A frontier that is reached joins the store. -/
theorem Sound.record (h : s.Sound A) {e : Expansion}
    {goal : PlainRegisters → Nat → List Char → Option (List (List Nat))} (he : e.Tracks A goal)
    (hcanonical : ∀ f program, e = .reach f program → f.Canonical) :
    (s.record e).2.Sound A where
  consistent := consistent_record h.consistent e
  frontiers := sound_record h.frontiers he
  canonical := by
    intro f hf
    cases e with
    | dead => exact h.canonical f hf
    | reach g program =>
      rcases Numbering.mem_items_add hf with hf | rfl
      · exact h.canonical f hf
      · exact hcanonical _ program rfl

theorem Sound.start (hA : A.WellFormed) (h : s.Sound A) :
    ∃ built, s.start (.ofAutomaton A) = .ok built ∧ built.2.Sound A ∧ s.Extends built.2 := by
  obtain ⟨e, he, htracks⟩ := Frontier.initial_tracks hA
  refine ⟨s.record e, start_eq_ok he s, h.record htracks ?_, extends_record s e⟩
  intro f program hreach
  rw [hreach] at he
  exact Frontier.canonical_initial he

/-- The end of the text can be read in every state. -/
theorem exists_flush {f : Frontier} (hf : f.Sound A) :
    ∃ program, f.flush (.ofAutomaton A) = .ok program := by
  by_cases hreject : f.acceptance = .reject
  · refine ⟨none, ?_⟩
    unfold Frontier.flush
    rw [hreject]
    rfl
  · obtain ⟨program, hflush, -⟩ := Frontier.flush_accepted hf hreject
    exact ⟨some program, hflush⟩

/-- **A step can be built** from every state on every class and at the end of the text. -/
theorem Sound.expand (hA : A.WellFormed) (h : s.Sound A) {id : Nat} (hid : id < s.size)
    {symbol : InputSymbol} (hsymbol : symbol.InRange (.ofAutomaton A)) :
    ∃ built, s.expand (.ofAutomaton A) id symbol = .ok built ∧ built.2.Sound A ∧
      s.Extends built.2 := by
  have hget : s.items[id]? = some s.items[id] := Array.getElem?_eq_getElem hid
  have hsound := h.frontiers _ (Array.mem_of_getElem? hget)
  cases symbol with
  | letter index =>
    have hclass : (Machine.ofAutomaton A).alphabet.getClass index =
        .ok (Machine.ofAutomaton A).alphabet.classes[index] := by
      unfold Alphabet.getClass
      rw [Array.getElem?_eq_getElem hsymbol]
    obtain ⟨e, he, htracks⟩ := Frontier.advance_tracks hA hsound
      (Machine.ofAutomaton A).alphabet.classes[index].lo
    refine ⟨s.record e, expand_letter hget hclass he, h.record htracks ?_, extends_record s e⟩
    intro f program hreach
    rw [hreach] at he
    exact Frontier.canonical_advance he
  | ending =>
    obtain ⟨program, hflush⟩ := exists_flush hsound
    exact ⟨_, expand_ending (M := .ofAutomaton A) hget hflush, h, .refl s⟩

/-- A call succeeds exactly if what it names exists. -/
theorem Sound.perform_iff (hA : A.WellFormed) (h : s.Sound A) :
    (∃ s', s.perform (.ofAutomaton A) call = .ok s') ↔ call.InRange (.ofAutomaton A) s.size := by
  cases call with
  | start =>
    obtain ⟨built, hbuilt, -⟩ := h.start hA
    exact ⟨fun _ => trivial, fun _ => ⟨built.2, bind_eq_ok.2 ⟨built, hbuilt, rfl⟩⟩⟩
  | expand source symbol =>
    constructor
    · rintro ⟨s', hperform⟩
      obtain ⟨built, hbuilt, -⟩ := bind_eq_ok.1 hperform
      obtain ⟨hsource, hsymbol, -⟩ := inRange_expand hA h.consistent h.frontiers hbuilt
      exact ⟨hsource, hsymbol⟩
    · rintro ⟨hsource, hsymbol⟩
      obtain ⟨built, hbuilt, -⟩ := h.expand hA hsource hsymbol
      exact ⟨built.2, bind_eq_ok.2 ⟨built, hbuilt, rfl⟩⟩

/-- **Every call keeps the store sound**, and every number its content. -/
theorem Sound.perform (hA : A.WellFormed) (h : s.Sound A)
    (hperform : s.perform (.ofAutomaton A) call = .ok s') : s'.Sound A ∧ s.Extends s' := by
  have hrange := (h.perform_iff hA).1 ⟨s', hperform⟩
  cases call with
  | start =>
    obtain ⟨built, hbuilt, hkept⟩ := h.start hA
    obtain ⟨built', hbuilt', hs'⟩ := bind_eq_ok.1 hperform
    obtain rfl := Except.ok.inj (hbuilt.symm.trans hbuilt')
    cases hs'
    exact hkept
  | expand source symbol =>
    obtain ⟨built, hbuilt, hkept⟩ := h.expand hA hrange.1 hrange.2
    obtain ⟨built', hbuilt', hs'⟩ := bind_eq_ok.1 hperform
    obtain rfl := Except.ok.inj (hbuilt.symm.trans hbuilt')
    cases hs'
    exact hkept

theorem Sound.replay (hA : A.WellFormed) (h : s.Sound A) {calls : List Call}
    (hreplay : calls.foldlM (StateStore.perform (.ofAutomaton A)) s = .ok s') :
    s'.Sound A ∧ s.Extends s' := by
  have hstep : ∀ (t : StateStore) (call : Call) (t' : StateStore), t.Sound A ∧ s.Extends t →
      t.perform (.ofAutomaton A) call = .ok t' → t'.Sound A ∧ s.Extends t' := by
    intro t call t' ht hcall
    obtain ⟨hsound, hgrows⟩ := ht.1.perform hA hcall
    exact ⟨hsound, ht.2.trans hgrows⟩
  exact foldlM_keeps hstep ⟨h, .refl s⟩ hreplay

/-- **States have canonical contents.** After any calls that succeed the states are regular: no two
of them have the same content, not even up to the names of registers. A further call succeeds
exactly if the state and the class that it names exist, and whatever is called, every number keeps
its content. -/
theorem performed_regular (n : NumberedPattern) {calls : List Call}
    (h : calls.foldlM (perform (.ofPattern n)) .empty = .ok s) :
    s.Regular (.ofPattern n) ∧
      (∀ call, (∃ s', s.perform (.ofPattern n) call = .ok s') ↔
        call.InRange (.ofPattern n) s.size) ∧
      ∀ (more : List Call) (s' : StateStore),
        more.foldlM (perform (.ofPattern n)) s = .ok s' → s.Extends s' := by
  have hA := Automaton.wellFormed_ofPattern n
  have hs : s.Sound (.ofPattern n) := ((sound_empty _).replay hA h).1
  refine ⟨hs.regular hA, fun call => hs.perform_iff hA, fun more s' hmore => ?_⟩
  exact (hs.replay hA hmore).2

/-- A loop over a group, in which the third state is found again from the second one. -/
theorem performed_regular_loop : ∃ s : StateStore,
    [Call.start, .expand 0 (.letter 0), .expand 1 (.letter 0), .expand 2 (.letter 0)].foldlM
        (perform (.ofPattern ⟨.repeated (.group 1 (.char 'a')) ⟨1, none, false⟩, #[0, 0]⟩)) .empty =
      .ok s ∧ s.size = 3 ∧
        s.Regular (.ofPattern ⟨.repeated (.group 1 (.char 'a')) ⟨1, none, false⟩, #[0, 0]⟩) := by
  have hsize : (do return (← [Call.start, .expand 0 (.letter 0), .expand 1 (.letter 0),
      .expand 2 (.letter 0)].foldlM
      (perform (.ofPattern ⟨.repeated (.group 1 (.char 'a')) ⟨1, none, false⟩, #[0, 0]⟩))
        .empty).size) = Except.ok 3 := by
    cbv
  obtain ⟨s, hcalls, hthree⟩ := bind_eq_ok.1 hsize
  exact ⟨s, hcalls, Except.ok.inj hthree, (performed_regular _ hcalls).1⟩

end StateStore

end Submatch
