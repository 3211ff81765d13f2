import Submatch.Proofs.Automaton.Builder
import Submatch.Proofs.Dfa.Bounds
import Submatch.Proofs.Matcher.Spans
import Submatch.Proofs.Pattern.Bracket
import Submatch.Proofs.Symbols.Coverage

/-!
# No check fails

A check of the engine that does not hold is a `Fault`. None occurs, whatever is called and
whenever the table is packed: the builder leaves no placeholder behind and the sweep over the
ranges meets no empty one, so compiling makes a machine whose parts fit together
(`Machine.Linked`), every number in the cache stays in range (`Cache.InRange`), and the histories
that are handed on pair up (`Matcher.act_safe`).
-/

namespace Submatch

/-- No range descends in the complement of a bracket class. -/
theorem Bracket.complement?_union (b : Bracket) :
    RangeSet.complement? b.union = .ok (RangeSet.complement b.union) :=
  RangeSet.complement?_eq_ok b.proper_union.inDomain

/-- Whether the current position is recorded. -/
def MoveSource.records : MoveSource → Bool
  | kept _ => false
  | extended _ | fresh => true

/-- A move reads the register that its thread held for the tag, if it held one, and records the
position if the thread has passed the tag. -/
theorem Content.source_of? {layout : Layout} {cell : Option Nat} {times : Nat} {content : Content}
    {source : MoveSource} (h : Content.of? cell times = some content)
    (hsource : content.source layout = .ok source) :
    source.register? = cell.map (layout.tags + ·) ∧ (source.records = true ↔ 0 < times) := by
  have hplaced : source = content.placed layout := Content.eq_placed_of_source hsource
  rw [hplaced]
  cases cell with
  | none =>
    cases times with
    | zero => cases h
    | succ more =>
      cases h
      simp [placed, MoveSource.register?, MoveSource.records]
  | some r =>
    cases h
    cases times with
    | zero | succ => simp [placed, MoveSource.register?, MoveSource.records]

/-- The parts of a machine fit together. -/
structure Machine.Linked (M : Machine) : Prop where
  /-- Threads start on a node that exists, and every node leads on to nodes that exist: no fork is
  left with a way that has no node. -/
  closed : M.automaton.Closed
  /-- The banks have room for every tag, and for every thread that a state can have. -/
  layout : M.layout = ⟨M.automaton.tagCount, M.automaton.restingCount * M.automaton.tagCount⟩
  /-- Neighbouring cuts of the ranges ascend, so there is a range between them. -/
  pieces : ∀ lo stop, (lo, stop) ∈ (Alphabet.cuts M.automaton.ranges).zip
    (Alphabet.cuts M.automaton.ranges).tail → ∃ r, SymbolRange.ofBounds lo (stop - 1) = .ok r
  /-- The group around a group has a smaller number. -/
  parents : ∀ g, 0 < g → g ≤ M.automaton.groupCount →
    ∃ host, M.automaton.parents[g]? = some host ∧ host < g
  /-- A register that gets new content reads the register that its thread held for the tag, if it
  held one, and records the position if the thread has passed the tag. It does one or the other. -/
  moves : ∀ cell times content source, Content.of? cell times = some content →
    content.source M.layout = .ok source →
      source.register? = cell.map (M.layout.tags + ·) ∧ (source.records = true ↔ 0 < times) ∧
        (source.register?.isSome ∨ source.records = true)

theorem Machine.linked_ofPattern {n : NumberedPattern} (hn : n.Numbered) :
    (ofPattern n).Linked where
  closed := Automaton.closed_ofPattern n
  layout := rfl
  pieces := by
    intro lo stop hmem
    obtain ⟨hlt, -⟩ := Alphabet.not_between (Alphabet.pairwise_cuts _) hmem
    exact ⟨_, SymbolRange.ofBounds_eq_ok (by omega)⟩
  parents := by
    intro g hg hle
    have hcount : (ofPattern n).automaton.groupCount = n.parents.size - 1 := rfl
    exact hn.parent_lt hg (by omega)
  moves := by
    intro cell times content source hcontent hsource
    obtain ⟨hregister, hrecords⟩ := Content.source_of? hcontent hsource
    refine ⟨hregister, hrecords, ?_⟩
    rw [hregister, hrecords, Option.isSome_map]
    cases cell with
    | some r => exact .inl rfl
    | none =>
      -- a tag that was neither held nor passed has no content
      refine .inr (Nat.pos_of_ne_zero ?_)
      rintro rfl
      cases hcontent

/-- According to the histories of a match every group is closed as often as it is opened. -/
structure Match.Paired (groups : Nat) (m : Match) : Prop where
  length : m.histories.length = 2 * groups
  paired : ∀ g < groups, ∃ opens closes, m.histories[2 * g]? = some opens ∧
    m.histories[2 * g + 1]? = some closes ∧ opens.length = closes.length

theorem NumberedPattern.paired_outcome {n : NumberedPattern} (hsound : n.Sound)
    (hnumbered : n.Numbered) {text : List Char} {result : Match}
    (h : n.outcome text = .matched result) : result.Paired n.parents.size := by
  obtain ⟨ms, stop, -, -, -, hcomplete, rfl⟩ := exists_complete_of_matched hsound hnumbered h
  refine ⟨Event.length_histories _ _, fun g hg => ?_⟩
  have hopens := @Event.getElem?_histories n.parents.size ⟨g, .opening⟩ hg (Motion.events 0 ms)
  have hcloses := @Event.getElem?_histories n.parents.size ⟨g, .closing⟩ hg (Motion.events 0 ms)
  exact ⟨_, _, hopens, hcloses, hcomplete.balanced g⟩

namespace Matcher

variable {config : Config} {pattern : String} {n : NumberedPattern} {m : Matcher}

/-- What may be done with a matcher: a call, or packing the table. -/
inductive Deed where
  | call (c : Call)
  | pack
  deriving DecidableEq, Repr

/-- Do something with a matcher. -/
def act (m : Matcher) : Deed → Except Fault Matcher
  | .call c => m.perform c
  | .pack => .ok { m with cache := m.cache.pack }

theorem Serves.act (h : m.Serves n) (hn : n.Sound) (deed : Deed) :
    ∃ m', m.act deed = .ok m' ∧ m'.Serves n := by
  cases deed with
  | call c => exact h.perform hn c
  | pack => exact ⟨_, rfl, h.machine, h.cache.pack⟩

/-- **No check fails.** Where a pattern can be read, the ranges of its classes ascend, and it
compiles: the builder links every node of its automaton, the sweep over the ranges of the automaton
finds its alphabet, and the parts of the machine fit together. Whatever is then called and whenever
the table is packed, every call succeeds; every number of a node, a class, a state or a register in
the cache is in range; and the histories of every match open and close each group equally
often. -/
theorem act_safe (h : NumberedPattern.read config.toLimits pattern = .ok n) :
    (∀ b : Bracket, RangeSet.complement? b.union = .ok (RangeSet.complement b.union)) ∧
      ∃ m, compile config pattern = .ok m ∧
        Builder.compile n = .ok m.machine.automaton ∧
        Coverage.sweep m.machine.automaton.ranges = .ok m.machine.alphabet ∧ m.machine.Linked ∧
        ∀ deeds : List Deed, ∃ used, deeds.foldlM Matcher.act m = .ok used ∧
          used.cache.InRange m.machine ∧ ∀ text : String, ∃ outcome used',
            used.interpret text = .ok (outcome, used') ∧ used'.cache.InRange m.machine ∧
              ∀ result, outcome = .matched result → result.Paired n.parents.size := by
  have hA := Automaton.wellFormed_ofPattern n
  have hsound := NumberedPattern.read_sound h
  have hnumbered := NumberedPattern.read_numbered h
  obtain ⟨m, hcompile, hm⟩ := exists_compile h
  have hmachine : m.machine = .ofPattern n := hm.machine
  refine ⟨Bracket.complement?_union, m, hcompile, ?_⟩
  rw [hmachine]
  refine ⟨Builder.compile_eq n, Coverage.sweep_eq_ok _, Machine.linked_ofPattern hnumbered,
    fun deeds => ?_⟩
  obtain ⟨used, hreplay, hused⟩ :=
    foldlM_ok (fun _ deed hserves => Serves.act hserves hsound deed) deeds hm
  refine ⟨used, hreplay, hused.cache.inRange hA, fun text => ?_⟩
  obtain ⟨used', hinterpret, hused'⟩ := hused.interpret hsound text
  exact ⟨_, used', hinterpret, hused'.cache.inRange hA, fun result hresult =>
    NumberedPattern.paired_outcome hsound hnumbered hresult⟩

/-- A loop whose groups are passed several times at one place, with the table packed between two
calls. -/
theorem act_safe_packed : ∃ m, compile {} "((a?)*b)+" = .ok m ∧ m.machine.Linked ∧
    ∃ used, [Deed.call (.interpret "aab"), .pack].foldlM Matcher.act m = .ok used ∧
      used.cache.InRange m.machine ∧ ∃ outcome used', used.interpret "ba" = .ok (outcome, used') ∧
        ∀ result, outcome = .matched result → result.Paired 3 := by
  have hread : NumberedPattern.read ({} : Config).toLimits "((a?)*b)+" =
      .ok ⟨.repeated (.group 1 (.seq (.repeated (.group 2 (.repeated (.char 'a')
        ⟨0, some 1, false⟩)) ⟨0, none, false⟩) (.char 'b'))) ⟨1, none, false⟩, #[0, 0, 1]⟩ := by
    cbv
  obtain ⟨-, m, hcompile, -, -, hlinked, hdeeds⟩ := act_safe hread
  obtain ⟨used, hreplay, hrange, htexts⟩ := hdeeds [.call (.interpret "aab"), .pack]
  obtain ⟨outcome, used', hinterpret, -, hpaired⟩ := htexts "ba"
  exact ⟨m, hcompile, hlinked, used, hreplay, hrange, outcome, used', hinterpret, hpaired⟩

end Matcher

end Submatch
