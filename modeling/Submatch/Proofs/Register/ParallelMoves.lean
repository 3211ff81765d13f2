import Mathlib.Data.List.Nodup
import Mathlib.Data.List.Perm.Subperm
import Submatch.Proofs.Register.Execution
import Submatch.Register.Moves

/-!
# Moves made one after the other

`sequentialize` makes moves with different targets one after the other, and every target
ends up with what its move takes from the registers as they were before (`sequentialize_performs`).
When no move is ready, every target is read by another move. There are as many targets
as moves and a move reads one register, so nothing else is read, and the scratch register
is free (`not_reads_of_blocked`). On a register file the instructions can be executed, and the
registers that are neither targets nor scratch keep their histories
(`RegisterFile.execute_sequentialize`).
-/

namespace Submatch

/-- What a move gives its target, in terms of the registers before it. -/
def MoveSource.value (slots : PlainRegisters) (position : Nat) : MoveSource → List Nat
  | kept source => slots.read source
  | extended source => position :: slots.read source
  | fresh => [position]

/-- The register that is read, if one is. -/
def MoveSource.register? : MoveSource → Option Nat
  | kept source | extended source => some source
  | fresh => none

/-- The registers `after` are what the moves make of the registers `before`, all at once;
the scratch register may hold anything. -/
structure Performs (scratch position : Nat) (moves : List Move) (before after : PlainRegisters) :
    Prop where
  target : ∀ m ∈ moves, after.read m.target = m.source.value before position
  frame : ∀ r, r ≠ scratch → r ∉ moves.map Move.target → after.read r = before.read r

variable {scratch position : Nat} {moves : List Move} {slots : PlainRegisters}

theorem MoveSource.reads_iff {s : MoveSource} {r : Nat} :
    s.reads r = true ↔ s.register? = some r := by
  cases s <;> simp [reads, register?]

/-- Only the register that a move reads matters to it. -/
theorem MoveSource.value_set (s : MoveSource) {r : Nat} (h : s.reads r = false) (hist : List Nat) :
    s.value (slots.set r hist) position = s.value slots position := by
  cases s with
  | fresh => rfl
  | kept source | extended source =>
    simp only [reads, beq_eq_false_iff_ne] at h
    simp only [value, PlainRegisters.read_set_of_ne slots h]

/-- A move can read a copy of a register instead. -/
theorem MoveSource.value_redirect (s : MoveSource) {r : Nat} (hcopy : scratch < slots.length)
    (h : s.reads scratch = false) :
    (s.redirect r scratch).value (slots.set scratch (slots.read r)) position =
      s.value slots position := by
  cases s with
  | fresh => rfl
  | kept source | extended source =>
    simp only [reads, beq_eq_false_iff_ne] at h
    simp only [redirect, value]
    by_cases hs : source = r
    · rw [if_pos hs, PlainRegisters.read_set_self slots hcopy, hs]
    · rw [if_neg hs, PlainRegisters.read_set_of_ne slots h]

theorem MoveSource.reads_redirect (s : MoveSource) {r : Nat} (h : scratch ≠ r) :
    (s.redirect r scratch).reads r = false := by
  cases s with
  | fresh => rfl
  | kept source | extended source =>
    simp only [redirect, reads, beq_eq_false_iff_ne]
    split
    · exact h
    · assumption

theorem Move.applyPlain_instruction (m : Move) (slots : PlainRegisters) (position : Nat) :
    m.instruction.applyPlain position slots = slots.set m.target (m.source.value slots position) := by
  obtain ⟨target, source⟩ := m
  cases source <;> rfl

@[simp] theorem Move.target_redirect (m : Move) (r copy : Nat) :
    (m.redirect r copy).target = m.target := rfl

@[simp] theorem map_target_redirect (moves : List Move) (r copy : Nat) :
    (moves.map (Move.redirect r copy)).map Move.target = moves.map Move.target := by
  rw [List.map_map]
  rfl

/-- **Only cycles are left.** When every target is still read by another move, no
register but the targets is read. -/
theorem not_reads_of_blocked (hd : (moves.map Move.target).Nodup)
    (hblocked : ∀ m ∈ moves, m.isReady moves = false) {r : Nat}
    (hr : r ∉ moves.map Move.target) {m : Move} (hm : m ∈ moves) : m.source.reads r = false := by
  have hread : moves.map Move.target ⊆ moves.filterMap (·.source.register?) := by
    intro t ht
    obtain ⟨m, hm, rfl⟩ := List.mem_map.1 ht
    have := hblocked m hm
    simp only [Move.isReady, List.all_eq_false, Bool.or_eq_true, not_or, Bool.not_eq_true,
      Bool.not_eq_true', Bool.not_eq_false] at this
    obtain ⟨other, ho, -, hreads⟩ := this
    exact List.mem_filterMap.2 ⟨other, ho, MoveSource.reads_iff.1 hreads⟩
  -- as many reads at most as targets, so the two lists have the same members
  have hperm : (moves.map Move.target).Perm (moves.filterMap (·.source.register?)) := by
    refine (List.subperm_of_subset hd hread).perm_of_length_le ?_
    rw [List.length_map]
    exact List.length_filterMap_le ..
  rw [Bool.eq_false_iff]
  intro hreads
  exact hr (hperm.mem_iff.2 (List.mem_filterMap.2 ⟨m, hm, MoveSource.reads_iff.1 hreads⟩))

/-- Making a ready move first leaves every other move as it was. -/
theorem Performs.ready {m : Move} (hm : m ∈ moves) (hready : m.isReady moves = true)
    (hd : (moves.map Move.target).Nodup) (hscratch : scratch ∉ moves.map Move.target)
    (hsize : m.target < slots.length) {after : PlainRegisters}
    (h : Performs scratch position (moves.erase m)
      (slots.set m.target (m.source.value slots position)) after) :
    Performs scratch position moves slots after := by
  have hnodup : moves.Nodup := List.Nodup.of_map Move.target hd
  have hne : ∀ o ∈ moves, o ≠ m → o.target ≠ m.target := fun o ho hom htarget =>
    hom (List.inj_on_of_nodup_map hd ho hm htarget)
  have hout : m.target ∉ (moves.erase m).map Move.target := by
    intro hmem
    obtain ⟨o, ho, htarget⟩ := List.mem_map.1 hmem
    obtain ⟨hom, ho⟩ := (hnodup.mem_erase_iff).1 ho
    exact hne o ho hom htarget
  have hms : m.target ≠ scratch := fun h => hscratch (h ▸ List.mem_map_of_mem hm)
  constructor
  · intro o ho
    by_cases hom : o = m
    · subst hom
      rw [h.frame _ hms hout, PlainRegisters.read_set_self slots hsize]
    · rw [h.target o ((hnodup.mem_erase_iff).2 ⟨hom, ho⟩)]
      refine MoveSource.value_set _ ?_ _
      have := List.all_eq_true.1 hready o ho
      simp only [Bool.or_eq_true, beq_iff_eq, Bool.not_eq_true'] at this
      exact this.resolve_left (hne o ho hom)
  · intro r hr hrt
    have hrm : r ≠ m.target := fun h => hrt (h ▸ List.mem_map_of_mem hm)
    rw [h.frame r hr, PlainRegisters.read_set_of_ne slots hrm]
    intro hmem
    obtain ⟨o, ho, rfl⟩ := List.mem_map.1 hmem
    exact hrt (List.mem_map_of_mem (List.mem_of_mem_erase ho))

/-- Saving the target of a blocked move in the scratch register and making the move there
leaves every other move as it was, once it reads the copy. -/
theorem Performs.blocked {m : Move} {rest : List Move}
    (hblocked : ∀ o ∈ m :: rest, o.isReady (m :: rest) = false)
    (hd : ((m :: rest).map Move.target).Nodup) (hscratch : scratch ∉ (m :: rest).map Move.target)
    (hsize : m.target < slots.length) (hspace : scratch < slots.length) {after : PlainRegisters}
    (h : Performs scratch position (rest.map (Move.redirect m.target scratch))
      ((slots.set scratch (slots.read m.target)).set m.target (m.source.value slots position))
      after) :
    Performs scratch position (m :: rest) slots after := by
  have hfree : ∀ o ∈ m :: rest, o.source.reads scratch = false :=
    fun o ho => not_reads_of_blocked hd hblocked hscratch ho
  have hms : scratch ≠ m.target := fun h => hscratch (h ▸ List.mem_cons_self)
  have hout : m.target ∉ rest.map Move.target := (List.nodup_cons.1 hd).1
  constructor
  · intro o ho
    rcases List.mem_cons.1 ho with rfl | ho'
    · rw [h.frame _ hms.symm (by rw [map_target_redirect]; exact hout),
        PlainRegisters.read_set_self _ (by rw [List.length_set]; exact hsize)]
    · have := h.target _ (List.mem_map_of_mem ho')
      rw [Move.target_redirect] at this
      rw [this]
      simp only [Move.redirect]
      rw [MoveSource.value_set _ (MoveSource.reads_redirect _ hms),
        MoveSource.value_redirect _ hspace (hfree o ho)]
  · intro r hr hrt
    have hrm : r ≠ m.target := fun h => hrt (h ▸ List.mem_cons_self)
    have hrest : r ∉ rest.map Move.target := fun h => hrt (List.mem_cons_of_mem _ h)
    rw [h.frame r hr (by rw [map_target_redirect]; exact hrest),
      PlainRegisters.read_set_of_ne _ hrm, PlainRegisters.read_set_of_ne _ hr]

theorem sequenceMoves_nil : sequenceMoves scratch [] = [] := by
  rw [sequenceMoves]
  rfl

theorem sequenceMoves_of_ready {m : Move} (h : moves.find? (·.isReady moves) = some m) :
    sequenceMoves scratch moves = m.instruction :: sequenceMoves scratch (moves.erase m) := by
  rw [sequenceMoves]
  split
  next h' => rw [h] at h'; cases h'; rfl
  next h' => rw [h] at h'; cases h'

theorem sequenceMoves_of_blocked {m : Move} {rest : List Move}
    (h : (m :: rest).find? (·.isReady (m :: rest)) = none) :
    sequenceMoves scratch (m :: rest) = .copy m.target scratch ::
      (m.redirect m.target scratch).instruction ::
        sequenceMoves scratch (rest.map (Move.redirect m.target scratch)) := by
  rw [sequenceMoves]
  split
  next h' => rw [h] at h'; cases h'
  next h' => rfl

/-- Induction in the order in which moves are made. -/
theorem moves_induction {motive : List Move → Prop} (scratch : Nat) (nil : motive [])
    (ready : ∀ moves m, moves.find? (·.isReady moves) = some m → motive (moves.erase m) →
      motive moves)
    (blocked : ∀ m rest, (m :: rest).find? (·.isReady (m :: rest)) = none →
      motive (rest.map (Move.redirect m.target scratch)) → motive (m :: rest))
    (moves : List Move) : motive moves := by
  induction hn : moves.length using Nat.strongRecOn generalizing moves with
  | ind n ih =>
    cases hfind : moves.find? (·.isReady moves) with
    | some m =>
      have hm := List.mem_of_find?_eq_some hfind
      have := List.length_pos_of_mem hm
      exact ready moves m hfind (ih _ (by rw [List.length_erase_of_mem hm]; omega) _ rfl)
    | none =>
      match moves with
      | [] => exact nil
      | m :: rest => exact blocked m rest hfind (ih _ (by simp [← hn]) _ rfl)

theorem sequenceMoves_performs (hd : (moves.map Move.target).Nodup)
    (hscratch : scratch ∉ moves.map Move.target) (hspace : scratch < slots.length)
    (hsize : ∀ m ∈ moves, m.target < slots.length) :
    Performs scratch position moves slots
      (slots.execute (sequenceMoves scratch moves) position) := by
  induction moves using moves_induction scratch generalizing slots with
  | nil =>
    rw [sequenceMoves_nil]
    exact ⟨fun m hm => absurd hm List.not_mem_nil, fun _ _ _ => rfl⟩
  | ready moves m hfind ih =>
    -- without the ready move the targets are still different and free of the scratch register
    have hm := List.mem_of_find?_eq_some hfind
    have hsub : ((moves.erase m).map Move.target).Sublist (moves.map Move.target) :=
      List.erase_sublist.map _
    rw [sequenceMoves_of_ready hfind, PlainRegisters.execute_cons, Move.applyPlain_instruction]
    refine Performs.ready hm (List.find?_some hfind) hd hscratch (hsize m hm) ?_
    refine ih (hd.sublist hsub) (fun h => hscratch (hsub.subset h)) ?_ fun o ho => ?_
    · rw [List.length_set]
      exact hspace
    · rw [List.length_set]
      exact hsize o (List.mem_of_mem_erase ho)
  | blocked m rest hfind ih =>
    have hblocked : ∀ o ∈ m :: rest, o.isReady (m :: rest) = false := fun o ho =>
      Bool.eq_false_iff.2 (List.find?_eq_none.1 hfind o ho)
    have hms : scratch ∉ (m :: rest).map Move.target := hscratch
    have hm := hsize m List.mem_cons_self
    refine Performs.blocked hblocked hd hscratch hm hspace ?_
    rw [sequenceMoves_of_blocked hfind, PlainRegisters.execute_cons, PlainRegisters.execute_cons,
      Move.applyPlain_instruction]
    have hfree := not_reads_of_blocked hd hblocked hscratch List.mem_cons_self
    have hvalue : (m.redirect m.target scratch).source.value
        (Instruction.applyPlain position slots (.copy m.target scratch)) position =
          m.source.value slots position := MoveSource.value_redirect _ hspace hfree
    rw [hvalue, Move.target_redirect]
    refine ih ?_ ?_ ?_ fun o ho => ?_
    · rw [map_target_redirect]
      exact (List.nodup_cons.1 hd).2
    · rw [map_target_redirect]
      exact fun h => hscratch (List.mem_cons_of_mem _ h)
    · rw [List.length_set, List.length_set]
      exact hspace
    · obtain ⟨o', ho', rfl⟩ := List.mem_map.1 ho
      rw [List.length_set, List.length_set]
      exact hsize o' (List.mem_cons_of_mem _ ho')

/-- **Parallel moves.** The instructions that `sequentialize` gives for moves with
different targets leave in every target what its move prescribes in terms of the registers
as they were, and change nothing else but the scratch register. -/
theorem sequentialize_performs (hd : (moves.map Move.target).Nodup)
    (hscratch : scratch ∉ moves.map Move.target) (hspace : scratch < slots.length)
    (hsize : ∀ m ∈ moves, m.target < slots.length) :
    Performs scratch position moves slots
      (slots.execute (sequentialize scratch moves) position) := by
  have hsub : ((moves.filter (!·.isIdle)).map Move.target).Sublist (moves.map Move.target) :=
    List.filter_sublist.map _
  have h := @sequenceMoves_performs scratch position _ slots (hd.sublist hsub)
    (fun h => hscratch (hsub.subset h)) hspace fun m hm => hsize m (List.mem_of_mem_filter hm)
  have hframe : ∀ r, r ∉ (moves.filter (!·.isIdle)).map Move.target → r ≠ scratch →
      (slots.execute (sequentialize scratch moves) position).read r = slots.read r :=
    fun r hr hrs => h.frame r hrs hr
  constructor
  · intro m hm
    cases hidle : m.isIdle with
    | false => exact h.target m (List.mem_filter.2 ⟨hm, by rw [hidle]; rfl⟩)
    | true =>
      -- the copy onto itself that was left out
      have hsource : m.source = .kept m.target := by simpa [Move.isIdle] using hidle
      rw [hsource]
      refine hframe _ ?_ fun h => hscratch (h ▸ List.mem_map_of_mem hm)
      intro hmem
      obtain ⟨o, ho, htarget⟩ := List.mem_map.1 hmem
      obtain ⟨ho, hbusy⟩ := List.mem_filter.1 ho
      have := List.inj_on_of_nodup_map hd ho hm htarget
      rw [this, hidle] at hbusy
      cases hbusy
  · exact fun r hr hrt => hframe r (fun h => hrt (hsub.subset h)) hr

theorem Move.within_instruction {m : Move} {size : Nat} (ht : m.target < size)
    (hs : ∀ r ∈ m.source.register?, r < size) : m.instruction.Within size := by
  obtain ⟨target, source⟩ := m
  cases source with
  | kept s => exact ⟨hs s rfl, ht⟩
  | extended s => exact ⟨hs s rfl, ht⟩
  | fresh => exact ht

theorem Move.redirect_lt {m : Move} {size : Nat} (t : Nat) (hscratch : scratch < size)
    (hs : ∀ r ∈ m.source.register?, r < size) :
    ∀ r ∈ (m.redirect t scratch).source.register?, r < size := by
  obtain ⟨target, source⟩ := m
  intro r hr
  cases source with
  | fresh => cases hr
  | kept s | extended s =>
    simp only [Move.redirect, MoveSource.redirect, MoveSource.register?, Option.mem_def,
      Option.some.injEq] at hr
    subst hr
    -- either the copy is read, or the register that was read before
    split
    · exact hscratch
    · exact hs s rfl

/-- Every instruction for the moves names targets, registers read and the scratch register
only. -/
theorem within_sequenceMoves {size : Nat} (hscratch : scratch < size)
    (htarget : ∀ m ∈ moves, m.target < size)
    (hsource : ∀ m ∈ moves, ∀ r ∈ m.source.register?, r < size) :
    ∀ i ∈ sequenceMoves scratch moves, i.Within size := by
  induction moves using moves_induction scratch with
  | nil => exact fun i hi => absurd (sequenceMoves_nil ▸ hi) List.not_mem_nil
  | ready moves m hfind ih =>
    have hm := List.mem_of_find?_eq_some hfind
    rw [sequenceMoves_of_ready hfind]
    intro i hi
    rcases List.mem_cons.1 hi with rfl | hi
    · exact Move.within_instruction (htarget m hm) (hsource m hm)
    · exact ih (fun o ho => htarget o (List.mem_of_mem_erase ho))
        (fun o ho => hsource o (List.mem_of_mem_erase ho)) i hi
  | blocked m rest hfind ih =>
    have hm := htarget m List.mem_cons_self
    have hread := Move.redirect_lt m.target hscratch (hsource m List.mem_cons_self)
    rw [sequenceMoves_of_blocked hfind]
    intro i hi
    rcases List.mem_cons.1 hi with rfl | hi
    · exact ⟨hm, hscratch⟩
    rcases List.mem_cons.1 hi with rfl | hi
    · exact Move.within_instruction hm hread
    · refine ih (fun o ho => ?_) (fun o ho => ?_) i hi
      · obtain ⟨o', ho', rfl⟩ := List.mem_map.1 ho
        exact htarget o' (List.mem_cons_of_mem _ ho')
      · obtain ⟨o', ho', rfl⟩ := List.mem_map.1 ho
        exact Move.redirect_lt _ hscratch (hsource o' (List.mem_cons_of_mem _ ho'))

theorem within_sequentialize {size : Nat} (hscratch : scratch < size)
    (htarget : ∀ m ∈ moves, m.target < size)
    (hsource : ∀ m ∈ moves, ∀ r ∈ m.source.register?, r < size) :
    ∀ i ∈ sequentialize scratch moves, i.Within size :=
  within_sequenceMoves hscratch (fun m hm => htarget m (List.mem_of_mem_filter hm))
    fun m hm => hsource m (List.mem_of_mem_filter hm)

@[simp] theorem Move.target_instruction (m : Move) : m.instruction.target = m.target := by
  obtain ⟨target, source⟩ := m
  cases source <;> rfl

/-- Reading the copy of one register and then that of another is reading one copy. -/
theorem Move.exists_redirect_redirect (m : Move) (r t : Nat) :
    ∃ u, (m.redirect r scratch).redirect t scratch = m.redirect u scratch := by
  obtain ⟨target, source⟩ := m
  cases source with
  | fresh => exact ⟨r, rfl⟩
  | kept source | extended source =>
    simp only [Move.redirect, MoveSource.redirect]
    by_cases hr : source = r
    · exact ⟨r, by simp [hr]⟩
    · exact ⟨t, by simp [hr]⟩

/-- An instruction for the moves saves the target of one of them in the scratch register, or makes
a move, perhaps with its source read from there. -/
def Instruction.Serves (scratch : Nat) (moves : List Move) (i : Instruction) : Prop :=
  ∃ m ∈ moves, i = .copy m.target scratch ∨ ∃ r, i = (m.redirect r scratch).instruction

theorem serves_instruction {m : Move} (hm : m ∈ moves) : m.instruction.Serves scratch moves := by
  have hsame : m.redirect scratch scratch = m := by
    obtain ⟨target, source⟩ := m
    cases source <;> simp +contextual [Move.redirect, MoveSource.redirect]
  exact ⟨m, hm, .inr ⟨scratch, by rw [hsame]⟩⟩

theorem Instruction.Serves.mono {i : Instruction} {part : List Move} (h : i.Serves scratch part)
    (hsub : part ⊆ moves) : i.Serves scratch moves := by
  obtain ⟨m, hm, hi⟩ := h
  exact ⟨m, hsub hm, hi⟩

/-- What serves moves whose sources are read from the scratch register serves the moves. -/
theorem Instruction.Serves.of_redirect {i : Instruction} {t : Nat}
    (h : i.Serves scratch (moves.map (Move.redirect t scratch))) : i.Serves scratch moves := by
  obtain ⟨m', hm', hi⟩ := h
  obtain ⟨m, hm, rfl⟩ := List.mem_map.1 hm'
  rcases hi with rfl | ⟨r, rfl⟩
  · exact ⟨m, hm, .inl rfl⟩
  · obtain ⟨u, hu⟩ := m.exists_redirect_redirect t r
    exact ⟨m, hm, .inr ⟨u, by rw [hu]⟩⟩

theorem serves_sequenceMoves : ∀ i ∈ sequenceMoves scratch moves, i.Serves scratch moves := by
  induction moves using moves_induction scratch with
  | nil => exact fun i hi => absurd (sequenceMoves_nil ▸ hi) List.not_mem_nil
  | ready moves m hfind ih =>
    intro i hi
    rw [sequenceMoves_of_ready hfind] at hi
    rcases List.mem_cons.1 hi with rfl | hi
    · exact serves_instruction (List.mem_of_find?_eq_some hfind)
    · exact (ih i hi).mono List.erase_subset
  | blocked m rest hfind ih =>
    intro i hi
    rw [sequenceMoves_of_blocked hfind] at hi
    rcases List.mem_cons.1 hi with rfl | hi
    · exact ⟨m, List.mem_cons_self, .inl rfl⟩
    rcases List.mem_cons.1 hi with rfl | hi
    · exact ⟨m, List.mem_cons_self, .inr ⟨m.target, rfl⟩⟩
    · exact (ih i hi).of_redirect.mono (List.subset_cons_self m rest)

theorem serves_sequentialize : ∀ i ∈ sequentialize scratch moves, i.Serves scratch moves :=
  fun i hi => (serves_sequenceMoves i hi).mono fun _ hm => List.mem_of_mem_filter hm

/-- Only the targets and the scratch register are written. -/
theorem Instruction.Serves.target_eq {i : Instruction} (h : i.Serves scratch moves) :
    i.target = scratch ∨ i.target ∈ moves.map Move.target := by
  obtain ⟨m, hm, rfl | ⟨r, rfl⟩⟩ := h
  · exact .inl rfl
  · rw [Move.target_instruction, Move.target_redirect]
    exact .inr (List.mem_map_of_mem hm)

/-- **Parallel moves on a register file.** Let the targets of some moves differ from each other and
from the scratch register. Every instruction that `sequentialize` gives saves a target or makes a
move, and the move still reads a register or records the position as it did; all of them together
can be executed at any position on any file that has the registers. Afterwards every target holds
what its move prescribes in terms of the file as it was, and a register that is neither a target
nor the scratch register holds the same history. -/
theorem RegisterFile.execute_sequentialize {file : RegisterFile} {size : Nat}
    (h : file.Sound size) (hd : (moves.map Move.target).Nodup)
    (hscratch : scratch ∉ moves.map Move.target) (hspace : scratch < size)
    (htarget : ∀ m ∈ moves, m.target < size)
    (hsource : ∀ m ∈ moves, ∀ r ∈ m.source.register?, r < size) (position : Nat)
    (ids : IdSource) :
    (∀ i ∈ sequentialize scratch moves, i.Serves scratch moves) ∧
      ∃ file' ids', file.execute (sequentialize scratch moves) position ids = .ok (file', ids') ∧
        (∀ m ∈ moves, file'.plain.read m.target = m.source.value file.plain position) ∧
        ∀ r, r ≠ scratch → r ∉ moves.map Move.target → file'.get r = file.get r := by
  have hwithin := within_sequentialize hspace htarget hsource
  have hlen := h.length_plain
  have hperforms := @sequentialize_performs scratch position moves file.plain hd hscratch
    (by omega) fun m hm => by have := htarget m hm; omega
  obtain ⟨file', ids', hexec, -, hplain⟩ := execute_plain h hwithin position ids
  refine ⟨serves_sequentialize, file', ids', hexec, fun m hm => ?_, fun r hrs hr => ?_⟩
  · rw [hplain]
    exact hperforms.target m hm
  · refine get_execute h hwithin (fun i hi htr => ?_) hexec
    rcases (serves_sequentialize i hi).target_eq with hi | hi
    · exact hrs (htr ▸ hi)
    · exact hr (htr ▸ hi)

/-- Registers 0 and 1 trade places, and 1 records the position; 2 also reads 0, and 3 records the
position in place. -/
theorem RegisterFile.execute_sequentialize_cycle : ∃ (file file' : RegisterFile) (ids' : IdSource),
    file.plain = [[1], [2, 1], [], [3], []] ∧
      file.execute (sequentialize 4 [⟨0, .kept 1⟩, ⟨1, .extended 0⟩, ⟨2, .kept 0⟩,
        ⟨3, .extended 3⟩]) 9 ⟨8⟩ = .ok (file', ids') ∧
      file'.plain.read 0 = [2, 1] ∧ file'.plain.read 1 = [9, 1] ∧ file'.plain.read 2 = [1] ∧
      file'.plain.read 3 = [9, 3] := by
  let one := History.child 1 1 (.unset 0)
  let file : RegisterFile := ⟨⟨5, some (.branch (.branch (.leaf one) (.leaf (.child 2 2 one)))
    (.branch (.leaf (.unset 0)) (.branch (.leaf (.child 3 3 (.unset 0))) (.leaf (.unset 0)))))⟩,
    .unset 0⟩
  have hsound : file.Sound 5 := by
    refine ⟨.tree (.branch (by decide) ?_ ?_), rfl, rfl⟩
    · exact .branch (by decide) (.leaf _) (.leaf _)
    · exact .branch (by decide) (.leaf _) (.branch (by decide) (.leaf _) (.leaf _))
  have hplain : file.plain = [[1], [2, 1], [], [3], []] := by decide
  obtain ⟨-, file', ids', hexec, htarget, -⟩ := @execute_sequentialize 4
    [⟨0, .kept 1⟩, ⟨1, .extended 0⟩, ⟨2, .kept 0⟩, ⟨3, .extended 3⟩] _ _ hsound
    (by decide) (by decide) (by decide) (by decide) (by decide) 9 ⟨8⟩
  rw [hplain] at htarget
  exact ⟨file, file', ids', hplain, hexec, htarget ⟨0, .kept 1⟩ (by decide),
    htarget ⟨1, .extended 0⟩ (by decide), htarget ⟨2, .kept 0⟩ (by decide),
    htarget ⟨3, .extended 3⟩ (by decide)⟩

end Submatch
