import Submatch.Proofs.Dfa.Frontier

/-!
# The end of the text

At the end of the text the histories of an accepting thread are brought to the output bank
(`flush_accepted`). The output registers are apart from the working ones, so the order in which
this is done does not matter (`read_execute_flush`).
-/

namespace Submatch

namespace Frontier

variable {A : Automaton} {layout : Layout} {f : Frontier} {cells : List (Option Nat)}
  {slots : PlainRegisters} {position : Nat}

/-- The instruction that brings a cell to the output register of its tag, with both places in
the file. -/
def placedFlush (layout : Layout) (v : Option Nat × Nat) : Instruction :=
  match v.1 with
  | some r => .copy (layout.tags + r) v.2
  | none => .close v.2

theorem applyPlain_placedFlush (layout : Layout) (v : Option Nat × Nat) (slots : PlainRegisters)
    (position : Nat) :
    (placedFlush layout v).applyPlain position slots = slots.set v.2 (slots.cell layout v.1) := by
  obtain ⟨cell, tag⟩ := v
  cases cell <;> rfl

/-- The cells reach the output registers, whatever is brought there before. -/
theorem read_execute_flush {vs : List (Option Nat × Nat)}
    (hd : (vs.map Prod.snd).Nodup) (htags : ∀ v ∈ vs, v.2 < layout.tags)
    (hsize : layout.tags ≤ slots.length) :
    (∀ v ∈ vs, (slots.execute (vs.map (placedFlush layout)) position).read v.2 =
      slots.cell layout v.1) ∧
    ∀ x, x ∉ vs.map Prod.snd →
      (slots.execute (vs.map (placedFlush layout)) position).read x = slots.read x := by
  induction vs generalizing slots with
  | nil => exact ⟨nofun, fun x _ => rfl⟩
  | cons v vs ih =>
    obtain ⟨hv, hvs⟩ := List.nodup_cons.1 hd
    obtain ⟨hlt, hrest⟩ := List.forall_mem_cons.1 htags
    obtain ⟨hin, hout⟩ := @ih (slots.set v.2 (slots.cell layout v.1)) hvs hrest
      (by rwa [List.length_set])
    have hcell : ∀ cell : Option Nat,
        PlainRegisters.cell (slots.set v.2 (slots.cell layout v.1)) layout cell =
          slots.cell layout cell := by
      intro cell
      cases cell with
      | none => rfl
      | some r => exact PlainRegisters.read_set_of_ne slots (by omega) _
    rw [List.map_cons, PlainRegisters.execute_cons, applyPlain_placedFlush]
    refine ⟨List.forall_mem_cons.2 ⟨?_, fun w hw => ?_⟩, fun x hx => ?_⟩
    · rw [hout v.2 hv, PlainRegisters.read_set_self slots (by omega)]
    · rw [hin w hw, hcell]
    · rw [List.map_cons, List.mem_cons, not_or] at hx
      rw [hout x hx.2, PlainRegisters.read_set_of_ne slots hx.1]

theorem mem_zipIdx_cells (hfits : Fits layout cells) {v : Option Nat × Nat}
    (hv : v ∈ cells.zipIdx) : v.2 < layout.tags ∧ v.1 ∈ cells := by
  have hget : cells[v.2]? = some v.1 := List.mk_mem_zipIdx_iff_getElem?.1 hv
  obtain ⟨hlt, -⟩ := List.getElem?_eq_some_iff.1 hget
  exact ⟨hfits.length ▸ hlt, List.mem_of_getElem? hget⟩

theorem flush_eq_ok {last : Thread} (hlast : f.threads.getLast? = some last)
    (hfits : Fits layout last.cells) (h : f.acceptance ≠ .reject) :
    f.flush layout = .ok (some (last.cells.zipIdx.map (placedFlush layout))) := by
  have hmap : last.cells.zipIdx.mapM (fun v => flushCell layout v.2 v.1) =
      .ok (last.cells.zipIdx.map (placedFlush layout)) := by
    refine mapM_ok fun v hv => ?_
    obtain ⟨htag, hcell⟩ := mem_zipIdx_cells hfits hv
    obtain ⟨cell, tag⟩ := v
    have houtput := Layout.output_eq_ok htag
    simp only at houtput hcell
    cases cell with
    | none =>
      simp only [flushCell, houtput]
      rfl
    | some r =>
      have hregister := Layout.register_eq_ok (hfits.working r hcell)
      simp only [flushCell, houtput, hregister]
      rfl
  unfold flush
  rw [hlast]
  cases hacc : f.acceptance with
  | reject => exact absurd hacc h
  | candidate | settled =>
    simp only
    rw [hmap]
    rfl

theorem within_placedFlush (hfits : Fits layout cells) :
    ∀ i ∈ cells.zipIdx.map (placedFlush layout), i.Within layout.slots := by
  intro i hi
  obtain ⟨⟨cell, tag⟩, hv, rfl⟩ := List.mem_map.1 hi
  obtain ⟨htag, hcell⟩ := mem_zipIdx_cells hfits hv
  have hslots : layout.slots = layout.tags + layout.working + 1 := rfl
  simp only at htag hcell
  cases cell with
  | none =>
    show tag < layout.slots
    omega
  | some r =>
    have hworking := hfits.working r hcell
    show layout.tags + r < layout.slots ∧ tag < layout.slots
    omega

/-- The output bank holds what the cells held before. -/
theorem read_execute_cells (hfits : Fits layout cells) (hsize : layout.tags ≤ slots.length) :
    (List.range layout.tags).map
        (slots.execute (cells.zipIdx.map (placedFlush layout)) position).read =
      cells.map (slots.cell layout) := by
  have hlength := hfits.length
  have hnodup : (cells.zipIdx.map Prod.snd).Nodup := by
    rw [List.zipIdx_map_snd]
    exact List.nodup_range'
  have htags : ∀ v ∈ cells.zipIdx, v.2 < layout.tags := by
    intro v hv
    exact (mem_zipIdx_cells hfits hv).1
  obtain ⟨hread, -⟩ := @read_execute_flush layout slots position cells.zipIdx hnodup htags hsize
  refine List.ext_getElem? fun index => ?_
  rw [List.getElem?_map, List.getElem?_map]
  by_cases hlt : index < layout.tags
  · have hcell := List.getElem?_eq_getElem (hlength ▸ hlt : index < cells.length)
    have hmem := List.mk_mem_zipIdx_iff_getElem?.2 hcell
    rw [hcell, List.getElem?_range hlt, Option.map_some, Option.map_some, hread _ hmem]
  · rw [List.getElem?_eq_none (by simp; omega), List.getElem?_eq_none (by omega)]
    rfl

/-- **The end of the text.** The histories of an accepting thread can be brought to the output
bank. -/
theorem flush_accepted (hf : f.Sound A) (h : f.acceptance ≠ .reject) :
    ∃ program, f.flush (.ofAutomaton A) = .ok (some program) ∧
      (∀ i ∈ program, i.Within (Layout.ofAutomaton A).slots) ∧
      ∀ slots position, slots.length = (Layout.ofAutomaton A).slots →
        f.accepted (.ofAutomaton A) slots =
          some ((List.range A.tagCount).map (slots.execute program position).read) := by
  obtain ⟨last, hlast, hfinal⟩ := exists_last_of_acceptance h
  have hfits := hf.fits last (List.mem_of_getLast? hlast)
  refine ⟨_, flush_eq_ok hlast hfits h, within_placedFlush hfits, fun slots position hlen => ?_⟩
  have hslots : (Layout.ofAutomaton A).slots =
      (Layout.ofAutomaton A).tags + (Layout.ofAutomaton A).working + 1 := rfl
  have hread := @read_execute_cells _ _ slots position hfits (by omega)
  unfold accepted
  rw [hlast]
  simp only
  rw [if_pos hfinal]
  exact congrArg some hread.symm

end Frontier

end Submatch
