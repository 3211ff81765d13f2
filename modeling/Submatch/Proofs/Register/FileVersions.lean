import Mathlib.Data.List.Forall2
import Submatch.Proofs.Register.Execution
import Submatch.Register.Versions

/-!
# Versions of a register file

A revision executes its program on one of the versions that there are, which stands for plain
registers; the new version stands for what the program makes of these (`revise_refines`), and the
others are what they were. So the versions that any revisions make, in whatever way they branch,
stand for the versions of plain registers (`versions_refine_plain`).
-/

namespace Submatch

/-- Every revision goes on from a version that there is by then, where there are `count` versions
first, and names the first `size` registers only. -/
def Revision.Valid (size count : Nat) : List Revision → Prop
  | [] => True
  | r :: rest => r.base < count ∧ (∀ i ∈ r.program, i.Within size) ∧ Valid size (count + 1) rest

/-- Every register of a file holds the positions of a plain one. -/
structure RegisterFile.Refines (file : RegisterFile) (slots : PlainRegisters) : Prop where
  size_eq : file.slots.size = slots.length
  get : ∀ (r : Nat) (h : r < slots.length), ∃ hist, file.get r = .ok hist ∧
    hist.positions = slots[r]

theorem Revision.Valid.of_append {size count : Nat} {before after : List Revision}
    (h : Valid size count (before ++ after)) : Valid size count before := by
  induction before generalizing count with
  | nil => exact trivial
  | cons r before ih =>
    obtain ⟨hbase, hprogram, hrest⟩ := h
    exact ⟨hbase, hprogram, ih hrest⟩

theorem PlainRegisters.length_versions (size : Nat) (revisions : List Revision) :
    (versions size revisions).length = revisions.length + 1 := by
  have hfoldl : ∀ registers : List PlainRegisters,
      (revisions.foldl revise registers).length = revisions.length + registers.length := by
    induction revisions with
    | nil => exact fun registers => (Nat.zero_add _).symm
    | cons r rest ih =>
      intro registers
      rw [List.foldl_cons, ih, revise, List.length_append, List.length_singleton, List.length_cons]
      omega
  exact hfoldl _

namespace RegisterFile

variable {size : Nat} {files : List RegisterFile} {ids : IdSource}

theorem Sound.refines {file : RegisterFile} (h : file.Sound size) : file.Refines file.plain where
  size_eq := by rw [h.length_plain, h.size_eq]
  get r hr := by
    obtain ⟨hist, hget, hpositions⟩ := h.get (h.length_plain ▸ hr)
    refine ⟨hist, hget, ?_⟩
    rw [hpositions, PlainRegisters.read, List.getElem?_eq_getElem hr, Option.getD_some]

/-- In a fresh file every register is empty. -/
theorem plain_fresh (size : Nat) (ids : IdSource) :
    (fresh size ids).1.plain = List.replicate size [] := by
  simp only [fresh, History.newUnset, plain, BalancedArray.toList_replicate, List.map_replicate,
    History.positions_unset]

/-- **One revision.** It makes one new version, which stands for what its program makes of the
plain registers of the version that it goes on from. -/
theorem revise_refines (h : ∀ file ∈ files, file.Sound size) {r : Revision}
    (hbase : r.base < files.length) (hprogram : ∀ i ∈ r.program, i.Within size)
    (ids : IdSource) :
    ∃ file ids', revise (files, ids) r = .ok (files ++ [file], ids') ∧ file.Sound size ∧
      (files ++ [file]).map plain = PlainRegisters.revise (files.map plain) r := by
  have hfile : files[r.base]? = some files[r.base] := List.getElem?_eq_getElem hbase
  obtain ⟨file, ids', hexec, hsound, hplain⟩ :=
    execute_plain (h _ (List.getElem_mem hbase)) hprogram r.position ids
  refine ⟨file, ids', ?_, hsound, ?_⟩
  · simp only [revise, hfile, hexec, bind, Except.bind, pure, Except.pure]
  · rw [PlainRegisters.revise, List.getElem?_map, hfile, Option.map_some, Option.getD_some,
      List.map_append, List.map_singleton, hplain]

/-- **Several revisions** make the versions that the plain registers have. -/
theorem foldlM_revise_refines (h : ∀ file ∈ files, file.Sound size) {revisions : List Revision}
    (hvalid : Revision.Valid size files.length revisions) (ids : IdSource) :
    ∃ later ids', revisions.foldlM revise (files, ids) = .ok (later, ids') ∧
      (∀ file ∈ later, file.Sound size) ∧
      later.map plain = revisions.foldl PlainRegisters.revise (files.map plain) := by
  induction revisions generalizing files ids with
  | nil => exact ⟨files, ids, rfl, h, rfl⟩
  | cons r rest ih =>
    obtain ⟨hbase, hprogram, hrest⟩ := hvalid
    obtain ⟨file, ids₁, hrevise, hsound, hplain⟩ := revise_refines h hbase hprogram ids
    have hall : ∀ file' ∈ files ++ [file], file'.Sound size :=
      List.forall_mem_append.2 ⟨h, List.forall_mem_singleton.2 hsound⟩
    have hcount : (files ++ [file]).length = files.length + 1 := List.length_append
    obtain ⟨later, ids₂, hrun, hlater, hlaterPlain⟩ := ih hall (hcount ▸ hrest) ids₁
    refine ⟨later, ids₂, ?_, hlater, ?_⟩
    · rw [List.foldlM_cons, hrevise]
      exact hrun
    · rw [hlaterPlain, hplain, List.foldl_cons]

/-- A revision keeps the versions that there are. -/
theorem prefix_of_revise {state state' : List RegisterFile × IdSource} {r : Revision}
    (h : revise state r = .ok state') : state.1 <+: state'.1 := by
  unfold revise at h
  split at h
  · obtain ⟨made, -, hmade⟩ := bind_eq_ok.1 h
    cases hmade
    exact List.prefix_append ..
  · cases h

theorem prefix_of_foldlM_revise {state state' : List RegisterFile × IdSource}
    {revisions : List Revision} (h : revisions.foldlM revise state = .ok state') :
    state.1 <+: state'.1 := by
  have hstep : ∀ s r s', state.1 <+: s.1 → revise s r = .ok s' → state.1 <+: s'.1 :=
    fun s r s' hkept hrevise => hkept.trans (prefix_of_revise hrevise)
  exact foldlM_keeps hstep (List.prefix_refl state.1) h

/-- **Versions of a register file are versions of plain registers.** Let each of some revisions
go on from any version that there is by then, and name registers of the file only. Starting from
a fresh file, all of them can be made, with numbers from one source. In every version every
register holds the positions that the plain one holds, newest first. The first revisions make
the same files without the later ones, which change nothing in them. -/
theorem versions_refine_plain {revisions : List Revision} (h : Revision.Valid size 1 revisions)
    (ids : IdSource) :
    ∃ files ids', versions size ids revisions = .ok (files, ids') ∧
      files.length = revisions.length + 1 ∧
      (∀ file ∈ files, file.slots.size = size) ∧
      List.Forall₂ Refines files (PlainRegisters.versions size revisions) ∧
      ∀ before after, revisions = before ++ after → ∃ earlier ids₁,
        versions size ids before = .ok (earlier, ids₁) ∧ earlier <+: files := by
  have hstart : ∀ file ∈ [(fresh size ids).1], file.Sound size :=
    List.forall_mem_singleton.2 (sound_fresh size ids)
  obtain ⟨files, ids', hrun, hsound, hplain⟩ :=
    foldlM_revise_refines hstart h (fresh size ids).2
  have hversions : files.map plain = PlainRegisters.versions size revisions := by
    rw [hplain, List.map_singleton, plain_fresh, PlainRegisters.versions]
  refine ⟨files, ids', hrun, ?_, fun file hfile => (hsound file hfile).size_eq, ?_, ?_⟩
  · rw [← PlainRegisters.length_versions size revisions, ← hversions, List.length_map]
  · rw [← hversions, List.forall₂_map_right_iff, List.forall₂_same]
    exact fun file hfile => (hsound file hfile).refines
  · rintro before after rfl
    obtain ⟨earlier, ids₁, hbefore, -, -⟩ :=
      foldlM_revise_refines hstart h.of_append (fresh size ids).2
    rw [List.foldlM_append, hbefore] at hrun
    exact ⟨earlier, ids₁, hbefore, prefix_of_foldlM_revise hrun⟩

/-- Two versions that go on from one which extends a register in place, and one that goes on from
the fresh file. -/
theorem versions_refine_plain_branching :
    ∃ (files : List RegisterFile) (ids' : IdSource),
      versions 3 ⟨0⟩ [⟨0, [.set 0, .branch 0 0, .copy 0 1], 4⟩, ⟨1, [.branch 1 2, .close 0], 6⟩,
        ⟨1, [.set 1, .branch 0 1], 5⟩, ⟨0, [.branch 2 2], 9⟩] = .ok (files, ids') ∧
      List.Forall₂ Refines files [[[], [], []], [[4, 4], [4, 4], []], [[], [4, 4], [6, 4, 4]],
        [[4, 4], [5, 4, 4], []], [[], [], [9]]] := by
  obtain ⟨files, ids', hrun, -, -, hrefines, -⟩ := @versions_refine_plain 3
    [⟨0, [.set 0, .branch 0 0, .copy 0 1], 4⟩, ⟨1, [.branch 1 2, .close 0], 6⟩,
      ⟨1, [.set 1, .branch 0 1], 5⟩, ⟨0, [.branch 2 2], 9⟩]
    (by simp [Revision.Valid, Instruction.Within]) ⟨0⟩
  exact ⟨files, ids', hrun, hrefines⟩

end RegisterFile

end Submatch
