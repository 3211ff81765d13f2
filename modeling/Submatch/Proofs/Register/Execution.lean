import Submatch.Proofs.Fault
import Submatch.Register.Plain

/-!
# Executing programs on register files

A register file stands for a list of plain registers. A program whose registers lie in
the file can be executed on it, and does to the plain registers what
`PlainRegisters.execute` says (`execute_plain`). A register that is not the target of any
instruction keeps the very history that it held (`get_execute`).
-/

namespace Submatch

/-- The positions in a register; a register that does not exist holds none. -/
def PlainRegisters.read (slots : PlainRegisters) (register : Nat) : List Nat :=
  slots[register]?.getD []

/-- Every register that the instruction names is one of the first `size`. -/
def Instruction.Within (size : Nat) : Instruction → Prop
  | copy source target | branch source target => source < size ∧ target < size
  | set target | close target => target < size

/-- The register that the instruction writes. -/
def Instruction.target : Instruction → Nat
  | copy _ target | branch _ target | set target | close target => target

/-- A register file of a given size that is fit for execution. -/
structure RegisterFile.Sound (file : RegisterFile) (size : Nat) : Prop where
  balanced : file.slots.IsBalanced
  size_eq : file.slots.size = size
  unset : file.unset.positions = []

namespace PlainRegisters

variable {slots : PlainRegisters} {position : Nat}

theorem read_set (slots : PlainRegisters) {target : Nat} (h : target < slots.length)
    (hist : List Nat) (r : Nat) :
    read (slots.set target hist) r = if r = target then hist else slots.read r := by
  unfold read
  rw [List.getElem?_set]
  by_cases hr : target = r
  · subst hr
    simp [h]
  · rw [if_neg hr, if_neg (Ne.symm hr)]

theorem read_set_self (slots : PlainRegisters) {target : Nat} (h : target < slots.length)
    (hist : List Nat) : read (slots.set target hist) target = hist := by
  rw [read_set slots h, if_pos rfl]

theorem read_set_of_ne (slots : PlainRegisters) {target r : Nat} (h : r ≠ target)
    (hist : List Nat) : read (slots.set target hist) r = slots.read r := by
  unfold read
  rw [List.getElem?_set_ne (Ne.symm h)]

/-- A register that is emptied holds nothing, also if there is no such register. -/
theorem read_set_nil (slots : PlainRegisters) (target : Nat) :
    read (slots.set target []) target = [] := by
  unfold read
  rw [List.getElem?_set_self']
  cases slots[target]? <;> rfl

@[simp] theorem execute_nil (slots : PlainRegisters) (position : Nat) :
    slots.execute [] position = slots := rfl

@[simp] theorem execute_cons (slots : PlainRegisters) (i : Instruction)
    (program : List Instruction) (position : Nat) :
    slots.execute (i :: program) position =
      PlainRegisters.execute (i.applyPlain position slots) program position := rfl

theorem execute_append (slots : PlainRegisters) (first second : List Instruction)
    (position : Nat) :
    slots.execute (first ++ second) position =
      PlainRegisters.execute (slots.execute first position) second position :=
  List.foldl_append

@[simp] theorem length_applyPlain (i : Instruction) (slots : PlainRegisters) (position : Nat) :
    (i.applyPlain position slots).length = slots.length := by
  cases i <;> exact List.length_set

@[simp] theorem length_execute (slots : PlainRegisters) (program : List Instruction)
    (position : Nat) : (slots.execute program position).length = slots.length := by
  induction program generalizing slots with
  | nil => rfl
  | cons i rest ih => rw [execute_cons, ih, length_applyPlain]

end PlainRegisters

namespace RegisterFile

variable {file : RegisterFile} {size : Nat}

theorem Sound.length_plain (h : file.Sound size) : file.plain.length = size := by
  unfold plain
  rw [List.length_map, h.balanced.length_toList, h.size_eq]

/-- A register of the file can be read, and holds what the plain register does. -/
theorem Sound.get (h : file.Sound size) {r : Nat} (hr : r < size) :
    ∃ hist, file.get r = .ok hist ∧ hist.positions = file.plain.read r := by
  have hlen := h.balanced.length_toList
  rw [h.size_eq] at hlen
  have hget := BalancedArray.get_eq h.balanced r
  have hlt : r < file.slots.toList.length := by omega
  have hsome : file.slots.toList[r]? = some file.slots.toList[r] := List.getElem?_eq_getElem hlt
  rw [hsome] at hget
  refine ⟨_, hget, ?_⟩
  unfold plain PlainRegisters.read
  rw [List.getElem?_map, hsome]
  rfl

/-- A register that holds no position is unset. -/
theorem Sound.get_of_read_nil (h : file.Sound size) {r : Nat} (hr : r < size)
    (hempty : file.plain.read r = []) : ∃ id, file.get r = .ok (.unset id) := by
  obtain ⟨hist, hget, hpositions⟩ := h.get hr
  cases hist with
  | unset id => exact ⟨id, hget⟩
  | child id position parent =>
    rw [hempty, History.positions_child] at hpositions
    cases hpositions

/-- A register that there is can be overwritten. -/
theorem exists_put (hb : file.slots.IsBalanced) {r : Nat} (hr : r < file.slots.size)
    (hist : History) :
    ∃ slots, file.put r hist = .ok { file with slots } ∧ slots.IsBalanced ∧
      slots.size = file.slots.size ∧ slots.toList = file.slots.toList.set r hist := by
  obtain ⟨slots, hset⟩ := BalancedArray.exists_set hb hr hist
  refine ⟨slots, ?_, BalancedArray.isBalanced_set hb hset, BalancedArray.size_set hb hset,
    BalancedArray.toList_set hb hset⟩
  unfold RegisterFile.put
  rw [hset]
  rfl

/-- A register of the file can be overwritten. -/
theorem Sound.put (h : file.Sound size) {r : Nat} (hr : r < size) (hist : History) :
    ∃ file', file.put r hist = .ok file' ∧ file'.Sound size ∧ file'.unset = file.unset ∧
      file'.plain = file.plain.set r hist.positions := by
  obtain ⟨slots, hput, hbal, hsize, hlist⟩ := exists_put h.balanced (h.size_eq ▸ hr) hist
  refine ⟨{ file with slots }, hput, ⟨hbal, hsize.trans h.size_eq, h.unset⟩, rfl, ?_⟩
  unfold plain
  simp only [hlist, List.map_set]

/-- An instruction whose registers lie in the file does to it what it does to the plain
registers. -/
theorem apply_plain (h : file.Sound size) {i : Instruction} (hi : i.Within size)
    (position : Nat) (ids : IdSource) :
    ∃ file' ids', apply position (file, ids) i = .ok (file', ids') ∧ file'.Sound size ∧
      file'.plain = i.applyPlain position file.plain := by
  cases i with
  | copy source target =>
    obtain ⟨hist, hget, hpos⟩ := h.get hi.1
    obtain ⟨file', hput, hs, -, hplain⟩ := h.put hi.2 hist
    refine ⟨file', ids, ?_, hs, by rw [hplain, hpos]; rfl⟩
    simp only [apply, hget, hput, bind, Except.bind, pure, Except.pure]
  | set target =>
    obtain ⟨file', hput, hs, -, hplain⟩ := h.put hi (file.unset.newChild position ids).1
    refine ⟨file', (file.unset.newChild position ids).2, ?_, hs, ?_⟩
    · simp only [apply, hput, bind, Except.bind, pure, Except.pure]
    · rw [hplain, History.newChild, History.positions_child, h.unset]
      rfl
  | branch source target =>
    obtain ⟨hist, hget, hpos⟩ := h.get hi.1
    obtain ⟨file', hput, hs, -, hplain⟩ := h.put hi.2 (hist.newChild position ids).1
    refine ⟨file', (hist.newChild position ids).2, ?_, hs, ?_⟩
    · simp only [apply, hget, hput, bind, Except.bind, pure, Except.pure]
    · rw [hplain, History.newChild, History.positions_child, hpos]
      rfl
  | close target =>
    obtain ⟨file', hput, hs, -, hplain⟩ := h.put hi file.unset
    refine ⟨file', ids, ?_, hs, by rw [hplain, h.unset]; rfl⟩
    simp only [apply, hput, bind, Except.bind, pure, Except.pure]

/-- **Execution on plain registers.** A program whose registers lie in the file can be
executed, and does to the file what it does to the plain registers. -/
theorem execute_plain {program : List Instruction} (h : file.Sound size)
    (hp : ∀ i ∈ program, i.Within size) (position : Nat) (ids : IdSource) :
    ∃ file' ids', file.execute program position ids = .ok (file', ids') ∧ file'.Sound size ∧
      file'.plain = file.plain.execute program position := by
  induction program generalizing file ids with
  | nil => exact ⟨file, ids, rfl, h, rfl⟩
  | cons i rest ih =>
    obtain ⟨file₁, ids₁, happly, h₁, hplain₁⟩ :=
      apply_plain h (hp i List.mem_cons_self) position ids
    obtain ⟨file₂, ids₂, hexec, h₂, hplain₂⟩ :=
      ih h₁ (fun j hj => hp j (List.mem_cons_of_mem _ hj)) ids₁
    refine ⟨file₂, ids₂, ?_, h₂, by rw [hplain₂, hplain₁]; rfl⟩
    unfold execute at hexec ⊢
    rw [List.foldlM_cons, happly]
    exact hexec

/-- A register that is overwritten holds what is put there. -/
theorem get_put (hb : file.slots.IsBalanced) {r : Nat} {hist : History} {file' : RegisterFile}
    (hput : file.put r hist = .ok file') : file'.get r = .ok hist := by
  by_cases hr : r < file.slots.size
  · obtain ⟨slots, hmade, hbal, -, hlist⟩ := exists_put hb hr hist
    cases hmade.symm.trans hput
    have hlt : r < file.slots.toList.length := hb.length_toList.symm ▸ hr
    unfold RegisterFile.get
    rw [BalancedArray.get_eq hbal, hlist, List.getElem?_set_self hlt]
  · obtain ⟨slots, hset, -⟩ := bind_eq_ok.1 hput
    rw [BalancedArray.set_eq_error hb (Nat.le_of_not_lt hr) hist] at hset
    cases hset

/-- Writing a register changes no other one. -/
theorem get_put_of_ne (h : file.Sound size) {target r : Nat} {hist : History}
    {file' : RegisterFile} (hput : file.put target hist = .ok file') (hr : r ≠ target) :
    file'.get r = file.get r := by
  obtain ⟨slots, hset, hmade⟩ := bind_eq_ok.1 hput
  cases hmade
  have hbalanced := BalancedArray.isBalanced_set h.balanced hset
  have hlist := BalancedArray.toList_set h.balanced hset
  unfold RegisterFile.get
  rw [BalancedArray.get_eq hbalanced, BalancedArray.get_eq h.balanced, hlist,
    List.getElem?_set_ne hr.symm, BalancedArray.size_set h.balanced hset]

/-- An instruction only writes its target. -/
theorem exists_put_of_apply {i : Instruction} {position : Nat} {ids ids' : IdSource}
    {file' : RegisterFile} (h : apply position (file, ids) i = .ok (file', ids')) :
    ∃ hist, file.put i.target hist = .ok file' := by
  cases i with
  | copy source target | branch source target =>
    obtain ⟨hist, -, hrest⟩ := bind_eq_ok.1 h
    obtain ⟨put, hput, hmade⟩ := bind_eq_ok.1 hrest
    cases hmade
    exact ⟨_, hput⟩
  | set target | close target =>
    obtain ⟨put, hput, hmade⟩ := bind_eq_ok.1 h
    cases hmade
    exact ⟨_, hput⟩

/-- **The frame of a program.** A register that no instruction of the program writes holds the
same history afterwards. -/
theorem get_execute {program : List Instruction} (h : file.Sound size)
    (hp : ∀ i ∈ program, i.Within size) {position r : Nat} (hr : ∀ i ∈ program, i.target ≠ r)
    {ids ids' : IdSource} {file' : RegisterFile}
    (hexec : file.execute program position ids = .ok (file', ids')) :
    file'.get r = file.get r := by
  induction program generalizing file ids with
  | nil =>
    cases hexec
    rfl
  | cons i rest ih =>
    obtain ⟨file₁, ids₁, happly, h₁, -⟩ := apply_plain h (hp i List.mem_cons_self) position ids
    have hrest : file₁.execute rest position ids₁ = .ok (file', ids') := by
      unfold execute at hexec ⊢
      rw [List.foldlM_cons, happly] at hexec
      exact hexec
    obtain ⟨hist, hput⟩ := exists_put_of_apply happly
    have hne : r ≠ i.target := (hr i List.mem_cons_self).symm
    rw [ih h₁ (fun j hj => hp j (List.mem_cons_of_mem _ hj))
      (fun j hj => hr j (List.mem_cons_of_mem _ hj)) hrest, get_put_of_ne h hput hne]

theorem sound_fresh (size : Nat) (ids : IdSource) : (fresh size ids).1.Sound size :=
  ⟨BalancedArray.isBalanced_replicate .., rfl, rfl⟩

end RegisterFile

end Submatch
