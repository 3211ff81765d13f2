import Submatch.Proofs.Dfa.Frontier
import Submatch.Proofs.Order.Appearance

/-!
# Canonical numberings of registers

`Frontier.registers` reads the registers of a frontier thread by thread and tag by tag. A frontier
is canonical if its registers first appear there in the order of their numbers. Every frontier that
a step reaches is (`canonical_initial`, `canonical_advance`), and no renaming makes one canonical
frontier of another (`Canonical.rename_eq`).
-/

namespace Submatch.Frontier

variable {f : Frontier} {ρ : Nat → Nat}

/-- The registers of a frontier, thread by thread and tag by tag. -/
def registers (f : Frontier) : List Nat :=
  f.threads.flatMap fun t => t.cells.filterMap fun cell => cell

/-- The registers first appear in the order of their numbers, and no number is left out. -/
def Canonical (f : Frontier) : Prop := f.registers.eraseDups = List.range f.registerCount

/-- The frontier with other names for its registers. -/
def rename (ρ : Nat → Nat) (f : Frontier) : Frontier :=
  ⟨f.threads.map fun t => ⟨t.node, t.cells.map (Option.map ρ)⟩⟩

theorem mem_registers {r : Nat} : r ∈ f.registers ↔ ∃ t ∈ f.threads, some r ∈ t.cells := by
  unfold registers
  simp only [List.mem_flatMap, List.mem_filterMap, exists_eq_right]

theorem registerCount_le_iff_registers {bound : Nat} :
    f.registerCount ≤ bound ↔ ∀ r ∈ f.registers, r < bound := by
  rw [registerCount_le_iff]
  constructor
  · intro h r hr
    obtain ⟨t, ht, hcell⟩ := mem_registers.1 hr
    exact h t ht r hcell
  · intro h t ht r hcell
    exact h r (mem_registers.2 ⟨t, ht, hcell⟩)

/-- Registers that first appear in the order of their numbers are as many as are in use. -/
theorem canonical_of_eraseDups {count : Nat} (h : f.registers.eraseDups = List.range count) :
    f.Canonical := by
  have hmem : ∀ r, r ∈ f.registers ↔ r < count := by
    intro r
    rw [← List.mem_eraseDups, h, List.mem_range]
  have hle : f.registerCount ≤ count :=
    registerCount_le_iff_registers.2 fun r hr => (hmem r).1 hr
  have hge : count ≤ f.registerCount := by
    by_contra hlt
    have hcount : f.registerCount < f.registerCount :=
      registerCount_le_iff_registers.1 (Nat.le_refl _) _ ((hmem _).2 (Nat.lt_of_not_le hlt))
    omega
  have heq : f.registerCount = count := Nat.le_antisymm hle hge
  unfold Canonical
  rw [heq, h]

/-- The registers of a frontier are the numbers of what its threads hold. -/
theorem registers_ofLandings (landings : List Landing) :
    (ofLandings landings).registers =
      (landings.flatMap Landing.held).filterMap (values landings).number? := by
  have hthread : ∀ l : Landing, ((threadOf (values landings) l).cells.filterMap fun cell => cell) =
      l.held.filterMap (values landings).number? := by
    intro l
    unfold threadOf Landing.held
    rw [List.filterMap_map, List.filterMap_filterMap]
    rfl
  unfold registers ofLandings
  rw [List.flatMap_map, List.filterMap_flatMap]
  exact List.flatMap_congr fun l _ => hthread l

/-- The registers first appear in the order in which the contents are numbered. -/
theorem eraseDups_registers_ofLandings (landings : List Landing) :
    (ofLandings landings).registers.eraseDups = List.range (values landings).size := by
  rw [registers_ofLandings]
  exact Numbering.eraseDups_numbers _

/-- **Frontiers of landings are canonical.** -/
theorem canonical_ofLandings (landings : List Landing) : (ofLandings landings).Canonical :=
  canonical_of_eraseDups (eraseDups_registers_ofLandings landings)

/-- There is a register for every content that is held. -/
theorem mem_registers_ofLandings {landings : List Landing} {r : Nat} :
    r ∈ (ofLandings landings).registers ↔ r < (values landings).size := by
  rw [← List.mem_eraseDups, eraseDups_registers_ofLandings, List.mem_range]

variable {A : Automaton} {layout : Layout} {program : List Instruction}

theorem canonical_settle {arrivals : List (Arrival (List (Option Nat)))} {previous : Nat}
    (h : settle layout arrivals previous = .ok (.reach f program)) : f.Canonical := by
  unfold settle at h
  split at h
  · cases h
  · obtain ⟨instructions, -, hreach⟩ := bind_eq_ok.1 h
    cases hreach
    exact canonical_ofLandings _

theorem canonical_initial (h : initial A layout = .ok (.reach f program)) : f.Canonical := by
  obtain ⟨arrivals, -, hsettle⟩ := bind_eq_ok.1 h
  exact canonical_settle hsettle

theorem canonical_advance {g : Frontier} {symbol : Nat}
    (h : g.advance A layout symbol = .ok (.reach f program)) : f.Canonical := by
  obtain ⟨seeds, -, hseeds⟩ := bind_eq_ok.1 h
  simp only at hseeds
  split at hseeds
  · cases hseeds
  · obtain ⟨arrivals, -, hsettle⟩ := bind_eq_ok.1 hseeds
    exact canonical_settle hsettle

theorem registers_rename (ρ : Nat → Nat) (f : Frontier) :
    (f.rename ρ).registers = f.registers.map ρ := by
  have hcells : ∀ cells : List (Option Nat),
      ((cells.map (Option.map ρ)).filterMap fun cell => cell) =
        (cells.filterMap fun cell => cell).map ρ := by
    intro cells
    rw [List.filterMap_map, List.map_filterMap]
    rfl
  unfold registers rename
  rw [List.flatMap_map, List.map_flatMap]
  exact List.flatMap_congr fun t _ => hcells t.cells

theorem rename_of_fixed (h : ∀ r ∈ f.registers, ρ r = r) : f.rename ρ = f := by
  have hcell : ∀ t ∈ f.threads, ∀ cell ∈ t.cells, cell.map ρ = cell := by
    intro t ht cell hcell
    cases cell with
    | none => rfl
    | some r => exact congrArg some (h r (mem_registers.2 ⟨t, ht, hcell⟩))
  have hthread : ∀ t ∈ f.threads, (⟨t.node, t.cells.map (Option.map ρ)⟩ : Thread) = t := by
    intro t ht
    rw [List.map_congr_left (hcell t ht), List.map_id']
  unfold rename
  rw [List.map_congr_left hthread, List.map_id']

/-- **Canonical frontiers that differ in naming alone are equal.** -/
theorem Canonical.rename_eq (hf : f.Canonical) (hrename : (f.rename ρ).Canonical)
    (hρ : Set.InjOn ρ {r | r ∈ f.registers}) : f.rename ρ = f := by
  have hnames : (List.range f.registerCount).map ρ = List.range (f.rename ρ).registerCount := by
    rw [← hf, ← hrename, registers_rename, Order.eraseDups_map hρ]
  have hcount : f.registerCount = (f.rename ρ).registerCount := by
    have hlength := congrArg List.length hnames
    simpa using hlength
  refine rename_of_fixed fun r hr => ?_
  have hlt : r < f.registerCount := registerCount_le_iff_registers.1 (Nat.le_refl _) r hr
  have hname := congrArg (·[r]?) hnames
  simp only [List.getElem?_map, List.getElem?_range hlt, List.getElem?_range (hcount ▸ hlt),
    Option.map_some, Option.some_inj] at hname
  exact hname

end Submatch.Frontier
