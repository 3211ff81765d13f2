import Submatch.Automaton.Path
import Submatch.Pattern.Basic

/-!
# Groups that stop capturing

A `Selection` says which groups of a pattern go on capturing. The groups kept are numbered anew, in
the same order: the new number of a group is its `rank`, the number of groups kept before it.
`Pattern.select` leaves out the others, and `Motion.select` the moves that pass their boundaries.

* `rank_inj`: groups that are kept keep different numbers.
-/

namespace Submatch

/-- A choice of the groups that go on capturing. The whole pattern, group zero, always does. -/
structure Selection where
  /-- Whether the group with a number goes on capturing. -/
  keeps : Nat → Bool
  /-- The whole pattern is kept. -/
  zero : keeps 0 = true

namespace Selection

/-- The choice of all groups. -/
def all : Selection := ⟨fun _ => true, rfl⟩

/-- The choice of all groups but some. Group zero cannot be left out. -/
def without (groups : List Nat) : Selection :=
  ⟨fun g => g == 0 || !groups.contains g, rfl⟩

/-- The number of groups kept among the first `g`; of a group that is kept, its new number. -/
def rank (σ : Selection) : Nat → Nat
  | 0 => 0
  | g + 1 => σ.rank g + if σ.keeps g then 1 else 0

/-- The new number of a group, if it is kept. -/
def number? (σ : Selection) (g : Nat) : Option Nat :=
  if σ.keeps g then some (σ.rank g) else none

variable {σ : Selection} {g h : Nat}

@[simp] theorem rank_zero : σ.rank 0 = 0 := rfl

theorem rank_succ_of_keeps (hg : σ.keeps g = true) : σ.rank (g + 1) = σ.rank g + 1 := by
  rw [rank, if_pos hg]

theorem rank_succ_of_not_keeps (hg : σ.keeps g = false) : σ.rank (g + 1) = σ.rank g := by
  rw [rank, hg]
  rfl

@[simp] theorem rank_all (g : Nat) : all.rank g = g := by
  induction g with
  | zero => rfl
  | succ g ih => rw [rank_succ_of_keeps rfl, ih]

theorem rank_mono (hle : g ≤ h) : σ.rank g ≤ σ.rank h := by
  induction hle with
  | refl => exact Nat.le_refl _
  | step _ ih =>
    rw [rank]
    omega

theorem rank_lt (hg : σ.keeps g = true) (hlt : g < h) : σ.rank g < σ.rank h := by
  have hsucc := rank_succ_of_keeps hg
  have hmono := @rank_mono σ (g + 1) h hlt
  omega

/-- Groups that are kept keep different numbers. -/
theorem rank_inj (hg : σ.keeps g = true) (hh : σ.keeps h = true) :
    σ.rank g = σ.rank h ↔ g = h := by
  refine ⟨fun heq => ?_, fun heq => heq ▸ rfl⟩
  rcases Nat.lt_trichotomy g h with hlt | heq' | hlt
  · have := rank_lt hg hlt
    omega
  · exact heq'
  · have := rank_lt hh hlt
    omega

theorem number?_of_keeps (hg : σ.keeps g = true) : σ.number? g = some (σ.rank g) :=
  if_pos hg

theorem number?_of_not_keeps (hg : σ.keeps g = false) : σ.number? g = none := by
  rw [number?, hg]
  rfl

@[simp] theorem number?_all (g : Nat) : all.number? g = some g := by
  rw [number?_of_keeps rfl, rank_all]

end Selection

/-- A group boundary with the new number of the group. -/
def Tag.select (σ : Selection) (tag : Tag) : Tag := { tag with group := σ.rank tag.group }

/-- A move without the boundary of a group that is left out. -/
def Motion.select? (σ : Selection) : Motion → Option Motion
  | .pass tag => if σ.keeps tag.group then some (.pass (tag.select σ)) else none
  | m => some m

/-- Moves without the boundaries of the groups that are left out. -/
def Motion.select (σ : Selection) (ms : List Motion) : List Motion :=
  ms.filterMap (Motion.select? σ)

namespace Pattern

/-- The pattern in which only the groups kept capture. -/
def select (σ : Selection) : Pattern → Pattern
  | .empty => .empty
  | .char c => .char c
  | .set ranges => .set ranges
  | .any => .any
  | .seq left right => .seq (left.select σ) (right.select σ)
  | .alt left right => .alt (left.select σ) (right.select σ)
  | .repeated body q => .repeated (body.select σ) q
  | .group index body =>
    match σ.number? index with
    | some number => .group number (body.select σ)
    | none => body.select σ

variable {σ : Selection}

@[simp] theorem select_char (c : Char) : (char c).select σ = char c := rfl

@[simp] theorem select_set (ranges : List SymbolRange) : (set ranges).select σ = set ranges := rfl

@[simp] theorem select_any : any.select σ = any := rfl

@[simp] theorem select_repeated (body : Pattern) (q : Quantifier) :
    (repeated body q).select σ = repeated (body.select σ) q := rfl

theorem select_group_of_keeps {index : Nat} (h : σ.keeps index = true) (body : Pattern) :
    (group index body).select σ = .group (σ.rank index) (body.select σ) := by
  rw [select, Selection.number?_of_keeps h]

theorem select_group_of_not_keeps {index : Nat} (h : σ.keeps index = false) (body : Pattern) :
    (group index body).select σ = body.select σ := by
  rw [select, Selection.number?_of_not_keeps h]

/-- A pattern of which all groups are kept stays as it is. -/
@[simp] theorem select_all (p : Pattern) : p.select .all = p := by
  induction p with
  | empty | char | set | any => rfl
  | seq left right ihl ihr => rw [select, ihl, ihr]
  | alt left right ihl ihr => rw [select, ihl, ihr]
  | repeated body q ih => rw [select, ih]
  | group index body ih => rw [select_group_of_keeps rfl, ih, Selection.rank_all]

@[simp] theorem map_select_all (ps : List Pattern) : ps.map (select .all) = ps := by
  rw [List.map_congr_left fun p _ => select_all p, List.map_id']

/-- Whatever keeps sequences of two keeps sequences. -/
theorem map_seqAll {F : Pattern → Pattern} (hempty : F empty = empty)
    (hseq : ∀ p q, F (seq p q) = seq (F p) (F q)) (ps : List Pattern) :
    F (seqAll ps) = seqAll (ps.map F) := by
  induction ps with
  | nil => exact hempty
  | cons p ps ih =>
    cases ps with
    | nil => rfl
    | cons q qs =>
      rw [seqAll_cons_cons, hseq, ih]
      rfl

/-- Whatever keeps choices of two keeps choices. -/
theorem map_altAll {F : Pattern → Pattern} (hempty : F empty = empty)
    (halt : ∀ p q, F (alt p q) = alt (F p) (F q)) (ps : List Pattern) :
    F (altAll ps) = altAll (ps.map F) := by
  induction ps with
  | nil => exact hempty
  | cons p ps ih =>
    cases ps with
    | nil => rfl
    | cons q qs =>
      rw [altAll_cons_cons, halt, ih]
      rfl

@[simp] theorem select_seqAll (σ : Selection) (ps : List Pattern) :
    (seqAll ps).select σ = seqAll (ps.map (select σ)) :=
  map_seqAll rfl (fun _ _ => rfl) ps

@[simp] theorem select_altAll (σ : Selection) (ps : List Pattern) :
    (altAll ps).select σ = altAll (ps.map (select σ)) :=
  map_altAll rfl (fun _ _ => rfl) ps

end Pattern

end Submatch
