import Mathlib.Data.List.Nodup
import Submatch.Register.Origins

/-!
# The log of histories

All histories that draw their numbers from one source are kept in a log, each with its birth, in
the order in which they are made (`Recorded`). As long as there are numbers enough, the log is
numbered from zero on (`Recorded.ids`), numbers get smaller from a history to its parent
(`Recorded.descends`), and both the number and the birth of an entry tell which one it is
(`Recorded.eq_of_id_eq`, `Recorded.eq_of_birth_eq`). A history `Stems` from a lineage if it was
made in the first birth of the lineage and its parent stems from the others.
-/

namespace Submatch

/-- The numbers get smaller from every history of the chain to its parent, down to the root. -/
inductive History.Descends : History → Prop where
  | unset (id : Nat) : Descends (unset id)
  | child {id position : Nat} {parent : History} (lt : parent.id < id) (h : parent.Descends) :
      Descends (child id position parent)

/-- The steps of an enumeration are at most one more than the number of the history. -/
theorem History.Descends.enumerate_eq {h : History} (hd : h.Descends) {steps : Nat}
    (hsteps : h.id < steps) : enumerate steps (some h) = some h.entries := by
  -- Along the chain, the steps that are left stay above the number of what is left.
  induction hd generalizing steps with
  | unset id =>
    obtain ⟨n, rfl⟩ := Nat.exists_eq_add_one_of_ne_zero (Nat.ne_zero_of_lt hsteps)
    simp [enumerate, value?, parent?]
  | @child id position parent lt _ ih =>
    obtain ⟨n, rfl⟩ := Nat.exists_eq_add_one_of_ne_zero (Nat.ne_zero_of_lt hsteps)
    have hparent : parent.id < n := Nat.lt_of_lt_of_le lt (Nat.le_of_lt_succ hsteps)
    simp [enumerate, value?, parent?, ih hparent]

/-- One birth comes before another one. -/
def Birth.Before (b c : Birth) : Prop :=
  b.operation < c.operation ∨ b.operation = c.operation ∧ b.instruction < c.instruction

theorem Birth.before_next (b : Birth) : b.Before b.next := .inr ⟨rfl, Nat.lt_succ_self _⟩

theorem Birth.Before.trans {a b c : Birth} (hab : a.Before b) (hbc : b.Before c) :
    a.Before c := by
  unfold Before at *
  omega

theorem Birth.Before.ne {b c : Birth} (h : b.Before c) : b ≠ c := by
  rintro rfl
  unfold Before at h
  omega

/-- A log of histories with their births, as it grows. A new history gets the number that is next,
is born after the others, and extends one of them unless it is a root. -/
inductive Recorded : List (History × Birth) → Prop where
  | nil : Recorded []
  | snoc {log : List (History × Birth)} {h : History} {b : Birth} (hlog : Recorded log)
      (id_eq : h.id = log.length % IdSource.capacity)
      (before : ∀ entry ∈ log, entry.2.Before b)
      (parent : ∀ k, h.parent? = some k → ∃ c, (k, c) ∈ log) : Recorded (log ++ [(h, b)])

/-- The history was made in the first birth of the lineage, and its parent stems from the rest. -/
inductive Stems (log : List (History × Birth)) : History → Lineage → Prop where
  | unset {id : Nat} {b : Birth} (mem : (.unset id, b) ∈ log) : Stems log (.unset id) [b]
  | child {id position : Nat} {parent : History} {b : Birth} {l : Lineage}
      (mem : (.child id position parent, b) ∈ log) (h : Stems log parent l) :
      Stems log (.child id position parent) (b :: l)

variable {log later : List (History × Birth)} {h k : History} {b c : Birth} {l : Lineage}

namespace Recorded

/-- **Numbers of a log.** The histories are numbered in the order in which they are made. -/
theorem ids (hlog : Recorded log) (hfew : log.length ≤ IdSource.capacity) :
    log.map (fun entry => entry.1.id) = List.range log.length := by
  induction hlog with
  | nil => rfl
  | @snoc log h b _ id_eq _ _ ih =>
    rw [List.length_append, List.length_singleton] at hfew ⊢
    -- Numbers have not run out, so the new one is the length of the log so far.
    have hid : h.id = log.length := by rw [id_eq, Nat.mod_eq_of_lt (by omega)]
    rw [List.map_append, ih (by omega), List.range_succ, List.map_singleton, hid]

/-- Different entries have different births. -/
theorem nodup_births (hlog : Recorded log) : (log.map Prod.snd).Nodup := by
  induction hlog with
  | nil => exact List.nodup_nil
  | @snoc log h b _ _ before _ ih =>
    rw [List.map_append, List.map_singleton, List.nodup_append]
    refine ⟨ih, List.nodup_singleton b, fun c hc d hd => ?_⟩
    obtain ⟨entry, hentry, rfl⟩ := List.mem_map.1 hc
    obtain rfl := List.mem_singleton.1 hd
    exact (before entry hentry).ne

/-- The parent of a history was made before it and has a smaller number. -/
theorem descends (hlog : Recorded log) (hfew : log.length ≤ IdSource.capacity) :
    ∀ entry ∈ log, entry.1.Descends := by
  induction hlog with
  | nil => exact fun entry hentry => absurd hentry List.not_mem_nil
  | @snoc log h b hlog id_eq _ parent ih =>
    rw [List.length_append, List.length_singleton] at hfew
    have hold := ih (by omega)
    refine List.forall_mem_append.2 ⟨hold, List.forall_mem_singleton.2 ?_⟩
    cases h with
    | unset id => exact .unset id
    | child id position k =>
      -- The parent is in the log already, and what is there has the numbers below its length.
      obtain ⟨c, hc⟩ := parent k rfl
      have hk : k.id ∈ log.map (fun entry => entry.1.id) := List.mem_map_of_mem hc
      rw [hlog.ids (by omega), List.mem_range] at hk
      have hid : id = log.length := id_eq.trans (Nat.mod_eq_of_lt (by omega))
      exact .child (hid ▸ hk) (hold _ hc)

/-- **The number of a history tells which one it is.** -/
theorem eq_of_id_eq (hlog : Recorded log) (hfew : log.length ≤ IdSource.capacity)
    (hb : (h, b) ∈ log) (hc : (k, c) ∈ log) (hid : h.id = k.id) : h = k ∧ b = c := by
  have hnodup : (log.map (fun entry => entry.1.id)).Nodup := hlog.ids hfew ▸ List.nodup_range
  exact Prod.mk.inj (List.inj_on_of_nodup_map hnodup hb hc hid)

/-- The birth of a history tells which one it is. -/
theorem eq_of_birth_eq (hlog : Recorded log) (hb : (h, b) ∈ log) (hc : (k, b) ∈ log) : h = k :=
  congrArg Prod.fst (List.inj_on_of_nodup_map hlog.nodup_births hb hc rfl)

end Recorded

namespace Stems

/-- A history that stems from a lineage was made in the first birth of it. -/
theorem exists_mem (h : Stems log k l) : ∃ b, l.head? = some b ∧ (k, b) ∈ log := by
  cases h with
  | unset mem => exact ⟨_, rfl, mem⟩
  | child mem => exact ⟨_, rfl, mem⟩

/-- The lineage of the parent follows. -/
theorem parent (h : Stems log k l) : Option.Rel (Stems log) k.parent? l.parent? := by
  cases h with
  | unset => exact .none
  | child _ h =>
    cases h with
    | unset mem => exact .some (.unset mem)
    | child mem h => exact .some (.child mem h)

theorem mono (hsub : log ⊆ later) (h : Stems log k l) : Stems later k l := by
  induction h with
  | unset mem => exact .unset (hsub mem)
  | child mem _ ih => exact .child (hsub mem) ih

end Stems

end Submatch
