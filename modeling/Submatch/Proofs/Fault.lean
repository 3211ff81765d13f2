import Submatch.Fault

/-!
# Computations that can fail

What is known of a computation from its parts: both parts of one that succeeds do
(`bind_eq_ok`), an invariant that every step keeps is kept by a run of them
(`foldlM_ok`, `foldlM_keeps`), and a run that fails does so at one of its steps
(`exists_step_of_foldlM_error`). Two computations that fail together and otherwise go on from
related results to related results are related throughout (`rel_bind`, `foldlM_rel`).
-/

namespace Submatch

variable {ε α β σ : Type}

/-- A computation succeeds with a result if its first part does and the rest goes on to it. -/
theorem bind_eq_ok {x : Except ε α} {f : α → Except ε β} {b : β} :
    x >>= f = .ok b ↔ ∃ a, x = .ok a ∧ f a = .ok b := by
  constructor
  · intro h
    cases x with
    | error failure => cases h
    | ok a => exact ⟨a, rfl, h⟩
  · rintro ⟨a, rfl, h⟩
    exact h

/-- A function that succeeds on every element of a list succeeds on the list. -/
theorem mapM_ok {f : α → Except ε β} {g : α → β} {l : List α} (h : ∀ a ∈ l, f a = .ok (g a)) :
    l.mapM f = .ok (l.map g) := by
  induction l with
  | nil => rfl
  | cons a l ih =>
    have hrest := ih fun b hb => h b (List.mem_cons_of_mem _ hb)
    rw [List.mapM_cons, h a List.mem_cons_self, hrest]
    rfl

variable {step : σ → α → Except ε σ} {Inv : σ → Prop}

/-- Steps that succeed and keep an invariant make up a run that does. -/
theorem foldlM_ok (hstep : ∀ s a, Inv s → ∃ s', step s a = .ok s' ∧ Inv s') (l : List α) {s : σ}
    (hs : Inv s) : ∃ s', l.foldlM step s = .ok s' ∧ Inv s' := by
  induction l generalizing s with
  | nil => exact ⟨s, rfl, hs⟩
  | cons a l ih =>
    obtain ⟨s₁, hs₁, hinv₁⟩ := hstep s a hs
    obtain ⟨s₂, hs₂, hinv₂⟩ := ih hinv₁
    refine ⟨s₂, ?_, hinv₂⟩
    rw [List.foldlM_cons, hs₁]
    exact hs₂

/-- Where every step that succeeds keeps an invariant, so does a run that succeeds. -/
theorem foldlM_keeps (hstep : ∀ s a s', Inv s → step s a = .ok s' → Inv s') {l : List α}
    {s s' : σ} (hs : Inv s) (h : l.foldlM step s = .ok s') : Inv s' := by
  induction l generalizing s with
  | nil =>
    cases h
    exact hs
  | cons a l ih =>
    rw [List.foldlM_cons, bind_eq_ok] at h
    obtain ⟨s₁, hs₁, hrest⟩ := h
    exact ih (hstep s a s₁ hs hs₁) hrest

/-- A run that fails does so at one of its steps, up to which it succeeds. -/
theorem exists_step_of_foldlM_error {l : List α} {s : σ} {e : ε} (h : l.foldlM step s = .error e) :
    ∃ before a after s', l = before ++ a :: after ∧ before.foldlM step s = .ok s' ∧
      step s' a = .error e := by
  induction l generalizing s with
  | nil => cases h
  | cons a l ih =>
    rw [List.foldlM_cons] at h
    cases ha : step s a with
    | error e' =>
      rw [ha] at h
      cases h
      exact ⟨[], a, l, s, rfl, rfl, ha⟩
    | ok s₁ =>
      rw [ha] at h
      obtain ⟨before, b, after, s₂, rfl, hbefore, hb⟩ := ih h
      refine ⟨a :: before, b, after, s₂, rfl, ?_, hb⟩
      rw [List.foldlM_cons, ha]
      exact hbefore

theorem toOption_bind (x : Except ε α) (f : α → Except ε β) :
    (x >>= f).toOption = x.toOption >>= fun a => (f a).toOption := by
  cases x <;> rfl

theorem toOption_eq_some {x : Except ε α} {a : α} : x.toOption = some a ↔ x = .ok a := by
  cases x <;> simp [Except.toOption]

theorem toOption_eq_none {x : Except ε α} : x.toOption = none ↔ ∃ e, x = .error e := by
  cases x <;> simp [Except.toOption]

section SideBySide

variable {γ δ τ : Type} {R : α → β → Prop} {S : γ → δ → Prop} {x : Option α} {y : Option β}

/-- Two computations go on side by side from related results. -/
theorem rel_bind {f : α → Option γ} {g : β → Option δ} (h : Option.Rel R x y)
    (hfg : ∀ a b, R a b → Option.Rel S (f a) (g b)) : Option.Rel S (x >>= f) (y >>= g) := by
  cases h with
  | some hab => exact hfg _ _ hab
  | none => exact .none

/-- Two related computations fail together or have related results. -/
theorem rel_cases (h : Option.Rel R x y) :
    x = none ∧ y = none ∨ ∃ a b, x = some a ∧ y = some b ∧ R a b := by
  cases h with
  | some hab => exact .inr ⟨_, _, rfl, rfl, hab⟩
  | none => exact .inl ⟨rfl, rfl⟩

/-- Steps that keep states related make up runs that do. -/
theorem foldlM_rel {f : σ → α → Option σ} {g : τ → α → Option τ} {Related : σ → τ → Prop}
    (hstep : ∀ s t a, Related s t → Option.Rel Related (f s a) (g t a)) (l : List α) {s : σ}
    {t : τ} (h : Related s t) : Option.Rel Related (l.foldlM f s) (l.foldlM g t) := by
  induction l generalizing s t with
  | nil => exact .some h
  | cons a l ih =>
    rw [List.foldlM_cons, List.foldlM_cons]
    exact rel_bind (hstep s t a h) fun _ _ hrest => ih hrest

end SideBySide

end Submatch
