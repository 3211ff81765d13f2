/-!
# Erasing repeats

`List.eraseRepsBy` keeps the first of every run of elements that a relation connects. From
an ascending list it takes the repeats away and nothing else (`mem_eraseReps`,
`pairwise_eraseReps`), and from a list without repeats it takes nothing
(`eraseRepsBy_of_pairwise`).
-/

namespace Submatch.Order

variable {α : Type} {r : α → α → Bool}

theorem eraseRepsBy_loop (a : α) (as acc : List α) :
    List.eraseRepsBy.loop r a as acc = acc.reverse ++ (a :: as).eraseRepsBy r := by
  induction as generalizing a acc with
  | nil => simp [List.eraseRepsBy, List.eraseRepsBy.loop]
  | cons b as ih =>
    simp only [List.eraseRepsBy, List.eraseRepsBy.loop]
    cases r a b with
    | true => exact ih a acc
    | false =>
      simp only [ih b (a :: acc), ih b [a]]
      simp

theorem eraseRepsBy_cons_cons (a b : α) (as : List α) :
    (a :: b :: as).eraseRepsBy r =
      if r a b then (a :: as).eraseRepsBy r else a :: (b :: as).eraseRepsBy r := by
  simp only [List.eraseRepsBy, List.eraseRepsBy.loop]
  cases r a b with
  | true => rfl
  | false => exact eraseRepsBy_loop b as [a]

theorem eraseRepsBy_of_pairwise {l : List α} (h : l.Pairwise fun a b => r a b = false) :
    l.eraseRepsBy r = l := by
  induction l with
  | nil => rfl
  | cons a as ih =>
    cases as with
    | nil => rfl
    | cons b as =>
      obtain ⟨hab, hrest⟩ := List.pairwise_cons.1 h
      rw [eraseRepsBy_cons_cons, hab b List.mem_cons_self, ih hrest]
      rfl

theorem mem_eraseReps {x : Nat} {l : List Nat} : x ∈ l.eraseReps ↔ x ∈ l := by
  unfold List.eraseReps
  induction l with
  | nil => rfl
  | cons a as ih =>
    cases as with
    | nil => rfl
    | cons b as =>
      rw [eraseRepsBy_cons_cons]
      by_cases hab : a = b
      · subst hab
        rw [if_pos (beq_self_eq_true a), ih]
        simp
      · rw [if_neg (by simpa using hab), List.mem_cons, ih, List.mem_cons (b := a)]

theorem pairwise_eraseReps {l : List Nat} (h : l.Pairwise (· ≤ ·)) :
    l.eraseReps.Pairwise (· < ·) := by
  induction l with
  | nil => exact .nil
  | cons a as ih =>
    obtain ⟨ha, has⟩ := List.pairwise_cons.1 h
    cases as with
    | nil => exact List.pairwise_singleton ..
    | cons b as =>
      unfold List.eraseReps at ih ⊢
      rw [eraseRepsBy_cons_cons]
      by_cases hab : a = b
      · subst hab
        rw [if_pos (beq_self_eq_true a)]
        exact ih has
      · rw [if_neg (by simpa using hab)]
        refine List.pairwise_cons.2 ⟨fun x hx => ?_, ih has⟩
        have hx' : x ∈ b :: as := mem_eraseReps.1 hx
        have hb := ha b List.mem_cons_self
        rcases List.mem_cons.1 hx' with rfl | hx'
        · omega
        · have := (List.pairwise_cons.1 has).1 x hx'
          omega

end Submatch.Order
