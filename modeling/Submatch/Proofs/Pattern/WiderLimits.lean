import Mathlib
import Submatch.Proofs.Fault
import Submatch.Proofs.Pattern.Completion

/-!
# Wider limits

Limits refuse patterns and do nothing else. Under wider limits the reader does with every character
what it does under the narrower ones, unless those refuse it (`Reader.take_widens`), and so it goes
for whole texts (`Reader.run_widens`).

* `NumberedPattern.read_of_within`: what is read stays as it is under wider limits, and so does
  every error but those that are about a limit. Under any two limits a text is read alike unless one
  of them refuses it.
-/

namespace Submatch

/-- The error is about a limit. -/
def ReadCause.IsLimit : ReadCause → Prop
  | nestingTooDeep _ | repetitionTooLarge _ => True
  | unclosedGroup | unmatchedParen | unterminatedClass | descendingRange | nothingToRepeat
  | invalidRepetition | danglingEscape | unsupportedGroup => False

/-- The other limits allow at least as much. -/
structure Limits.Within (limits wider : Limits) : Prop where
  nesting : limits.maxNesting ≤ wider.maxNesting
  repetition : limits.maxRepetition ≤ wider.maxRepetition

/-- The limits refuse the text. -/
def Limits.Refuses (limits : Limits) (text : String) : Prop :=
  ∃ e, NumberedPattern.read limits text = .error e ∧ e.cause.IsLimit

/-- The second result is the first one, unless that is a refusal by a limit. -/
def Widens {α : Type} (x y : Except ReadFailure α) : Prop :=
  (∃ f, x = .error f ∧ f.cause.IsLimit) ∨ y = x

namespace Widens

variable {α β : Type} {x y : Except ReadFailure α}

theorem refl (x : Except ReadFailure α) : Widens x x := .inr rfl

theorem refused {f : ReadFailure} (h : f.cause.IsLimit) : Widens (.error f) y := .inl ⟨f, rfl, h⟩

theorem bind (h : Widens x y) {g g' : α → Except ReadFailure β} (hg : ∀ a, Widens (g a) (g' a)) :
    Widens (x >>= g) (y >>= g') := by
  rcases h with ⟨f, rfl, hf⟩ | rfl
  · exact refused hf
  · cases y with
    | error f => exact refl _
    | ok a => exact hg a

end Widens

namespace Reader

variable {limits wider : Limits}

/-- Only a parenthesis is about the limit on nesting. -/
theorem readItem_widens (h : limits.Within wider) (r : Reader) (c : Char) :
    Widens (r.readItem limits c) (r.readItem wider c) := by
  unfold readItem
  split
  · split
    · exact .refused trivial
    next hdepth =>
      have hnesting := h.nesting
      rw [if_neg (by omega)]
      exact .refl _
  all_goals exact .refl _

theorem readMark_widens (h : limits.Within wider) (r : Reader) (p : Pattern) (c : Char) :
    Widens (r.readMark limits p c) (r.readMark wider p c) := by
  unfold readMark
  split
  · exact .refl _
  · exact .refl _
  · exact .refl _
  · exact .refl _
  · exact readItem_widens h (r.push p) c

/-- Counts that do not exceed the limit do not exceed a wider one, and whether they run backwards is
no question of limits. -/
theorem repeatCounted_widens (h : limits.Within wider) (r : Reader) (p : Pattern)
    (start stop min : Nat) (max : Option Nat) :
    Widens (r.repeatCounted limits p start stop min max)
      (r.repeatCounted wider p start stop min max) := by
  by_cases hexceeded : limits.Exceeded min max
  · rw [repeatCounted_of_exceeded hexceeded]
    exact .refused trivial
  · have hwider : ¬ wider.Exceeded min max := by
      rintro (hmin | ⟨m, hm, hmax⟩)
      · exact hexceeded (.inl (Nat.lt_of_le_of_lt h.repetition hmin))
      · exact hexceeded (.inr ⟨m, hm, Nat.lt_of_le_of_lt h.repetition hmax⟩)
    by_cases hlt : ∃ m ∈ max, m < min
    · rw [repeatCounted_of_lt hexceeded hlt, repeatCounted_of_lt hwider hlt]
      exact .refl _
    · have hle : ∀ m ∈ max, min ≤ m := fun m hm =>
        Nat.le_of_not_lt fun hm' => hlt ⟨m, hm, hm'⟩
      rw [repeatCounted_of_le hexceeded hle, repeatCounted_of_le hwider hle]
      exact .refl _

/-- **Every character is read as before**, unless the narrower limits refuse it. -/
theorem take_widens (h : limits.Within wider) (r : Reader) (c : Char) :
    Widens (r.take limits c) (r.take wider c) := by
  unfold Reader.take
  cases r.mode with
  | item => exact readItem_widens h r c
  | atom p => exact readMark_widens h r p c
  | counter p k =>
    simp only
    split
    · exact .refl _
    · exact repeatCounted_widens h ..
    · exact readMark_widens h ..
  | repeated p min max =>
    simp only
    split
    · exact .refl _
    · exact readItem_widens h r.settle c
  | paren start =>
    simp only
    split
    · exact .refl _
    · exact readItem_widens h (r.openCapture start) c
  | escape | parenMark | bracket => exact .refl _

theorem step_widens (h : limits.Within wider) (r : Reader) (c : Char) :
    Widens (r.step limits c) (r.step wider c) :=
  (take_widens h r c).bind fun _ => .refl _

/-- **A text is read as before**, unless the narrower limits refuse it. -/
theorem run_widens (h : limits.Within wider) (r : Reader) (text : List Char) :
    Widens (r.run limits text) (r.run wider text) := by
  induction text generalizing r with
  | nil => exact .refl _
  | cons c text ih =>
    unfold Reader.run
    rw [List.foldlM_cons, List.foldlM_cons]
    exact (step_widens h r c).bind ih

end Reader

namespace NumberedPattern

variable {limits wider : Limits}

/-- Wider limits read the text as the narrower ones do, unless those refuse it. -/
theorem read_eq_of_within (h : limits.Within wider) {text : String}
    (hrefuses : ¬ limits.Refuses text) : read wider text = read limits text := by
  have hresult := (Reader.run_widens h Reader.initial text.toList).bind fun r => .refl r.finish
  rcases hresult with ⟨f, hf, hlimit⟩ | heq
  · refine absurd ⟨f.locate text.toList, ?_, hlimit⟩ hrefuses
    exact congrArg (Except.mapError (·.locate text.toList)) hf
  · exact congrArg (Except.mapError (·.locate text.toList)) heq

/-- **Limits only refuse.** Under wider limits a pattern that can be read is read as the same
pattern, with the same groups, and a text that is at fault for another reason than a limit is
reported with the same error. So any two limits make a difference for a text only if one of them
refuses it. -/
theorem read_of_within (h : limits.Within wider) (text : String) :
    (∀ n, read limits text = .ok n → read wider text = .ok n) ∧
      (∀ e, read limits text = .error e → ¬ e.cause.IsLimit → read wider text = .error e) ∧
      ∀ other : Limits, read limits text ≠ read other text →
        limits.Refuses text ∨ other.Refuses text := by
  refine ⟨fun n hread => ?_, fun e hread hcause => ?_, fun other hne => ?_⟩
  · rw [read_eq_of_within h, hread]
    rintro ⟨e, herror, -⟩
    rw [hread] at herror
    cases herror
  · rw [read_eq_of_within h, hread]
    rintro ⟨e', herror, hlimit⟩
    rw [hread] at herror
    cases herror
    exact hcause hlimit
  · -- both are compared with limits that are wider than either
    by_contra hnone
    obtain ⟨hlimits, hother⟩ := not_or.1 hnone
    let both : Limits := ⟨max limits.maxNesting other.maxNesting,
      max limits.maxRepetition other.maxRepetition⟩
    have hleft : limits.Within both := ⟨Nat.le_max_left .., Nat.le_max_left ..⟩
    have hright : other.Within both := ⟨Nat.le_max_right .., Nat.le_max_right ..⟩
    refine hne ?_
    rw [← read_eq_of_within hleft hlimits, ← read_eq_of_within hright hother]

/-- Limits that are just wide enough for a pattern, counts that run backwards behind a count at the
limit, and limits that refuse a group in different places. -/
theorem read_of_within_edge :
    (⟨1, 5⟩ : Limits).Within ⟨2, 9⟩ ∧
      (∃ n, read ⟨1, 5⟩ "(?:a{2,5}?|)b" = .ok n ∧ read ⟨2, 9⟩ "(?:a{2,5}?|)b" = .ok n) ∧
      read ⟨2, 9⟩ "(a{5}b{5,2}" = .error ⟨.invalidRepetition, 6, "{5,2}".toList⟩ ∧
      ((⟨1, 5⟩ : Limits).Refuses "((a{7}))" ∨ (⟨2, 6⟩ : Limits).Refuses "((a{7}))") := by
  have hwithin : (⟨1, 5⟩ : Limits).Within ⟨2, 9⟩ := ⟨by decide, by decide⟩
  have hread : ∃ n, read ⟨1, 5⟩ "(?:a{2,5}?|)b" = .ok n := by
    refine ⟨⟨.seq (.alt (.repeated (.char 'a') ⟨2, some 5, true⟩) .empty) (.char 'b'), #[0]⟩, ?_⟩
    cbv
  have herror : read ⟨1, 5⟩ "(a{5}b{5,2}" = .error ⟨.invalidRepetition, 6, "{5,2}".toList⟩ := by cbv
  have hdeep : read ⟨1, 5⟩ "((a{7}))" = .error ⟨.nestingTooDeep 1, 1, ['(']⟩ := by cbv
  have hlarge : read ⟨2, 6⟩ "((a{7}))" = .error ⟨.repetitionTooLarge 6, 3, "{7}".toList⟩ := by cbv
  obtain ⟨n, hn⟩ := hread
  refine ⟨hwithin, ⟨n, hn, (read_of_within hwithin _).1 n hn⟩,
    (read_of_within hwithin _).2.1 _ herror not_false, ?_⟩
  refine (read_of_within hwithin _).2.2 ⟨2, 6⟩ ?_
  rw [hdeep, hlarge]
  simp

end NumberedPattern

end Submatch
