import Submatch.Config
import Submatch.Pattern.Counter

/-!
# The text of counters

A counter is known from its text alone (`Counter.Spells`). What has been read of one spells the
counts that it holds, cut off at the ceiling (`CounterPhase.Reads`): every character that belongs to
it keeps this so (`CounterPhase.Reads.step`), and the text is a counter once it is complete
(`CounterPhase.Reads.exists_spells`). A limit below the ceiling is exceeded by a count that is cut
off just when it is exceeded by the number written (`Limits.Compares`).
-/

namespace Submatch

/-- A number as far as counts are read exactly. -/
def cutOff (n : Nat) : Nat := min countCeiling n

theorem addDigit_cutOff (n d : Nat) : addDigit (cutOff n) d = cutOff (10 * n + d) := by
  unfold addDigit cutOff countCeiling
  omega

theorem digit?_of_isDigit {c : Char} (h : c.isDigit = true) : digit? c = some (c.toNat - 48) :=
  if_pos h

theorem digit?_eq_some {c : Char} {d : Nat} (h : digit? c = some d) :
    c.isDigit = true ∧ d = c.toNat - 48 := by
  unfold digit? at h
  split at h
  next hdigit => exact ⟨hdigit, (Option.some.inj h).symm⟩
  next => cases h

namespace Counter

/-- Decimal digits, at least one. -/
structure Digits (ds : List Char) : Prop where
  ne_nil : ds ≠ []
  isDigit : ∀ c ∈ ds, c.isDigit = true

theorem digits_singleton {c : Char} (h : c.isDigit = true) : Digits [c] :=
  ⟨List.cons_ne_nil c [], List.forall_mem_singleton.2 h⟩

/-- The number that decimal digits write. -/
def value (ds : List Char) : Nat := Nat.ofDigitChars 10 ds 0

/-- The text is a counter, and these are the numbers in it: both bounds are the one number, there is
no upper bound, or the bounds are two numbers. -/
inductive Spells : List Char → Nat → Option Nat → Prop
  | exactly {ds : List Char} (h : Digits ds) :
    Spells ('\x7b' :: ds ++ ['\x7d']) (value ds) (some (value ds))
  | atLeast {ds : List Char} (h : Digits ds) :
    Spells ('\x7b' :: ds ++ [',', '\x7d']) (value ds) none
  | between {ds es : List Char} (h : Digits ds) (h' : Digits es) :
    Spells ('\x7b' :: ds ++ ',' :: es ++ ['\x7d']) (value ds) (some (value es))

/-- Behind the brace of a counter there is a digit. -/
theorem Spells.exists_digit {text : List Char} {min : Nat} {max : Option Nat}
    (h : Spells text min max) : ∃ c more, c.isDigit = true ∧ text = '\x7b' :: c :: more := by
  have hdigit : ∀ {ds : List Char}, Digits ds → ∃ c more, c.isDigit = true ∧ ds = c :: more := by
    intro ds hds
    obtain ⟨c, more, rfl⟩ := List.exists_cons_of_ne_nil hds.ne_nil
    exact ⟨c, more, hds.isDigit c List.mem_cons_self, rfl⟩
  cases h with
  | exactly h =>
    obtain ⟨c, more, hc, rfl⟩ := hdigit h
    exact ⟨c, _, hc, rfl⟩
  | atLeast h =>
    obtain ⟨c, more, hc, rfl⟩ := hdigit h
    exact ⟨c, _, hc, rfl⟩
  | between h h' =>
    obtain ⟨c, more, hc, rfl⟩ := hdigit h
    exact ⟨c, _, hc, rfl⟩

/-- The characters read of a counter. -/
def text (k : Counter) : List Char := k.earlier.reverse ++ [k.last]

theorem value_concat (ds : List Char) (c : Char) :
    value (ds ++ [c]) = 10 * value ds + (c.toNat - 48) := by
  unfold value
  rw [Nat.ofDigitChars_append]
  rfl

/-- The digits read of a count, and what they amount to. -/
inductive Counts : Option Nat → List Char → Prop
  | none : Counts none []
  | some {ds : List Char} (h : Digits ds) : Counts (some (cutOff (value ds))) ds

theorem Counts.eq_some {count : Option Nat} {ds : List Char} (h : Counts count ds) (hne : ds ≠ []) :
    Digits ds ∧ count = .some (cutOff (value ds)) := by
  cases h with
  | none => exact absurd rfl hne
  | some h => exact ⟨h, rfl⟩

/-- One more digit of a count. -/
theorem Counts.concat {count : Option Nat} {ds : List Char} (h : Counts count ds) {c : Char}
    (hc : c.isDigit = true) :
    Counts (.some (addDigit (count.getD 0) (c.toNat - 48))) (ds ++ [c]) := by
  have hdigits : Digits (ds ++ [c]) := by
    refine ⟨by simp, fun d hd => ?_⟩
    rcases List.mem_append.1 hd with hd | hd
    · cases h with
      | none => cases hd
      | some h => exact h.isDigit d hd
    · obtain rfl := List.mem_singleton.1 hd
      exact hc
  have hvalue : addDigit (count.getD 0) (c.toNat - 48) = cutOff (value (ds ++ [c])) := by
    rw [value_concat, ← addDigit_cutOff]
    cases h with
    | none => rfl
    | some h => rfl
  rw [hvalue]
  exact .some hdigits

end Counter

/-- What has been read of a counter, and what it amounts to. -/
inductive CounterPhase.Reads : CounterPhase → List Char → Prop
  | first {count : Option Nat} {ds : List Char} (h : Counter.Counts count ds) :
    Reads (.first count) ('\x7b' :: ds)
  | second {count : Option Nat} {ds es : List Char} (h : Counter.Digits ds)
      (h' : Counter.Counts count es) :
    Reads (.second (cutOff (Counter.value ds)) count) ('\x7b' :: ds ++ ',' :: es)

namespace Counter

variable {k k' : Counter} {c : Char}

theorem text_extend (k : Counter) (c : Char) (phase : CounterPhase) :
    (k.extend c phase).text = k.text ++ [c] := by
  unfold text extend
  rw [List.reverse_cons]

theorem reads_opened (start : Nat) : (opened start).phase.Reads (opened start).text := .first .none

/-- A counter goes on by a digit or a comma. -/
theorem step_eq_more (h : k.step c = .more k') :
    (c.isDigit = true ∨ c = ',') ∧ ∃ phase, k' = k.extend c phase := by
  unfold step at h
  split at h
  next hdigit _ =>
    cases h
    exact ⟨.inl (digit?_eq_some hdigit).1, _, rfl⟩
  next hdigit _ =>
    cases h
    exact ⟨.inl (digit?_eq_some hdigit).1, _, rfl⟩
  next => cases h
  next =>
    split at h
    next hcomma =>
      cases h
      exact ⟨.inr hcomma, _, rfl⟩
    next => split at h <;> cases h
  next => split at h <;> cases h

end Counter

open Counter

variable {k k' : Counter} {c : Char} {min : Nat} {max : Option Nat}

/-- One more character that belongs to a counter. -/
theorem CounterPhase.Reads.step (h : k.phase.Reads k.text) (hstep : k.step c = .more k') :
    k'.phase.Reads k'.text := by
  unfold Counter.step at hstep
  generalize k.phase = phase at h hstep
  generalize htext : k.text = text at h
  cases hdigit : digit? c with
  | some d =>
    obtain ⟨hc, rfl⟩ := digit?_eq_some hdigit
    rw [hdigit] at hstep
    cases h with
    | first h =>
      cases hstep
      rw [text_extend, htext]
      exact .first (h.concat hc)
    | second h h' =>
      cases hstep
      rw [text_extend, htext, List.append_assoc]
      exact .second h (h'.concat hc)
  | none =>
    rw [hdigit] at hstep
    cases h with
    | first h =>
      cases h with
      | none => cases hstep
      | some h =>
        simp only at hstep
        split at hstep
        next hcomma =>
          subst hcomma
          cases hstep
          rw [text_extend, htext]
          exact .second h .none
        next => split at hstep <;> cases hstep
    | second h h' =>
      simp only at hstep
      split at hstep <;> cases hstep

/-- A counter that is complete spells its bounds, which are cut off. -/
theorem CounterPhase.Reads.exists_spells (h : k.phase.Reads k.text)
    (hstep : k.step c = .complete min max) :
    ∃ n m, Spells (k.text ++ [c]) n m ∧ min = cutOff n ∧ max = m.map cutOff := by
  unfold Counter.step at hstep
  generalize k.phase = phase at h hstep
  generalize k.text = text at h
  cases hdigit : digit? c with
  | some d =>
    rw [hdigit] at hstep
    cases h <;> cases hstep
  | none =>
    rw [hdigit] at hstep
    cases h with
    | first h =>
      cases h with
      | none => cases hstep
      | some h =>
        simp only at hstep
        split at hstep
        next => cases hstep
        next =>
          split at hstep
          next hbrace =>
            subst hbrace
            cases hstep
            exact ⟨_, _, .exactly h, rfl, rfl⟩
          next => cases hstep
    | second h h' =>
      simp only at hstep
      split at hstep
      next hbrace =>
        subst hbrace
        cases hstep
        cases h' with
        | none =>
          rw [List.append_assoc]
          exact ⟨_, _, .atLeast h, rfl, rfl⟩
        | some h' => exact ⟨_, _, .between h h', rfl, rfl⟩
      next => cases hstep

/-- Counts are compared with the limit as they are written, though they are read only up to the
ceiling: the limit is below the ceiling, or the counts are not above it. -/
def Limits.Compares (limits : Limits) (min : Nat) (max : Option Nat) : Prop :=
  limits.maxRepetition < countCeiling ∨ min ≤ countCeiling ∧ ∀ m ∈ max, m ≤ countCeiling

/-- A count is above the limit. -/
def Limits.Exceeded (limits : Limits) (min : Nat) (max : Option Nat) : Prop :=
  limits.maxRepetition < min ∨ ∃ m ∈ max, limits.maxRepetition < m

instance (limits : Limits) (min : Nat) (max : Option Nat) : Decidable (limits.Exceeded min max) :=
  inferInstanceAs (Decidable (_ ∨ ∃ m ∈ max, limits.maxRepetition < m))

namespace Limits

variable {limits : Limits} {min : Nat} {max : Option Nat}

/-- A count above the limit is above it when it is cut off. -/
theorem Compares.exceeded_cutOff (h : limits.Compares min max)
    (hexceeded : limits.Exceeded min max) :
    limits.Exceeded (cutOff min) (max.map cutOff) := by
  have hcut : ∀ n, limits.maxRepetition < n →
      limits.maxRepetition < countCeiling ∨ n ≤ countCeiling → limits.maxRepetition < cutOff n := by
    intro n hn hceiling
    unfold cutOff
    omega
  rcases hexceeded with hmin | ⟨m, hm, hmax⟩
  · exact .inl (hcut min hmin (h.imp_right And.left))
  · refine .inr ⟨cutOff m, ?_, hcut m hmax (h.imp_right fun hle => hle.2 m hm)⟩
    exact Option.mem_map_of_mem cutOff hm

/-- Counts within the limit are not cut off. -/
theorem Compares.cutOff_eq (h : limits.Compares min max) (hexceeded : ¬ limits.Exceeded min max) :
    cutOff min = min ∧ max.map cutOff = max := by
  have hcut : ∀ n, ¬ limits.maxRepetition < n →
      limits.maxRepetition < countCeiling ∨ n ≤ countCeiling → cutOff n = n := by
    intro n hn hceiling
    unfold cutOff
    omega
  refine ⟨hcut min (fun hlt => hexceeded (.inl hlt)) (h.imp_right And.left), ?_⟩
  rcases max with _ | m
  · rfl
  · have hm : ¬ limits.maxRepetition < m := fun hlt => hexceeded (.inr ⟨m, rfl, hlt⟩)
    exact congrArg some (hcut m hm (h.imp_right fun hle => hle.2 m rfl))

end Limits

end Submatch
