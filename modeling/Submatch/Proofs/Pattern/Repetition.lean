import Mathlib
import Submatch.Proofs.Pattern.Completion

/-!
# Counts mean the numbers that are written

Behind an item a counter is read as its text spells it, with the counts cut off at the ceiling.
Where the text does not spell a counter, reading goes on as if the brace had been a character
(`Reader.answer_withoutCounter`). A limit below the ceiling still reports a count that is cut off,
so the bounds of a repetition are the numbers written (`NumberedPattern.read_counter`); a limit that
is the ceiling itself does not (`NumberedPattern.read_counter_cut_off`).
-/

namespace Submatch

namespace Reader

/-- The reader with a counter that has been begun taken for the characters that it consists of. -/
def withoutCounter (r : Reader) : Reader :=
  match r.mode with
  | .counter p k => r.breakCounter p k
  | _ => r

/-- What the reader makes of the rest of a text. -/
def answer (limits : Limits) (r : Reader) (rest : List Char) :
    Except ReadFailure NumberedPattern :=
  (r.run limits rest).bind finish

variable {limits : Limits} {r r' : Reader} {p : Pattern} {k : Counter} {c : Char}
  {u rest : List Char} {f : ReadFailure} {min : Nat} {max : Option Nat}

/-! ### Text that is no counter -/

theorem answer_cons_of_take (h : r.take limits c = .ok r') (rest : List Char) :
    r.answer limits (c :: rest) =
      ({ r' with position := r'.position + 1 } : Reader).answer limits rest := by
  unfold answer
  rw [run_cons_of_take h]

theorem answer_cons_congr (h : r.take limits c = r'.take limits c) (rest : List Char) :
    r.answer limits (c :: rest) = r'.answer limits (c :: rest) := by
  unfold answer
  rw [run_cons_congr h]

theorem run_cons_of_take_error (h : r.take limits c = .error f) (text : List Char) :
    r.run limits (c :: text) = .error f := by
  have hstep : r.step limits c = .error f := by
    unfold step
    rw [h]
    rfl
  unfold run
  rw [List.foldlM_cons, hstep]
  rfl

theorem answer_append_of_eq (h : r.run limits u = .ok r') (rest : List Char) :
    r.answer limits (u ++ rest) = r'.answer limits rest := by
  unfold answer
  rw [run_append_of_eq h]

theorem withoutCounter_of_counter (h : r.mode = .counter p k) :
    r.withoutCounter = r.breakCounter p k := by
  unfold withoutCounter
  rw [h]

theorem foldl_push_eq (r : Reader) (cs : List Char) :
    cs.foldl (fun r c => r.push (.char c)) (r.push p) =
      { r.push p with branches := cs.foldl (fun b c => b.push (.char c)) (r.branches.push p) } := by
  induction cs generalizing r p with
  | nil => rfl
  | cons c cs ih => exact ih (r.push p)

/-- Only the branches show how a counter has been broken. -/
theorem breakCounter_eq (r : Reader) (p : Pattern) (k : Counter) :
    r.breakCounter p k = { r with
      mode := .atom (.char k.last)
      branches := k.earlier.reverse.foldl (fun b c => b.push (.char c)) (r.branches.push p) } := by
  unfold breakCounter
  rw [foldl_push_eq]
  rfl

theorem withoutCounter_frame (r : Reader) : r.withoutCounter.position = r.position ∧
    r.withoutCounter.groups = r.groups ∧ r.withoutCounter.parents = r.parents := by
  cases h : r.mode with
  | counter p k =>
    rw [withoutCounter_of_counter h, breakCounter_eq]
    exact ⟨rfl, rfl, rfl⟩
  | item | atom | repeated | escape | paren | parenMark | bracket =>
    have hsame : r.withoutCounter = r := by
      unfold withoutCounter
      rw [h]
    rw [hsame]
    exact ⟨rfl, rfl, rfl⟩

/-- A digit or a comma behind an item is a character. -/
theorem readMark_of_counter (limits : Limits) (r : Reader) (p : Pattern)
    (hc : c.isDigit = true ∨ c = ',') :
    r.readMark limits p c = .ok ((r.push p).enter (.atom (.char c))) := by
  have hne : ∀ d : Char, d.isDigit = false → d ≠ ',' → c ≠ d := by
    rintro d hdigit hcomma rfl
    rcases hc with hc | hc
    · rw [hdigit] at hc
      cases hc
    · exact hcomma hc
  unfold readMark
  split
  · exact absurd rfl (hne '*' rfl (by decide))
  · exact absurd rfl (hne '+' rfl (by decide))
  · exact absurd rfl (hne '?' rfl (by decide))
  · exact absurd rfl (hne '\x7b' rfl (by decide))
  · unfold readItem
    split
    · exact absurd rfl (hne '(' rfl (by decide))
    · exact absurd rfl (hne ')' rfl (by decide))
    · exact absurd rfl (hne '|' rfl (by decide))
    · exact absurd rfl (hne '[' rfl (by decide))
    · exact absurd rfl (hne '.' rfl (by decide))
    · exact absurd rfl (hne '\\' rfl (by decide))
    · exact absurd rfl (hne '*' rfl (by decide))
    · exact absurd rfl (hne '+' rfl (by decide))
    · exact absurd rfl (hne '?' rfl (by decide))
    · rfl

theorem finish_withoutCounter (h : r.mode = .counter p k) :
    r.withoutCounter.finish = r.finish := by
  have hsettle : r.withoutCounter.settle = r.settle := by
    rw [withoutCounter_of_counter h]
    unfold settle
    rw [h]
    rfl
  obtain ⟨hparents, hgroups⟩ := settle_frame r.withoutCounter
  obtain ⟨hparents', hgroups'⟩ := settle_frame r
  have hmode : r.withoutCounter.mode = .atom (.char k.last) := by
    rw [withoutCounter_of_counter h]
    rfl
  have hposition : r.withoutCounter.position = r.position := by
    rw [withoutCounter_of_counter h, position_breakCounter]
  rw [hsettle] at hparents hgroups
  unfold finish
  simp only [hmode, h, ← hgroups, ← hparents, hgroups', hparents', hsettle, hposition]

/-- The last character of a counter that goes on is a character of its own once the counter is
taken for characters. -/
theorem withoutCounter_extend (h : r.mode = .counter p k) {phase : CounterPhase} :
    ({ r.enter (.counter p (k.extend c phase)) with position := r.position + 1 } :
        Reader).withoutCounter =
      { (r.withoutCounter.push (.char k.last)).enter (.atom (.char c)) with
        position := r.withoutCounter.position + 1 } := by
  have hearlier : (k.extend c phase).earlier.reverse = k.earlier.reverse ++ [k.last] :=
    List.reverse_cons
  rw [withoutCounter_of_counter rfl, withoutCounter_of_counter h, breakCounter_eq, breakCounter_eq,
    hearlier, List.foldl_append]
  rfl

/-- **Text that spells no counter is read as characters.** What follows does not complete the
counter that has been begun, so it makes no difference whether it was one. -/
theorem answer_withoutCounter (limits : Limits) (h : r.mode = .counter p k)
    (hreads : k.phase.Reads k.text)
    (hrest : ∀ text n m, Counter.Spells text n m → ¬ text <+: k.text ++ rest) :
    r.answer limits rest = r.withoutCounter.answer limits rest := by
  induction rest generalizing r k with
  | nil =>
    show r.finish = r.withoutCounter.finish
    rw [finish_withoutCounter h]
  | cons c rest ih =>
    have hatom : r.withoutCounter.mode = .atom (.char k.last) := by
      rw [withoutCounter_of_counter h]
      rfl
    cases hstep : k.step c with
    | more k' =>
      obtain ⟨hc, phase, rfl⟩ := Counter.step_eq_more hstep
      have htake := take_counter limits h hstep
      have htake' : r.withoutCounter.take limits c =
          .ok ((r.withoutCounter.push (.char k.last)).enter (.atom (.char c))) := by
        unfold Reader.take
        rw [hatom]
        exact readMark_of_counter limits _ _ hc
      have hrest' : ∀ text n m, Counter.Spells text n m →
          ¬ text <+: (k.extend c phase).text ++ rest := by
        intro text n m htext
        rw [Counter.text_extend, List.append_assoc]
        exact hrest text n m htext
      rw [answer_cons_of_take htake, answer_cons_of_take htake', ih rfl (hreads.step hstep) hrest']
      exact congrArg (answer limits · rest) (withoutCounter_extend h)
    | complete min max =>
      -- the text would have been a counter
      obtain ⟨n, m, hspells, -, -⟩ := hreads.exists_spells hstep
      refine absurd ?_ (hrest _ n m hspells)
      exact ⟨rest, by simp⟩
    | broken =>
      refine answer_cons_congr ?_ rest
      unfold Reader.take
      rw [hatom, h]
      simp only [hstep]
      rw [withoutCounter_of_counter h]

/-- A brace breaks a counter that has been begun, and may begin another one behind its last
character. -/
theorem take_brace_withoutCounter (limits : Limits) (r : Reader) :
    r.take limits '\x7b' = r.withoutCounter.take limits '\x7b' := by
  unfold withoutCounter
  cases h : r.mode with
  | counter p k =>
    have hbroken : k.step '\x7b' = .broken := by
      unfold Counter.step
      rcases k.phase with (_ | n) | ⟨min, max⟩ <;> rfl
    unfold Reader.take
    rw [h]
    simp only [hbroken]
    rfl
  | item | atom | repeated | escape | paren | parenMark | bracket => rfl

/-! ### Text that is a counter -/

/-- Behind a repetition only a question mark is still about it. -/
theorem answer_repeated (h : r.mode = .repeated p min max) (hrest : rest.head? ≠ some '?') :
    r.answer limits rest = (r.push (.repeated p ⟨min, max, false⟩)).answer limits rest := by
  rcases rest with _ | ⟨c, rest⟩
  · show r.finish = (r.push _).finish
    unfold finish settle
    rw [h]
    rfl
  · have hc : c ≠ '?' := fun hc => hrest (congrArg some hc)
    refine answer_cons_congr ?_ rest
    unfold Reader.take settle
    rw [h]
    simp only [if_neg hc]
    rfl

theorem take_lazy (limits : Limits) (h : r.mode = .repeated p min max) :
    r.take limits '?' = .ok (r.push (.repeated p ⟨min, max, true⟩)) := by
  unfold Reader.take
  rw [h]
  rfl

theorem answer_lazy (h : r.mode = .repeated p min max) (rest : List Char) :
    r.answer limits ('?' :: rest) =
      ({ r.push (.repeated p ⟨min, max, true⟩) with position := r.position + 1 } :
        Reader).answer limits rest :=
  answer_cons_of_take (take_lazy limits h) rest

/-- Counts that are compared as they are written are the counts of the repetition. -/
theorem repeatCounted_cutOff (h : limits.Compares min max) (r : Reader) (p : Pattern)
    (start stop : Nat) :
    r.repeatCounted limits p start stop (cutOff min) (max.map cutOff) =
      r.repeatCounted limits p start stop min max := by
  by_cases hexceeded : limits.Exceeded min max
  · rw [repeatCounted_of_exceeded hexceeded,
      repeatCounted_of_exceeded (h.exceeded_cutOff hexceeded)]
  · obtain ⟨hmin, hmax⟩ := h.cutOff_eq hexceeded
    rw [hmin, hmax]

/-- A counter behind an item repeats it, as far as the limit allows. -/
theorem exists_run_spelled (hatom : r.withoutCounter.mode = .atom p) {text : List Char}
    (h : Counter.Spells text min max) (hcompares : limits.Compares min max) :
    ∃ ds r', text = '\x7b' :: ds ++ ['\x7d'] ∧ r.run limits ('\x7b' :: ds) = .ok r' ∧
      r'.branches = r.withoutCounter.branches ∧ r'.groups = r.groups ∧ r'.parents = r.parents ∧
      r'.take limits '\x7d' =
        r'.repeatCounted limits p r.position (r'.position + 1) min max := by
  obtain ⟨ds, k, r', htext, hreach, hstart, hstep⟩ := exists_reaches_spelled limits hatom h
  obtain ⟨hposition, hgroups, hparents⟩ := withoutCounter_frame r
  refine ⟨ds, r', htext, ?_, hreach.branches, hreach.groups.trans hgroups,
    hreach.parents.trans hparents, ?_⟩
  · rw [run_cons_congr (take_brace_withoutCounter limits r)]
    exact hreach.run
  · have htake : r'.take limits '\x7d' = r'.repeatCounted limits p k.start (r'.position + 1)
        (cutOff min) (max.map cutOff) := by
      unfold Reader.take
      rw [hreach.mode]
      simp only [hstep]
    rw [htake, hstart, hposition, repeatCounted_cutOff hcompares]

/-- Behind an item a counter that the limit allows is read as the repetition that it spells. -/
theorem Follows.run_spelled (hfollows : r.Follows u) (hatom : r.withoutCounter.mode = .atom p)
    {text : List Char} (h : Counter.Spells text min max) (hcompares : limits.Compares min max)
    (hexceeded : ¬ limits.Exceeded min max) (hle : ∀ m ∈ max, min ≤ m) :
    r.run limits text = .ok { r.withoutCounter with
      mode := .repeated p min max, position := u.length + text.length } := by
  obtain ⟨ds, r', rfl, hrun, hbranches, hgroups, hparents, htake⟩ :=
    exists_run_spelled hatom h hcompares
  rw [repeatCounted_of_le hexceeded hle] at htake
  have hposition := (hfollows.run hrun).position
  obtain ⟨-, hgroups', hparents'⟩ := withoutCounter_frame r
  rw [run_append_of_eq hrun, run_cons_of_take htake, run_nil]
  refine congrArg Except.ok ?_
  rw [Reader.mk.injEq]
  refine ⟨?_, hparents.trans hparents'.symm, rfl, hbranches, hgroups.trans hgroups'.symm⟩
  show r'.position + 1 = _
  rw [hposition]
  simp only [List.length_append, List.length_cons, List.length_nil]
  omega

end Reader

namespace NumberedPattern

variable {limits : Limits}

/-- An error found on a character shows the text from where it began through that character. -/
theorem read_of_take_error {u fragment : List Char} {r : Reader} {c : Char} {cause : ReadCause}
    (hrun : Reader.initial.run limits (u ++ fragment) = .ok r)
    (htake : r.take limits c = .error ⟨cause, u.length, r.position + 1⟩) (rest : List Char) :
    read limits (.ofList (u ++ (fragment ++ [c]) ++ rest)) =
      .error ⟨cause, u.length, fragment ++ [c]⟩ := by
  have hposition : r.position = (u ++ fragment).length := (follows_of_run hrun).position
  have htext : u ++ (fragment ++ [c]) ++ rest = (u ++ fragment) ++ c :: rest := by simp
  have herror : Reader.initial.run limits (u ++ (fragment ++ [c]) ++ rest) =
      .error ⟨cause, u.length, r.position + 1⟩ := by
    rw [htext, Reader.run_append_of_eq hrun]
    exact Reader.run_cons_of_take_error htake rest
  have hfragment : ((u ++ (fragment ++ [c]) ++ rest).drop u.length).take
      (r.position + 1 - u.length) = fragment ++ [c] := by
    have hlength : r.position + 1 - u.length = (fragment ++ [c]).length := by
      rw [hposition]
      simp only [List.length_append, List.length_singleton]
      omega
    rw [hlength, List.append_assoc, List.drop_left, List.take_left]
  unfold read readChars
  rw [String.toList_ofList, herror]
  exact congrArg (fun shown => Except.error (ReadError.mk cause u.length shown)) hfragment

/-- **Counts mean the numbers that are written.** Behind an item a counter repeats it exactly that
often, unless a count is above the limit or the counts run backwards, which is an error that shows
the counter. A brace that begins no counter is a character. -/
theorem read_counter {u : List Char} {r : Reader} {p : Pattern}
    (hrun : Reader.initial.run limits u = .ok r) (hatom : r.withoutCounter.mode = .atom p) :
    (∀ counter min max, Counter.Spells counter min max → limits.Compares min max →
      (limits.Exceeded min max → ∀ rest, read limits (.ofList (u ++ counter ++ rest)) =
        .error ⟨.repetitionTooLarge limits.maxRepetition, u.length, counter⟩) ∧
      (¬ limits.Exceeded min max → (∃ m ∈ max, m < min) → ∀ rest,
        read limits (.ofList (u ++ counter ++ rest)) =
          .error ⟨.invalidRepetition, u.length, counter⟩) ∧
      (¬ limits.Exceeded min max → (∀ m ∈ max, min ≤ m) → ∀ rest,
        (rest.head? ≠ some '?' → Reader.initial.answer limits (u ++ counter ++ rest) =
          ({ r.withoutCounter.push (.repeated p ⟨min, max, false⟩) with
            position := u.length + counter.length } : Reader).answer limits rest) ∧
        Reader.initial.answer limits (u ++ counter ++ '?' :: rest) =
          ({ r.withoutCounter.push (.repeated p ⟨min, max, true⟩) with
            position := u.length + counter.length + 1 } : Reader).answer limits rest)) ∧
    ∀ rest, (∀ counter min max, Counter.Spells counter min max → ¬ counter <+: '\x7b' :: rest) →
      Reader.initial.answer limits (u ++ '\x7b' :: rest) =
        ({ (r.withoutCounter.push p).enter (.atom (.char '\x7b')) with
          position := u.length + 1 } : Reader).answer limits rest := by
  have hposition : r.position = u.length := (follows_of_run hrun).position
  refine ⟨?_, ?_⟩
  · intro counter min max hspells hcompares
    obtain ⟨ds, r', rfl, hrun', -, -, -, htake⟩ :=
      Reader.exists_run_spelled hatom hspells hcompares
    have hbefore : Reader.initial.run limits (u ++ '\x7b' :: ds) = .ok r' :=
      (Reader.run_append_of_eq hrun _).trans hrun'
    rw [hposition] at htake
    refine ⟨?_, ?_, ?_⟩
    · intro hexceeded
      rw [Reader.repeatCounted_of_exceeded hexceeded] at htake
      exact read_of_take_error hbefore htake
    · intro hexceeded hlt
      rw [Reader.repeatCounted_of_lt hexceeded hlt] at htake
      exact read_of_take_error hbefore htake
    · intro hexceeded hle rest
      rw [Reader.repeatCounted_of_le hexceeded hle] at htake
      have hcounter := (Reader.run_append_of_eq hrun _).trans
        ((follows_of_run hrun).run_spelled hatom hspells hcompares hexceeded hle)
      refine ⟨fun hrest => ?_, ?_⟩
      · rw [Reader.answer_append_of_eq hcounter, Reader.answer_repeated rfl hrest]
        rfl
      · rw [Reader.answer_append_of_eq hcounter, Reader.answer_lazy rfl]
        rfl
  · intro rest hrest
    rw [Reader.answer_append_of_eq hrun,
      Reader.answer_cons_congr (Reader.take_brace_withoutCounter limits r),
      Reader.answer_cons_of_take (Reader.take_brace limits hatom),
      Reader.answer_withoutCounter limits rfl (Counter.reads_opened _) hrest]
    rw [Reader.withoutCounter_of_counter rfl, Reader.breakCounter_eq]
    rw [← hposition, ← (Reader.withoutCounter_frame r).1]
    rfl

/-- Behind a counter that is broken by a brace: a count above the limit, counts that run backwards,
a lazy repetition with a zero in front, and one more brace that begins no counter. -/
theorem read_counter_behind_broken :
    read ⟨9, 99⟩ "a\x7b1{100}b" = .error ⟨.repetitionTooLarge 99, 3, "{100}".toList⟩ ∧
      read ⟨9, 99⟩ "a\x7b1{3,2}b" = .error ⟨.invalidRepetition, 3, "{3,2}".toList⟩ ∧
      read ⟨9, 99⟩ "a\x7b1{07,}?" =
        .ok ⟨.seqAll [.char 'a', .char '\x7b', .repeated (.char '1') ⟨7, none, true⟩], #[0]⟩ ∧
      read ⟨9, 99⟩ "a\x7b1{,7}" =
        .ok ⟨.seqAll ("a\x7b1{,7}".toList.map .char), #[0]⟩ := by
  have hrun : Reader.initial.run ⟨9, 99⟩ "a\x7b1".toList =
      .ok ⟨3, #[0], .counter (.char 'a') ⟨1, ['\x7b'], '1', .first (some 1)⟩, .fresh, []⟩ := by cbv
  obtain ⟨hcounter, hliteral⟩ := read_counter (p := .char '1') hrun rfl
  have hlimit : ∀ min max, (⟨9, 99⟩ : Limits).Compares min max := fun _ _ => .inl (by decide)
  have hdigits : Counter.Digits ['1', '0', '0'] ∧ Counter.Digits ['3'] ∧ Counter.Digits ['2'] ∧
      Counter.Digits ['0', '7'] :=
    ⟨⟨by decide, by simp⟩, ⟨by decide, by simp⟩, ⟨by decide, by simp⟩, by decide, by simp⟩
  obtain ⟨hhundred, hthree, htwo, hseven⟩ := hdigits
  have hlazily := (hcounter _ _ _ (.atLeast hseven) (hlimit _ _)).2.2 (by decide) (by simp) []
  refine ⟨?_, ?_, ?_, ?_⟩
  · exact (hcounter _ _ _ (.exactly hhundred) (hlimit _ _)).1 (.inl (by decide)) ['b']
  · exact (hcounter _ _ _ (.between hthree htwo) (hlimit _ _)).2.1 (by decide)
      ⟨2, rfl, by decide⟩ ['b']
  · exact congrArg (Except.mapError (·.locate "a\x7b1{07,}?".toList)) hlazily.2
  · have hnone : ∀ counter min max, Counter.Spells counter min max →
        ¬ counter <+: '\x7b' :: ",7\x7d".toList := by
      intro counter min max hspells hprefix
      obtain ⟨c, more, hc, rfl⟩ := hspells.exists_digit
      have hcomma : c = ',' := (List.cons_prefix_cons.1 (List.cons_prefix_cons.1 hprefix).2).1
      rw [hcomma] at hc
      cases hc
    exact congrArg (Except.mapError (·.locate "a\x7b1{,7}".toList)) (hliteral _ hnone)

/-- A limit that is the ceiling does not report a larger count, which is read as the ceiling. -/
theorem read_counter_cut_off :
    Counter.Spells "{4294967296}".toList 4294967296 (some 4294967296) ∧
      (⟨250, 4294967295⟩ : Limits).Exceeded 4294967296 (some 4294967296) ∧
      read ⟨250, 4294967295⟩ "a{4294967296}" =
        .ok ⟨.repeated (.char 'a') ⟨4294967295, some 4294967295, false⟩, #[0]⟩ := by
  have hdigits : Counter.Digits "4294967296".toList := ⟨by decide, by simp⟩
  have hvalue : Counter.value "4294967296".toList = 4294967296 := by cbv
  have hspells := Counter.Spells.exactly hdigits
  rw [hvalue] at hspells
  refine ⟨hspells, .inl (by decide), ?_⟩
  cbv

end NumberedPattern

end Submatch
