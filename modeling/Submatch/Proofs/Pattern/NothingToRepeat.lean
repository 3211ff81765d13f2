import Mathlib
import Submatch.Proofs.Pattern.BracketText
import Submatch.Proofs.Pattern.Numbering
import Submatch.Proofs.Pattern.Repetition

/-!
# Marks that have nothing to repeat

Where an item has to begin there is nothing to repeat (`NothingBefore`): at the start of a text,
behind the opening of a group, behind a bar and behind the mark of a lazy repetition. The reader has
nothing begun there (`NothingBefore.exists_run`), so a star, a plus and a question mark are errors,
whatever follows. A brace is not: it is a character there, even if a counter follows
(`NumberedPattern.read_nothingToRepeat`, `NumberedPattern.read_counter_at_start`).
-/

namespace Submatch

/-! ### The last item of a pattern -/

namespace Pattern

/-- The item that the text of a pattern ends with. -/
def lastItem : Pattern → Pattern
  | seq _ right | alt _ right => right.lastItem
  | empty => empty
  | char c => char c
  | set ranges => set ranges
  | any => any
  | repeated body q => repeated body q
  | group index body => group index body

theorem lastItem_seqAll (ps : List Pattern) (p : Pattern) :
    (seqAll (ps ++ [p])).lastItem = p.lastItem := by
  induction ps with
  | nil => rfl
  | cons q ps ih =>
    obtain ⟨first, rest, hrest⟩ := List.exists_cons_of_ne_nil (List.concat_ne_nil p ps)
    rw [List.cons_append, hrest, seqAll_cons_cons, lastItem, ← hrest, ih]

theorem lastItem_altAll (ps : List Pattern) (p : Pattern) :
    (altAll (ps ++ [p])).lastItem = p.lastItem := by
  induction ps with
  | nil => rfl
  | cons q ps ih =>
    obtain ⟨first, rest, hrest⟩ := List.exists_cons_of_ne_nil (List.concat_ne_nil p ps)
    rw [List.cons_append, hrest, altAll_cons_cons, lastItem, ← hrest, ih]

end Pattern

theorem Branches.lastItem_push (b : Branches) (p : Pattern) :
    (b.push p).pattern.lastItem = p.lastItem := by
  unfold pattern current push
  rw [List.reverse_cons, List.reverse_cons, Pattern.lastItem_altAll, Pattern.lastItem_seqAll]

/-- Only a closing bracket closes a class. -/
theorem Bracket.eq_bracket_of_step_closed {b : Bracket} {position : Nat} {c : Char}
    {ranges : List SymbolRange} (h : b.step position c = .ok (.closed ranges)) : c = ']' := by
  have hfirst : ∀ {b : Bracket}, b.readFirst position c = .closed ranges → c = ']' := by
    intro b hread
    unfold readFirst at hread
    split at hread
    · cases hread
    · exact (eq_bracket_of_readItem hread).1
  unfold step at h
  split at h
  · split at h
    · cases h
    · exact hfirst (Except.ok.inj h)
  · exact hfirst (Except.ok.inj h)
  · exact (eq_bracket_of_readItem (Except.ok.inj h)).1
  · split at h <;> cases h
  · split at h
    · cases h
    · exact (eq_bracket_of_readItem (Except.ok.inj h)).1
  · split at h
    next hclose => exact hclose
    next =>
      split at h
      · cases h
      · exact absurd h readUpper_ne_closed
  · exact absurd h readUpper_ne_closed

/-- Behind the text an item has to begin. Behind a pattern of which the last item is a lazy
repetition that is so if the text ends with the question mark that makes it lazy, and not with the
parenthesis of a group around it. -/
inductive NothingBefore (limits : Limits) : String → Prop
  | start : NothingBefore limits ""
  | group (hnesting : 1 ≤ limits.maxNesting) : NothingBefore limits "(?:"
  | bar {p : String} {n : NumberedPattern} (hread : NumberedPattern.read limits p = .ok n) :
    NothingBefore limits (p.push '|')
  | lazily {u : String} {n : NumberedPattern} {body : Pattern} {q : Quantifier}
      (hread : NumberedPattern.read limits u = .ok n) (hmark : u.toList.getLast? = some '?')
      (hlast : n.pattern.lastItem = .repeated body q) (hlazy : q.isLazy = true) :
    NothingBefore limits u

namespace Reader

variable {limits : Limits} {r r' : Reader} {c : Char}

theorem take_of_item (hmode : r.mode = .item) (c : Char) :
    r.take limits c = r.readItem limits c := by
  unfold Reader.take
  rw [hmode]

theorem take_mark (hmode : r.mode = .item) (hc : c ∈ ['*', '+', '?']) :
    r.take limits c = .error ⟨.nothingToRepeat, r.position, r.position + 1⟩ := by
  rw [take_of_item hmode]
  simp only [List.mem_cons, List.not_mem_nil, or_false] at hc
  rcases hc with rfl | rfl | rfl <;> rfl

theorem run_brace (limits : Limits) (hmode : r.mode = .item) : r.run limits ['\x7b'] =
    .ok { r with mode := .atom (.char '\x7b'), position := r.position + 1 } :=
  run_cons_of_take (take_of_item hmode '\x7b') []

theorem run_escaped_brace (limits : Limits) (hmode : r.mode = .item) :
    r.run limits ['\\', '\x7b'] =
      .ok { r with mode := .atom (.char '\x7b'), position := r.position + 2 } := by
  have hopened : r.run limits ['\\'] = .ok { r with
      mode := .escape r.position, position := r.position + 1 } :=
    run_cons_of_take (take_of_item hmode '\\') []
  exact run_append_of_eq hopened ['\x7b']

/-- **A question mark behind which a pattern ends with a lazy repetition is the mark of it**, so
nothing has been begun. If it is read as anything else the last item is not lazy. -/
theorem mode_of_lazy (hstep : r.step limits '?' = .ok r') (hend : r'.mode.isComplete = true)
    {body : Pattern} {q : Quantifier}
    (hlast : r'.settle.branches.pattern.lastItem = .repeated body q) (hlazy : q.isLazy = true) :
    r'.mode = .item := by
  have hgreedy : ∀ (b : Branches) (p : Pattern),
      (b.push (.repeated p ⟨0, some 1, false⟩)).pattern.lastItem ≠ .repeated body q := by
    intro b p heq
    rw [Branches.lastItem_push] at heq
    cases heq
    cases hlazy
  obtain ⟨next, htake, rfl⟩ := step_eq_ok.1 hstep
  unfold Reader.take at htake
  cases hmode : r.mode with
  | item =>
    simp only [hmode] at htake
    cases htake
  | atom p =>
    simp only [hmode] at htake
    cases htake
    exact absurd hlast (hgreedy _ _)
  | counter p k =>
    have hbroken : k.step '?' = .broken := by
      unfold Counter.step
      rcases k.phase with (_ | n) | ⟨min, max⟩ <;> rfl
    simp only [hmode, hbroken] at htake
    cases htake
    exact absurd hlast (hgreedy _ _)
  | repeated p min max =>
    simp only [hmode] at htake
    cases htake
    rfl
  | escape start =>
    simp only [hmode] at htake
    cases htake
    have hchar := Branches.lastItem_push r.branches (.char '?')
    cases hchar.symm.trans hlast
  | paren start =>
    simp only [hmode] at htake
    cases htake
    cases hend
  | parenMark start =>
    simp only [hmode] at htake
    cases htake
  | bracket b =>
    simp only [hmode] at htake
    obtain ⟨step, hbracket, hread⟩ := bind_eq_ok.1 htake
    rcases step with b' | ranges
    · cases hread
      cases hend
    · cases Bracket.eq_bracket_of_step_closed hbracket

end Reader

/-- Where an item has to begin the reader has nothing begun. -/
theorem NothingBefore.exists_run {limits : Limits} {u : String} (h : NothingBefore limits u) :
    ∃ r, Reader.initial.run limits u.toList = .ok r ∧ r.mode = .item := by
  cases h with
  | start => exact ⟨_, rfl, rfl⟩
  | group hnesting => exact ⟨_, Reader.run_wrapper trivial hnesting, rfl⟩
  | @bar p n hread =>
    obtain ⟨r, hrun, hfinish⟩ := NumberedPattern.read_eq_ok.1 hread
    have hend := ReaderMode.mayEnd_iff.2 (Reader.finish_eq_ok.1 hfinish).1
    rw [String.toList_push, Reader.run_append_of_eq hrun]
    exact ⟨_, Reader.run_bar limits hend, Reader.mode_settle hend⟩
  | @lazily u n body q hread hmark hlast hlazy =>
    obtain ⟨r, hrun, hfinish⟩ := NumberedPattern.read_eq_ok.1 hread
    obtain ⟨hend, -, rfl⟩ := Reader.finish_eq_ok.1 hfinish
    refine ⟨r, hrun, ?_⟩
    obtain ⟨w, hw⟩ := List.getLast?_eq_some_iff.1 hmark
    rw [hw, Reader.run_append] at hrun
    obtain ⟨r₀, -, hlastStep⟩ := bind_eq_ok.1 hrun
    rw [Reader.run_singleton] at hlastStep
    exact Reader.mode_of_lazy hlastStep hend hlast hlazy

namespace NumberedPattern

variable {limits : Limits} {u : String}

/-- Behind readers that differ in offsets only, what can be read is the same. -/
theorem read_append_of_alike {u' : String} {r r' : Reader}
    (hrun : Reader.initial.run limits u.toList = .ok r)
    (hrun' : Reader.initial.run limits u'.toList = .ok r') (halike : Reader.Alike .all r r')
    {v : String} {n : NumberedPattern} (h : read limits (u ++ v) = .ok n) :
    read limits (u' ++ v) = .ok n := by
  obtain ⟨s, hall, hfinish⟩ := read_eq_ok.1 h
  rw [String.toList_append, Reader.run_append_of_eq hrun] at hall
  obtain ⟨s', hall', halike'⟩ := halike.run_all hall
  obtain ⟨n', hfinish', hpattern, -⟩ := halike'.finish hfinish
  have h' : read limits (u' ++ v) = .ok n' := by
    refine read_eq_ok.2 ⟨s', ?_, hfinish'⟩
    rw [String.toList_append, Reader.run_append_of_eq hrun', hall']
  rw [Pattern.select_all] at hpattern
  rw [h', (read_numbered h').eq_of_hosts (read_numbered h).hosts hpattern]

/-- **A mark with nothing to repeat is an error, and a brace is a character.** Where an item has to
begin, a star, a plus or a question mark is reported where it stands, whatever follows. A brace is
read there as if it had been written behind a backslash, so a counter is not reported. -/
theorem read_nothingToRepeat (h : NothingBefore limits u) (v : String) :
    (∀ mark ∈ ['*', '+', '?'],
      read limits (u.push mark ++ v) = .error ⟨.nothingToRepeat, u.toList.length, [mark]⟩) ∧
    ∀ n, read limits (u.push '\x7b' ++ v) = .ok n ↔
      read limits ((u.push '\\').push '\x7b' ++ v) = .ok n := by
  obtain ⟨r, hrun, hmode⟩ := h.exists_run
  refine ⟨fun mark hmark => ?_, fun n => ?_⟩
  · have hposition : r.position = u.toList.length := (follows_of_run hrun).position
    have htake : r.take limits mark =
        .error ⟨.nothingToRepeat, u.toList.length, r.position + 1⟩ := by
      rw [Reader.take_mark hmode hmark, hposition]
    have hbefore : Reader.initial.run limits (u.toList ++ []) = .ok r := by
      rw [List.append_nil, hrun]
    have herror := read_of_take_error hbefore htake v.toList
    unfold read at herror ⊢
    rw [String.toList_ofList] at herror
    rw [String.toList_append, String.toList_push]
    exact herror
  · -- the two readers behind the brace differ in their position
    have hplain : Reader.initial.run limits (u.push '\x7b').toList = .ok { r with
        mode := .atom (.char '\x7b'), position := r.position + 1 } := by
      rw [String.toList_push, Reader.run_append_of_eq hrun, Reader.run_brace limits hmode]
    have hescaped : Reader.initial.run limits ((u.push '\\').push '\x7b').toList = .ok { r with
        mode := .atom (.char '\x7b'), position := r.position + 2 } := by
      rw [String.toList_push, String.toList_push, List.append_assoc, Reader.run_append_of_eq hrun]
      exact Reader.run_escaped_brace limits hmode
    exact ⟨read_append_of_alike hplain hescaped rfl, read_append_of_alike hescaped hplain rfl⟩

/-- Behind a counter that is lazy, in a pattern of two branches. -/
theorem read_nothingToRepeat_behind_lazy :
    NothingBefore ⟨1, 9⟩ "(b)|a\x7b2,\x7d?" ∧
      read ⟨1, 9⟩ "(b)|a\x7b2,\x7d?+c" = .error ⟨.nothingToRepeat, 10, ['+']⟩ ∧
      ∀ n, read ⟨1, 9⟩ "(b)|a\x7b2,\x7d?\x7b3\x7d" = .ok n ↔
        read ⟨1, 9⟩ "(b)|a\x7b2,\x7d?\\\x7b3\x7d" = .ok n := by
  have hread : read ⟨1, 9⟩ "(b)|a\x7b2,\x7d?" =
      .ok ⟨.alt (.group 1 (.char 'b')) (.repeated (.char 'a') ⟨2, none, true⟩), #[0, 0]⟩ := by cbv
  have hbefore : NothingBefore ⟨1, 9⟩ "(b)|a\x7b2,\x7d?" :=
    .lazily hread (by decide) rfl rfl
  have hmain := read_nothingToRepeat hbefore
  exact ⟨hbefore, (hmain "c").1 '+' (by decide), (hmain "3\x7d").2⟩

/-- A counter with nothing to repeat is read as a text. -/
theorem read_counter_at_start :
    Counter.Spells "\x7b2\x7d".toList 2 (some 2) ∧ ¬ Limits.Exceeded ⟨250, 1000⟩ 2 (some 2) ∧
      NothingBefore ⟨250, 1000⟩ "" ∧
      read ⟨250, 1000⟩ "\x7b2\x7d" = .ok ⟨.seqAll ("\x7b2\x7d".toList.map .char), #[0]⟩ := by
  have hdigits : Counter.Digits ['2'] := Counter.digits_singleton rfl
  exact ⟨.exactly hdigits, by decide, .start, by cbv⟩

end NumberedPattern

end Submatch
