import Mathlib
import Submatch.Proofs.Pattern.PrintedParts
import Submatch.Proofs.Pattern.Reader
import Submatch.Proofs.Pattern.Uncapture

/-!
# Errors that stay, and errors that more text repairs

An error is found either on reading a character or at the end of the text. One that is found on a
character stays whatever follows, since the fragment ends with that character
(`Reader.Follows.take_error`). One that is found at the end can be repaired, since whatever has been
read without an error can be completed: what has been begun first, and then the open groups one by
one (`Reader.exists_completion`).

* `NumberedPattern.read_append_of_error`: the two kinds are told apart by the error itself.
-/

namespace Submatch

/-- The error is one that is found at the end of the text. -/
def ReadError.AtEnd (text : List Char) (e : ReadError) : Prop :=
  match e.cause with
  | .unclosedGroup | .unterminatedClass | .danglingEscape => True
  | .unsupportedGroup => e.fragment = ['(', '?'] ∧ e.offset + 2 = text.length
  | .unmatchedParen | .descendingRange | .nothingToRepeat | .invalidRepetition
  | .repetitionTooLarge _ | .nestingTooDeep _ => False

/-- The failure is one that is found on the character at an offset. -/
structure ReadFailure.FoundAt (position : Nat) (f : ReadFailure) : Prop where
  stop : f.stop = position + 1
  cause : match f.cause with
    | .unclosedGroup | .unterminatedClass | .danglingEscape => False
    | .unsupportedGroup => f.start + 2 = position
    | .unmatchedParen | .descendingRange | .nothingToRepeat | .invalidRepetition
    | .repetitionTooLarge _ | .nestingTooDeep _ => True

/-- The text read ends with the opening that the mode is about. -/
def ReaderMode.Follows (text : List Char) : ReaderMode → Prop
  | .paren start => text.drop start = ['(']
  | .parenMark start => text.drop start = ['(', '?']
  | .item | .atom _ | .counter .. | .repeated .. | .escape _ | .bracket _ => True

/-- Nothing has been begun that another character is needed for, but a counter may have been. -/
def ReaderMode.MayEnd : ReaderMode → Prop
  | item | atom _ | counter .. | repeated .. => True
  | escape _ | paren _ | parenMark _ | bracket _ => False

theorem ReaderMode.mayEnd_iff {mode : ReaderMode} : mode.MayEnd ↔ mode.isComplete = true := by
  cases mode with
  | item | atom | counter | repeated => exact ⟨fun _ => rfl, fun _ => trivial⟩
  | escape | paren | parenMark | bracket => exact ⟨False.elim, fun h => nomatch h⟩

/-- A closing bracket ends the class. -/
def BracketPhase.MayClose : BracketPhase → Prop
  | item | lower .. | dash .. => True
  | opened | first | escape _ | upperEscape .. => False

/-- The part of a text up to an offset does not depend on what is appended. -/
theorem ReadFailure.locate_append {f : ReadFailure} {text : List Char} (h : f.stop ≤ text.length)
    (more : List Char) : f.locate (text ++ more) = f.locate text := by
  unfold locate
  rw [← List.drop_take, ← List.drop_take, List.take_append_of_le_length h]

/-- An error that is found on a character of the text is not one that is found at the end. -/
theorem ReadFailure.FoundAt.not_atEnd {f : ReadFailure} {position : Nat} {text : List Char}
    (h : f.FoundAt position) (hlt : position < text.length) : ¬ (f.locate text).AtEnd text := by
  obtain ⟨hstop, hcause⟩ := h
  unfold ReadError.AtEnd
  intro hend
  have hsame : (f.locate text).cause = f.cause := rfl
  rw [hsame] at hend
  cases hkind : f.cause <;> simp only [hkind] at hend hcause
  -- the third character of an unsupported group belongs to the text
  have hoffset : (f.locate text).offset = f.start := rfl
  omega

namespace Bracket

variable {b : Bracket} {position : Nat} {c : Char} {f : ReadFailure}

theorem step_error (h : b.step position c = .error f) : f.FoundAt position := by
  have hupper : ∀ {start lo hi}, b.readUpper start (position + 1) lo hi = .error f →
      f.FoundAt position := by
    intro start lo hi hread
    unfold readUpper at hread
    split at hread
    · cases hread
    · cases hread
      exact ⟨rfl, trivial⟩
  unfold step at h
  split at h
  · split at h <;> cases h
  · cases h
  · cases h
  · split at h <;> cases h
  · split at h <;> cases h
  · split at h
    · cases h
    · split at h
      · cases h
      · exact hupper h
  · exact hupper h

theorem exists_close (h : b.phase.MayClose) (position : Nat) :
    ∃ ranges, b.step position ']' = .ok (.closed ranges) := by
  unfold step
  cases hphase : b.phase with
  | item => exact ⟨_, rfl⟩
  | lower start lo => exact ⟨_, rfl⟩
  | dash start lo => exact ⟨_, rfl⟩
  | opened | first | escape | upperEscape =>
    rw [hphase] at h
    exact h.elim

/-- One more character is enough for a class that cannot be closed yet. As an upper bound the last
character of all is never too low. -/
theorem exists_mayClose (h : ¬ b.phase.MayClose) (position : Nat) :
    ∃ c b', b.step position c = .ok (.more b') ∧ b'.phase.MayClose := by
  cases hphase : b.phase with
  | opened =>
    refine ⟨'a', b.enter (.lower position 'a'), ?_, trivial⟩
    simp only [step, hphase]
    rfl
  | first =>
    refine ⟨'a', b.enter (.lower position 'a'), ?_, trivial⟩
    simp only [step, hphase]
    rfl
  | escape start =>
    refine ⟨'a', b.enter (.lower start 'a'), ?_, trivial⟩
    simp only [step, hphase]
    rfl
  | upperEscape start lo =>
    have hle : lo.toNat ≤ (escaped (.ofNat lastSymbol)).toNat := Char.toNat_le_lastSymbol lo
    refine ⟨.ofNat lastSymbol, b.push (.span lo _ hle), ?_, trivial⟩
    simp only [step, hphase, readUpper, dif_pos hle]
  | item | lower | dash =>
    rw [hphase] at h
    exact absurd trivial h

end Bracket

namespace Reader

variable {limits : Limits} {r r' : Reader} {text : List Char} {c : Char} {f : ReadFailure}

/-! ### Errors that are found on a character -/

/-- The reader has read the text. -/
structure Follows (text : List Char) (r : Reader) : Prop where
  position : r.position = text.length
  mode : r.mode.Follows text

theorem position_foldl_push (r : Reader) (cs : List Char) :
    (cs.foldl (fun r c => r.push (.char c)) r).position = r.position := by
  induction cs generalizing r with
  | nil => rfl
  | cons c cs ih => exact ih (r.push (.char c))

theorem position_breakCounter (r : Reader) (p : Pattern) (k : Counter) :
    (r.breakCounter p k).position = r.position :=
  position_foldl_push (r.push p) k.earlier.reverse

theorem follows_readItem (hposition : r.position = text.length) (hmode : r.mode = .item)
    (h : r.readItem limits c = .ok r') :
    r'.position = text.length ∧ r'.mode.Follows (text ++ [c]) := by
  unfold readItem at h
  split at h
  · split at h
    · cases h
    · cases h
      refine ⟨hposition, ?_⟩
      show (text ++ ['(']).drop r.position = ['(']
      rw [hposition, List.drop_left]
  · split at h
    · cases h
    · cases h
      exact ⟨hposition, trivial⟩
  · cases h
    refine ⟨hposition, ?_⟩
    show r.mode.Follows _
    rw [hmode]
    trivial
  · cases h
    exact ⟨hposition, trivial⟩
  · cases h
    exact ⟨hposition, trivial⟩
  · cases h
    exact ⟨hposition, trivial⟩
  · cases h
  · cases h
  · cases h
  · cases h
    exact ⟨hposition, trivial⟩

theorem readItem_error (h : r.readItem limits c = .error f) : f.FoundAt r.position := by
  unfold readItem at h
  split at h
  · split at h
    · cases h
      exact ⟨rfl, trivial⟩
    · cases h
  · split at h
    · cases h
      exact ⟨rfl, trivial⟩
    · cases h
  · cases h
  · cases h
  · cases h
  · cases h
  · cases h
    exact ⟨rfl, trivial⟩
  · cases h
    exact ⟨rfl, trivial⟩
  · cases h
    exact ⟨rfl, trivial⟩
  · cases h

theorem follows_readMark {p : Pattern} (hposition : r.position = text.length)
    (h : r.readMark limits p c = .ok r') :
    r'.position = text.length ∧ r'.mode.Follows (text ++ [c]) := by
  unfold readMark at h
  split at h
  · cases h
    exact ⟨hposition, trivial⟩
  · cases h
    exact ⟨hposition, trivial⟩
  · cases h
    exact ⟨hposition, trivial⟩
  · cases h
    exact ⟨hposition, trivial⟩
  · exact follows_readItem (r := r.push p) hposition rfl h

theorem readMark_error {p : Pattern} (h : r.readMark limits p c = .error f) :
    f.FoundAt r.position := by
  unfold readMark at h
  split at h
  · cases h
  · cases h
  · cases h
  · cases h
  · exact readItem_error (r := r.push p) h

theorem follows_repeatCounted {p : Pattern} {start stop min : Nat} {max : Option Nat}
    (hposition : r.position = text.length)
    (h : r.repeatCounted limits p start stop min max = .ok r') :
    r'.position = text.length ∧ r'.mode.Follows (text ++ [c]) := by
  unfold repeatCounted at h
  split at h
  · cases h
  · split at h
    · cases h
    · cases h
      exact ⟨hposition, trivial⟩

theorem repeatCounted_error {p : Pattern} {start min : Nat} {max : Option Nat}
    (h : r.repeatCounted limits p start (r.position + 1) min max = .error f) :
    f.FoundAt r.position := by
  unfold repeatCounted at h
  split at h
  · cases h
    exact ⟨rfl, trivial⟩
  · split at h
    · cases h
      exact ⟨rfl, trivial⟩
    · cases h

theorem settle_of_repeated {p : Pattern} {min : Nat} {max : Option Nat}
    (h : r.mode = .repeated p min max) : r.settle = r.push (.repeated p ⟨min, max, false⟩) := by
  unfold settle
  rw [h]

/-- The text from a parenthesis on grows with every character. -/
theorem drop_append_of_drop_eq {text more : List Char} {start : Nat} {d : Char}
    (h : text.drop start = d :: more) (c : Char) :
    (text ++ [c]).drop start = d :: more ++ [c] := by
  have hle : start ≤ text.length := by
    by_contra hlt
    rw [List.drop_eq_nil_of_le (by omega)] at h
    cases h
  rw [List.drop_append_of_le_length hle, h]

theorem Follows.take (h : r.Follows text) (htake : r.take limits c = .ok r') :
    r'.position = text.length ∧ r'.mode.Follows (text ++ [c]) := by
  obtain ⟨hposition, hmode⟩ := h
  unfold Reader.take at htake
  split at htake
  next heq => exact follows_readItem hposition heq htake
  next p _ => exact follows_readMark hposition htake
  next p k _ =>
    split at htake
    · cases htake
      exact ⟨hposition, trivial⟩
    · exact follows_repeatCounted hposition htake
    · have hbroken : (r.breakCounter p k).position = text.length := by
        rw [position_breakCounter, hposition]
      exact follows_readMark hbroken htake
  next p min max heq =>
    split at htake
    · cases htake
      exact ⟨hposition, trivial⟩
    · rw [settle_of_repeated heq] at htake
      exact follows_readItem (r := r.push _) hposition rfl htake
  next =>
    split at htake
    · cases htake
      exact ⟨hposition, trivial⟩
    · cases htake
      exact ⟨hposition, trivial⟩
  next start heq =>
    rw [heq] at hmode
    split at htake
    next hmark =>
      cases htake
      subst hmark
      exact ⟨hposition, drop_append_of_drop_eq hmode '?'⟩
    · exact follows_readItem (r := r.openCapture start) hposition rfl htake
  next start _ =>
    split at htake
    · cases htake
      exact ⟨hposition, trivial⟩
    · cases htake
  next b _ =>
    obtain ⟨next, -, hread⟩ := bind_eq_ok.1 htake
    rcases next with b | ranges
    · cases hread
      exact ⟨hposition, trivial⟩
    · cases hread
      exact ⟨hposition, trivial⟩

theorem Follows.step (h : r.Follows text) (hstep : r.step limits c = .ok r') :
    r'.Follows (text ++ [c]) := by
  obtain ⟨next, htake, hnext⟩ := bind_eq_ok.1 hstep
  cases hnext
  obtain ⟨hposition, hmode⟩ := h.take htake
  refine ⟨?_, hmode⟩
  show next.position + 1 = _
  rw [hposition, List.length_append, List.length_singleton]

/-- The reader knows how much it has read, and which opening it stands behind. -/
theorem Follows.run (h : r.Follows text) {more : List Char} (hrun : r.run limits more = .ok r') :
    r'.Follows (text ++ more) := by
  induction more generalizing r text with
  | nil =>
    cases hrun
    rw [List.append_nil]
    exact h
  | cons c more ih =>
    unfold Reader.run at hrun
    rw [List.foldlM_cons, bind_eq_ok] at hrun
    obtain ⟨r₁, hstep, hrest⟩ := hrun
    have hfollows := ih (h.step hstep) hrest
    rwa [List.append_assoc] at hfollows

/-- **An error is found on the character that is read.** The fragment ends with it, and it is none
of those that are found at the end. -/
theorem Follows.take_error (h : r.Follows text) (htake : r.take limits c = .error f) :
    f.FoundAt text.length := by
  obtain ⟨hposition, hmode⟩ := h
  rw [← hposition]
  unfold Reader.take at htake
  split at htake
  · exact readItem_error htake
  · exact readMark_error htake
  next p k _ =>
    split at htake
    · cases htake
    · exact repeatCounted_error htake
    · have hfound := readMark_error htake
      rwa [position_breakCounter] at hfound
  next p min max heq =>
    split at htake
    · cases htake
    · rw [settle_of_repeated heq] at htake
      exact readItem_error (r := r.push _) htake
  · split at htake <;> cases htake
  next start _ =>
    split at htake
    · cases htake
    · exact readItem_error (r := r.openCapture start) htake
  next start heq =>
    rw [heq] at hmode
    split at htake
    · cases htake
    · cases htake
      refine ⟨rfl, ?_⟩
      have hlength := congrArg List.length (hmode : text.drop start = ['(', '?'])
      rw [List.length_drop, ← hposition] at hlength
      simp only [List.length_cons, List.length_nil] at hlength ⊢
      omega
  next b _ =>
    cases hstep : b.step r.position c with
    | error f' =>
      rw [hstep] at htake
      cases htake
      exact Bracket.step_error hstep
    | ok next =>
      rw [hstep] at htake
      rcases next with b | ranges <;> cases htake

theorem take_of_step_error (h : r.step limits c = .error f) : r.take limits c = .error f := by
  unfold step at h
  cases htake : r.take limits c with
  | error f' =>
    rw [htake] at h
    cases h
    rfl
  | ok r' =>
    rw [htake] at h
    cases h

/-! ### Parentheses and bars -/

/-- A parenthesis or a bar ends what may end: it belongs to no counter, and it is no mark. -/
theorem take_of_mayEnd (hmode : r.mode.MayEnd) (hc : c = '(' ∨ c = ')' ∨ c = '|') :
    r.take limits c = r.settle.readItem limits c := by
  unfold Reader.take settle
  cases h : r.mode with
  | item => rfl
  | atom p => rcases hc with rfl | rfl | rfl <;> rfl
  | counter p k =>
    have hbroken : k.step c = .broken := by
      unfold Counter.step
      rcases hc with rfl | rfl | rfl <;> rcases k.phase with (_ | n) | ⟨min, max⟩ <;> rfl
    simp only [hbroken]
    rcases hc with rfl | rfl | rfl <;> rfl
  | repeated p min max =>
    have hmark : c ≠ '?' := by
      rcases hc with rfl | rfl | rfl <;> decide
    simp only [if_neg hmark]
  | escape | paren | parenMark | bracket =>
    rw [h] at hmode
    exact hmode.elim

theorem mode_settle (hmode : r.mode.MayEnd) : r.settle.mode = .item := by
  unfold settle
  cases h : r.mode with
  | item => exact h
  | atom | counter | repeated => rfl
  | escape | paren | parenMark | bracket =>
    rw [h] at hmode
    exact hmode.elim

/-- A bar ends a branch. -/
theorem run_bar (limits : Limits) (hmode : r.mode.MayEnd) :
    r.run limits ['|'] = .ok { r.settle with
      branches := r.settle.branches.bar, position := r.settle.position + 1 } :=
  run_cons_of_take (take_of_mayEnd hmode (.inr (.inr rfl))) []

/-- Behind an opening parenthesis it is open whether the group captures. -/
theorem run_paren (hmode : r.mode.MayEnd) (hroom : r.groups.length < limits.maxNesting) :
    r.run limits ['('] = .ok { r.settle with
      mode := .paren r.settle.position, position := r.settle.position + 1 } := by
  have htake : r.take limits '(' = .ok (r.settle.enter (.paren r.settle.position)) := by
    rw [take_of_mayEnd hmode (.inl rfl)]
    unfold readItem
    rw [(settle_frame r).2, if_neg (by omega)]
    rfl
  exact run_cons_of_take htake []

/-- The opening of a group that does not capture. -/
theorem run_wrapper (hmode : r.mode.MayEnd) (hroom : r.groups.length < limits.maxNesting) :
    r.run limits ['(', '?', ':'] = .ok { r.settle.openGroup r.settle.position none with
      position := r.settle.position + 3 } :=
  run_append_of_eq (run_paren hmode hroom) ['?', ':']

/-- The opening of a group that captures. The character behind it is read in the group. -/
theorem run_capture (hmode : r.mode.MayEnd) (hroom : r.groups.length < limits.maxNesting)
    (hc : c ≠ '?') (text : List Char) : r.run limits ('(' :: c :: text) =
      ({ r.settle.openCapture r.settle.position with position := r.settle.position + 1 } :
        Reader).run limits (c :: text) := by
  refine (run_append_of_eq (run_paren hmode hroom) (c :: text)).trans (run_cons_congr ?_ text)
  unfold Reader.take
  simp only [if_neg hc]
  rfl

/-- A closing parenthesis ends the innermost group. -/
theorem run_close (limits : Limits) (hmode : r.mode.MayEnd) {g : OpenGroup}
    {outer : List OpenGroup} (hgroups : r.groups = g :: outer) :
    r.run limits [')'] = .ok { r.settle with
      mode := .atom (g.close r.settle.branches.pattern), branches := g.around, groups := outer,
      position := r.settle.position + 1 } := by
  have hsettled : r.settle.groups = g :: outer := by rw [(settle_frame r).2, hgroups]
  have htake : r.take limits ')' = .ok { r.settle with
      mode := .atom (g.close r.settle.branches.pattern)
      branches := g.around
      groups := outer } := by
    rw [take_of_mayEnd hmode (.inr (.inl rfl))]
    unfold readItem
    simp only [hsettled]
  exact run_cons_of_take htake []

/-! ### What can be completed -/

theorem exists_run_closeAll (limits : Limits) (hmode : r.mode.MayEnd) :
    ∃ text r', r.run limits text = .ok r' ∧ r'.mode.MayEnd ∧ r'.groups = [] := by
  induction hgroups : r.groups generalizing r with
  | nil => exact ⟨[], r, rfl, hmode, hgroups⟩
  | cons g outer ih =>
    have hclose := run_close limits hmode hgroups
    obtain ⟨text, r', hrest, hdone⟩ := ih (r := { r.settle with
      mode := .atom (g.close r.settle.branches.pattern), branches := g.around, groups := outer,
      position := r.settle.position + 1 }) trivial rfl
    exact ⟨[')'] ++ text, r', (run_append_of_eq hclose text).trans hrest, hdone⟩

theorem exists_run_closeBracket (limits : Limits) {b : Bracket} (hmode : r.mode = .bracket b)
    (hphase : b.phase.MayClose) : ∃ r', r.run limits [']'] = .ok r' ∧ r'.mode.MayEnd := by
  obtain ⟨ranges, hstep⟩ := Bracket.exists_close hphase r.position
  exact ⟨_, run_cons_of_take (take_bracket_closed limits hmode hstep) [], trivial⟩

/-- What has been begun can be completed. -/
theorem exists_run_mayEnd (limits : Limits) (r : Reader) :
    ∃ text r', r.run limits text = .ok r' ∧ r'.mode.MayEnd := by
  cases hmode : r.mode with
  | item | atom | counter | repeated =>
    refine ⟨[], r, rfl, ?_⟩
    rw [hmode]
    trivial
  | escape start =>
    have htake : r.take limits 'a' = .ok (r.enter (.atom (.char 'a'))) := by
      unfold Reader.take
      rw [hmode]
      rfl
    exact ⟨_, _, run_cons_of_take htake [], trivial⟩
  | paren start =>
    have htake : r.take limits '|' =
        .ok { r.openCapture start with branches := Branches.fresh.bar } := by
      unfold Reader.take
      rw [hmode]
      rfl
    exact ⟨_, _, run_cons_of_take htake [], trivial⟩
  | parenMark start =>
    have htake : r.take limits ':' = .ok (r.openGroup start none) := by
      unfold Reader.take
      rw [hmode]
      rfl
    exact ⟨_, _, run_cons_of_take htake [], trivial⟩
  | bracket b =>
    by_cases hphase : b.phase.MayClose
    · obtain ⟨r', hrun, hend⟩ := exists_run_closeBracket limits hmode hphase
      exact ⟨_, r', hrun, hend⟩
    · obtain ⟨c, b', hstep, hphase'⟩ := Bracket.exists_mayClose hphase r.position
      obtain ⟨r₁, hreach⟩ := exists_reaches_bracket limits hmode hstep
      obtain ⟨r', hrun, hend⟩ := exists_run_closeBracket limits hreach.mode hphase'
      exact ⟨_, r', (run_append_of_eq hreach.run [']']).trans hrun, hend⟩

/-- **Whatever has been read can be completed.** -/
theorem exists_completion (limits : Limits) (r : Reader) :
    ∃ text r' n, r.run limits text = .ok r' ∧ r'.finish = .ok n := by
  obtain ⟨s, r₁, hbegun, hmode₁⟩ := exists_run_mayEnd limits r
  obtain ⟨t, r₂, hclosed, hmode₂, hgroups₂⟩ := exists_run_closeAll limits hmode₁
  refine ⟨s ++ t, r₂, ⟨r₂.settle.branches.pattern, r₂.parents⟩, ?_, ?_⟩
  · rw [run_append_of_eq hbegun, hclosed]
  · exact finish_eq_ok.2 ⟨ReaderMode.mayEnd_iff.1 hmode₂, hgroups₂, rfl⟩

/-- What is not complete at the end of a text is reported as such. -/
theorem Follows.finish_error (h : r.Follows text) (hfinish : r.finish = .error f) :
    (f.locate text).AtEnd text := by
  obtain ⟨hposition, hmode⟩ := h
  unfold finish at hfinish
  split at hfinish
  · cases hfinish
    trivial
  · cases hfinish
    trivial
  next start heq =>
    cases hfinish
    rw [heq] at hmode
    have hdrop : text.drop start = ['(', '?'] := hmode
    have hlength := congrArg List.length hdrop
    rw [List.length_drop] at hlength
    simp only [List.length_cons, List.length_nil] at hlength
    refine ⟨?_, ?_⟩
    · show (text.drop start).take (r.position - start) = ['(', '?']
      rw [hdrop, hposition, hlength]
      rfl
    · show start + 2 = text.length
      omega
  · cases hfinish
    trivial
  · split at hfinish
    · cases hfinish
    · cases hfinish
      trivial

end Reader

namespace NumberedPattern

variable {limits : Limits} {text : String} {e : ReadError}

theorem follows_of_run {r : Reader} {u : List Char} (h : Reader.initial.run limits u = .ok r) :
    r.Follows u := by
  have hinitial : Reader.initial.Follows [] := ⟨rfl, trivial⟩
  exact hinitial.run h

/-- An error is found on a character or at the end. -/
theorem read_eq_error (h : read limits text = .error e) :
    ∃ f : ReadFailure, e = f.locate text.toList ∧
      (Reader.initial.run limits text.toList = .error f ∨
        ∃ r, Reader.initial.run limits text.toList = .ok r ∧ r.finish = .error f) := by
  unfold read readChars at h
  cases hrun : Reader.initial.run limits text.toList with
  | error f =>
    rw [hrun] at h
    cases h
    exact ⟨f, rfl, .inl rfl⟩
  | ok r =>
    rw [hrun] at h
    cases hfinish : r.finish with
    | error f =>
      simp only [Except.bind, hfinish] at h
      cases h
      exact ⟨f, rfl, .inr ⟨r, rfl, hfinish⟩⟩
    | ok n =>
      simp only [Except.bind, hfinish] at h
      cases h

/-- **More text repairs the errors at the end and no others.** If the end of the text comes inside a
group, a class or an escape, or behind the question mark of an opening, then there is a text behind
which the pattern can be read. Every other error stays as it is, whatever follows. -/
theorem read_append_of_error (h : read limits text = .error e) :
    (e.AtEnd text.toList → ∃ more n, read limits (text ++ more) = .ok n) ∧
      (¬ e.AtEnd text.toList → ∀ more, read limits (text ++ more) = .error e) := by
  obtain ⟨f, rfl, hrun | ⟨r, hrun, hfinish⟩⟩ := read_eq_error h
  · -- found on a character
    obtain ⟨before, c, after, r, hsplit, hbefore, hstep⟩ := exists_step_of_foldlM_error hrun
    have hfound : f.FoundAt before.length :=
      (follows_of_run hbefore).take_error (Reader.take_of_step_error hstep)
    have hlength : text.toList.length = before.length + (after.length + 1) := by
      rw [hsplit, List.length_append, List.length_cons]
    refine ⟨fun hend => absurd hend (hfound.not_atEnd (by omega)), fun _ more => ?_⟩
    have hstop : f.stop ≤ text.toList.length := by
      rw [hfound.stop]
      omega
    unfold read readChars
    rw [String.toList_append, Reader.run_append, hrun]
    exact congrArg Except.error (ReadFailure.locate_append hstop more.toList)
  · -- found at the end
    refine ⟨fun _ => ?_, fun hnot => absurd ((follows_of_run hrun).finish_error hfinish) hnot⟩
    obtain ⟨more, r', n, hmore, hdone⟩ := Reader.exists_completion limits r
    refine ⟨String.ofList more, n, read_eq_ok.2 ⟨r', ?_, hdone⟩⟩
    rw [String.toList_append, String.toList_ofList, Reader.run_append, hrun]
    exact hmore

/-- A text that ends behind a backslash inside a class inside two groups, and one with a counter
that runs backwards. -/
theorem read_append_of_error_class_and_counter :
    read ⟨2, 9⟩ "(?:x\x7b2(b|[^z-\\" = .error ⟨.unterminatedClass, 9, "[^z-\\".toList⟩ ∧
      (∃ more n, read ⟨2, 9⟩ ("(?:x\x7b2(b|[^z-\\" ++ more) = .ok n) ∧
      read ⟨2, 9⟩ "(a{7,3}" = .error ⟨.invalidRepetition, 2, "{7,3}".toList⟩ ∧
      ∀ more, read ⟨2, 9⟩ ("(a{7,3}" ++ more) = .error ⟨.invalidRepetition, 2, "{7,3}".toList⟩ := by
  have hclass : read ⟨2, 9⟩ "(?:x\x7b2(b|[^z-\\" =
      .error ⟨.unterminatedClass, 9, "[^z-\\".toList⟩ := by cbv
  have hcounter : read ⟨2, 9⟩ "(a{7,3}" = .error ⟨.invalidRepetition, 2, "{7,3}".toList⟩ := by cbv
  exact ⟨hclass, (read_append_of_error hclass).1 trivial, hcounter,
    (read_append_of_error hcounter).2 not_false⟩

end NumberedPattern

end Submatch
