import Mathlib
import Submatch.Proofs.Pattern.BracketText
import Submatch.Proofs.Pattern.Repetition

/-!
# Errors point at what they report

Every kind of error is about a certain piece of text: a counter, a range, a parenthesis and so on
(`ReadCause.Shows`). The reader knows at every time where the pieces lie that it has begun
(`Reader.Locates`), and every character keeps this so (`Reader.Locates.step`). So an error begins
where such a piece begins, and ends with the last character that has been read
(`Reader.Locates.take_error`, `Reader.Locates.finish_error`).

* `NumberedPattern.read_error_shows`: an error lies inside the text, and its fragment is the piece
  that it reports.
-/

namespace Submatch

/-- The piece of text is one that an error of this kind is about. -/
def ReadCause.Shows : ReadCause → List Char → Prop
  | .unclosedGroup, shown => ∃ more, shown = '(' :: more
  | .unmatchedParen, shown => shown = [')']
  | .unterminatedClass, shown => ∃ more, shown = '[' :: more
  | .descendingRange, shown => ∃ lower upper lo hi, Bracket.Literal lower lo ∧
      Bracket.Literal upper hi ∧ hi.toNat < lo.toNat ∧ shown = lower ++ '-' :: upper
  | .nothingToRepeat, shown => ∃ mark ∈ ['*', '+', '?'], shown = [mark]
  | .invalidRepetition, shown => ∃ min max, Counter.Spells shown min (some max) ∧ max < min
  | .repetitionTooLarge limit, shown => ∃ min max, Counter.Spells shown min max ∧
      (limit < min ∨ ∃ m ∈ max, limit < m)
  | .danglingEscape, shown => shown = ['\\']
  | .unsupportedGroup, shown => shown = ['(', '?'] ∨ ∃ c, c ≠ ':' ∧ shown = ['(', '?', c]
  | .nestingTooDeep _, shown => shown = ['(']

/-- The failure begins where what it reports begins, and goes to the end of the text. -/
structure ReadFailure.Reports (text : List Char) (f : ReadFailure) : Prop where
  stop : f.stop = text.length
  shown : f.cause.Shows (text.drop f.start)

/-- The item of a class that has been begun lies at the end of the text. -/
def BracketPhase.Begun (text : List Char) : BracketPhase → Prop
  | opened | first | item => True
  | escape start => text.drop start = ['\\']
  | lower start lo => Bracket.Literal (text.drop start) lo
  | dash start lo => ∃ name, Bracket.Literal name lo ∧ text.drop start = name ++ ['-']
  | upperEscape start lo => ∃ name, Bracket.Literal name lo ∧ text.drop start = name ++ ['-', '\\']

/-- What has been begun lies at the end of the text. -/
def ReaderMode.Begun (text : List Char) : ReaderMode → Prop
  | .counter _ k => text.drop k.start = k.text ∧ k.phase.Reads k.text
  | .escape start => text.drop start = ['\\']
  | .bracket b => (∃ more, text.drop b.start = '[' :: more) ∧ b.phase.Begun text
  | .item | .atom _ | .repeated .. | .paren _ | .parenMark _ => True

/-- The group has been opened by a parenthesis of the text. -/
def OpenGroup.Opens (text : List Char) (g : OpenGroup) : Prop :=
  ∃ more, text.drop g.start = '(' :: more

variable {text : List Char} {c : Char} {f : ReadFailure}

theorem drop_concat_of_ne_nil {start : Nat} (h : text.drop start ≠ []) (c : Char) :
    (text ++ [c]).drop start = text.drop start ++ [c] := by
  refine List.drop_append_of_le_length ?_
  have hpos := List.length_pos_iff.2 h
  rw [List.length_drop] at hpos
  omega

theorem length_succ_eq_concat (text : List Char) (c : Char) :
    text.length + 1 = (text ++ [c]).length := by
  rw [List.length_append, List.length_singleton]

theorem OpenGroup.Opens.concat {g : OpenGroup} (h : g.Opens text) (c : Char) :
    g.Opens (text ++ [c]) := by
  obtain ⟨more, hmore⟩ := h
  exact ⟨more ++ [c], Reader.drop_append_of_drop_eq hmore c⟩

/-- Whatever an error is about is not empty. -/
theorem ReadCause.Shows.ne_nil {cause : ReadCause} {shown : List Char} (h : cause.Shows shown) :
    shown ≠ [] := by
  rintro rfl
  cases cause with
  | unclosedGroup | unterminatedClass =>
    obtain ⟨more, hmore⟩ := h
    cases hmore
  | unmatchedParen | danglingEscape | nestingTooDeep => cases h
  | descendingRange =>
    obtain ⟨lower, upper, lo, hi, -, -, -, hshown⟩ := h
    simp at hshown
  | nothingToRepeat =>
    obtain ⟨mark, -, hmark⟩ := h
    cases hmark
  | invalidRepetition =>
    obtain ⟨min, max, hspells, -⟩ := h
    obtain ⟨c, more, -, hmore⟩ := hspells.exists_digit
    cases hmore
  | repetitionTooLarge limit =>
    obtain ⟨min, max, hspells, -⟩ := h
    obtain ⟨c, more, -, hmore⟩ := hspells.exists_digit
    cases hmore
  | unsupportedGroup =>
    rcases h with h | ⟨c, -, h⟩ <;> cases h

theorem ReadFailure.Reports.start_lt (h : f.Reports text) : f.start < text.length := by
  have hpos := List.length_pos_iff.2 h.shown.ne_nil
  rw [List.length_drop] at hpos
  omega

/-! ### Bracket classes -/

namespace Bracket

variable {b b' : Bracket}

theorem Literal.ne_nil {name : List Char} {lo : Char} (h : Literal name lo) : name ≠ [] := by
  cases h <;> nofun

theorem begun_readItem (b : Bracket) (h : b.readItem text.length c = .more b') :
    b'.start = b.start ∧ b'.phase.Begun (text ++ [c]) := by
  have hlast : (text ++ [c]).drop text.length = [c] := List.drop_left
  unfold readItem at h
  split at h
  · cases h
  next hclose =>
    split at h
    next hslash =>
      cases h
      subst hslash
      exact ⟨rfl, hlast⟩
    next hslash =>
      cases h
      refine ⟨rfl, ?_⟩
      show Literal ((text ++ [c]).drop text.length) c
      rw [hlast]
      exact .plain hclose hslash

theorem begun_readFirst (b : Bracket) (h : b.readFirst text.length c = .more b') :
    b'.start = b.start ∧ b'.phase.Begun (text ++ [c]) := by
  unfold readFirst at h
  split at h
  · cases h
    exact ⟨rfl, trivial⟩
  · exact begun_readItem b h

theorem begun_readUpper {start stop : Nat} {lo hi : Char}
    (h : b.readUpper start stop lo hi = .ok (.more b')) :
    b'.start = b.start ∧ b'.phase.Begun (text ++ [c]) := by
  obtain ⟨hle, rfl⟩ := exists_span_of_readUpper h
  exact ⟨rfl, trivial⟩

theorem begun_step (hbegun : b.phase.Begun text) (h : b.step text.length c = .ok (.more b')) :
    b'.start = b.start ∧ b'.phase.Begun (text ++ [c]) := by
  unfold step at h
  cases hphase : b.phase with
  | opened =>
    simp only [hphase] at h
    split at h
    · cases h
      exact ⟨rfl, trivial⟩
    · exact begun_readFirst b (Except.ok.inj h)
  | first =>
    simp only [hphase] at h
    exact begun_readFirst b (Except.ok.inj h)
  | item =>
    simp only [hphase] at h
    exact begun_readItem b (Except.ok.inj h)
  | escape start =>
    rw [hphase] at hbegun
    have hdrop : text.drop start = ['\\'] := hbegun
    simp only [hphase] at h
    split at h
    · cases h
      exact ⟨rfl, trivial⟩
    · cases h
      refine ⟨rfl, ?_⟩
      show Literal ((text ++ [c]).drop start) (escaped c)
      rw [Reader.drop_append_of_drop_eq hdrop]
      exact .escape c
  | lower start lo =>
    rw [hphase] at hbegun
    have hname : Literal (text.drop start) lo := hbegun
    simp only [hphase] at h
    split at h
    next hdash =>
      cases h
      subst hdash
      exact ⟨rfl, _, hname, drop_concat_of_ne_nil hname.ne_nil '-'⟩
    next => exact begun_readItem (b.push (.char lo)) (Except.ok.inj h)
  | dash start lo =>
    rw [hphase] at hbegun
    obtain ⟨name, hname, hdrop⟩ :
      ∃ name, Literal name lo ∧ text.drop start = name ++ ['-'] := hbegun
    simp only [hphase] at h
    split at h
    · cases h
    · split at h
      next hslash =>
        cases h
        subst hslash
        refine ⟨rfl, name, hname, ?_⟩
        rw [drop_concat_of_ne_nil (by rw [hdrop]; simp), hdrop, List.append_assoc]
        rfl
      next => exact begun_readUpper h
  | upperEscape start lo =>
    simp only [hphase] at h
    exact begun_readUpper h

/-- A range that runs backwards is one from its lower bound to its upper one. -/
theorem step_reports (hbegun : b.phase.Begun text) (h : b.step text.length c = .error f) :
    f.Reports (text ++ [c]) := by
  have hupper : ∀ {start : Nat} {lo hi : Char} {name between upper : List Char}, Literal name lo →
      Literal upper hi → text.drop start = name ++ '-' :: between → upper = between ++ [c] →
      b.readUpper start (text.length + 1) lo hi = .error f → f.Reports (text ++ [c]) := by
    intro start lo hi name between upper hname hupper hdrop hbetween hread
    unfold readUpper at hread
    split at hread
    · cases hread
    next hlt =>
      cases hread
      refine ⟨length_succ_eq_concat text c, name, upper, lo, hi, hname, hupper,
        Nat.lt_of_not_le hlt, ?_⟩
      show (text ++ [c]).drop start = _
      rw [drop_concat_of_ne_nil (by rw [hdrop]; simp), hdrop, hbetween, List.append_assoc]
      rfl
  unfold step at h
  cases hphase : b.phase with
  | opened =>
    simp only [hphase] at h
    split at h <;> cases h
  | first | item =>
    simp only [hphase] at h
    cases h
  | escape start =>
    simp only [hphase] at h
    split at h <;> cases h
  | lower start lo =>
    simp only [hphase] at h
    split at h <;> cases h
  | dash start lo =>
    rw [hphase] at hbegun
    obtain ⟨name, hname, hdrop⟩ :
      ∃ name, Literal name lo ∧ text.drop start = name ++ ['-'] := hbegun
    simp only [hphase] at h
    split at h
    · cases h
    next hclose =>
      split at h
      · cases h
      next hslash => exact hupper hname (.plain hclose hslash) hdrop rfl h
  | upperEscape start lo =>
    rw [hphase] at hbegun
    obtain ⟨name, hname, hdrop⟩ :
      ∃ name, Literal name lo ∧ text.drop start = name ++ ['-', '\\'] := hbegun
    simp only [hphase] at h
    exact hupper hname (.escape c) hdrop rfl h

end Bracket

/-! ### The reader -/

namespace Reader

variable {limits : Limits} {r r' : Reader} {p : Pattern}

/-- The reader has read the text, and knows where in it the pieces lie that have been begun. -/
structure Locates (text : List Char) (r : Reader) : Prop extends Follows text r where
  begun : r.mode.Begun text
  groups : ∀ g ∈ r.groups, g.Opens text

theorem locates_initial : initial.Locates [] := ⟨⟨rfl, trivial⟩, trivial, nofun⟩

/-- Reading an item, or what is behind one, opens no group. -/
theorem groups_readItem (h : r.readItem limits c = .ok r') : r'.groups ⊆ r.groups := by
  unfold readItem at h
  split at h
  · split at h <;> cases h
    exact List.Subset.refl _
  · split at h
    · cases h
    next g outer hgroups =>
      cases h
      rw [hgroups]
      exact List.subset_cons_self g outer
  · cases h
    exact List.Subset.refl _
  · cases h
    exact List.Subset.refl _
  · cases h
    exact List.Subset.refl _
  · cases h
    exact List.Subset.refl _
  · cases h
  · cases h
  · cases h
  · cases h
    exact List.Subset.refl _

theorem begun_readItem (hposition : r.position = text.length) (hmode : r.mode = .item)
    (h : r.readItem limits c = .ok r') : r'.mode.Begun (text ++ [c]) := by
  have hlast : (text ++ [c]).drop r.position = [c] := by
    rw [hposition]
    exact List.drop_left
  unfold readItem at h
  split at h
  · split at h <;> cases h
    trivial
  · split at h <;> cases h
    trivial
  · cases h
    show r.mode.Begun _
    rw [hmode]
    trivial
  · cases h
    exact ⟨⟨[], hlast⟩, trivial⟩
  · cases h
    trivial
  · cases h
    exact hlast
  · cases h
  · cases h
  · cases h
  · cases h
    trivial

theorem readItem_reports (hposition : r.position = text.length)
    (h : r.readItem limits c = .error f) : f.Reports (text ++ [c]) := by
  have hlast : (text ++ [c]).drop r.position = [c] := by
    rw [hposition]
    exact List.drop_left
  have hstop : r.position + 1 = (text ++ [c]).length := by
    rw [hposition, length_succ_eq_concat]
  unfold readItem at h
  split at h
  · split at h <;> cases h
    exact ⟨hstop, hlast⟩
  · split at h <;> cases h
    exact ⟨hstop, hlast⟩
  · cases h
  · cases h
  · cases h
  · cases h
  · cases h
    exact ⟨hstop, '*', by decide, hlast⟩
  · cases h
    exact ⟨hstop, '+', by decide, hlast⟩
  · cases h
    exact ⟨hstop, '?', by decide, hlast⟩
  · cases h

theorem groups_readMark (h : r.readMark limits p c = .ok r') : r'.groups ⊆ r.groups := by
  unfold readMark at h
  split at h
  · cases h
    exact List.Subset.refl _
  · cases h
    exact List.Subset.refl _
  · cases h
    exact List.Subset.refl _
  · cases h
    exact List.Subset.refl _
  · exact groups_readItem (r := r.push p) h

theorem begun_readMark (hposition : r.position = text.length)
    (h : r.readMark limits p c = .ok r') : r'.mode.Begun (text ++ [c]) := by
  unfold readMark at h
  split at h
  · cases h
    trivial
  · cases h
    trivial
  · cases h
    trivial
  · cases h
    refine ⟨?_, Counter.reads_opened _⟩
    show (text ++ ['\x7b']).drop r.position = ['\x7b']
    rw [hposition]
    exact List.drop_left
  · exact begun_readItem (r := r.push p) hposition rfl h

theorem readMark_reports (hposition : r.position = text.length)
    (h : r.readMark limits p c = .error f) : f.Reports (text ++ [c]) := by
  unfold readMark at h
  split at h
  · cases h
  · cases h
  · cases h
  · cases h
  · exact readItem_reports (r := r.push p) hposition h

theorem repeatCounted_eq_ok {start stop min : Nat} {max : Option Nat}
    (h : r.repeatCounted limits p start stop min max = .ok r') :
    r' = r.enter (.repeated p min max) := by
  unfold repeatCounted at h
  split at h
  · cases h
  · split at h <;> cases h
    rfl

/-- A counter that is refused is shown as it is written. -/
theorem repeatCounted_reports {start n : Nat} {m : Option Nat}
    (hspells : Counter.Spells ((text ++ [c]).drop start) n m)
    (h : r.repeatCounted limits p start (text.length + 1) (cutOff n) (m.map cutOff) = .error f) :
    f.Reports (text ++ [c]) := by
  have hcut : ∀ i, cutOff i ≤ i := Nat.min_le_right _
  have hstop := length_succ_eq_concat text c
  by_cases hexceeded : limits.Exceeded (cutOff n) (m.map cutOff)
  · rw [repeatCounted_of_exceeded hexceeded] at h
    cases h
    refine ⟨hstop, n, m, hspells, ?_⟩
    rcases hexceeded with hmin | ⟨_, hm, hmax⟩
    · exact .inl (Nat.lt_of_lt_of_le hmin (hcut n))
    · obtain ⟨i, hi, rfl⟩ := Option.mem_map.1 hm
      exact .inr ⟨i, hi, Nat.lt_of_lt_of_le hmax (hcut i)⟩
  · by_cases hlt : ∃ i ∈ m.map cutOff, i < cutOff n
    · rw [repeatCounted_of_lt hexceeded hlt] at h
      cases h
      obtain ⟨_, hm, hless⟩ := hlt
      obtain ⟨i, rfl, rfl⟩ := Option.map_eq_some_iff.1 hm
      refine ⟨hstop, n, i, hspells, ?_⟩
      unfold cutOff at hless
      omega
    · rw [repeatCounted_of_le hexceeded fun i hi => Nat.le_of_not_lt fun hi' => hlt ⟨i, hi, hi'⟩]
        at h
      cases h

/-- Groups that were open have been opened before. -/
theorem Locates.opens (h : r.Locates text) (hsub : r'.groups ⊆ r.groups) (c : Char) :
    ∀ g ∈ r'.groups, g.Opens (text ++ [c]) :=
  fun g hg => (h.groups g (hsub hg)).concat c

theorem groups_breakCounter (r : Reader) (p : Pattern) (k : Counter) :
    (r.breakCounter p k).groups = r.groups :=
  (foldl_push_frame (r.push p) k.earlier.reverse).2

/-- **Every character keeps the pieces located.** -/
theorem Locates.take (h : r.Locates text) (htake : r.take limits c = .ok r') :
    r'.mode.Begun (text ++ [c]) ∧ ∀ g ∈ r'.groups, g.Opens (text ++ [c]) := by
  obtain ⟨⟨hposition, hfollows⟩, hbegun, hgroups⟩ := id h
  unfold Reader.take at htake
  cases hmode : r.mode with
  | item =>
    simp only [hmode] at htake
    exact ⟨begun_readItem hposition hmode htake, h.opens (groups_readItem htake) c⟩
  | atom p =>
    simp only [hmode] at htake
    exact ⟨begun_readMark hposition htake, h.opens (groups_readMark htake) c⟩
  | counter p k =>
    rw [hmode] at hbegun
    obtain ⟨hdrop, hreads⟩ := hbegun
    simp only [hmode] at htake
    split at htake
    next k' hstep =>
      cases htake
      refine ⟨?_, h.opens (List.Subset.refl _) c⟩
      obtain ⟨-, phase, rfl⟩ := Counter.step_eq_more hstep
      refine ⟨?_, hreads.step hstep⟩
      show (text ++ [c]).drop k.start = _
      have hne : text.drop k.start ≠ [] := by
        rw [hdrop, Counter.text]
        simp
      rw [drop_concat_of_ne_nil hne, hdrop, Counter.text_extend]
    next =>
      obtain rfl := repeatCounted_eq_ok htake
      exact ⟨trivial, h.opens (List.Subset.refl _) c⟩
    next =>
      have hbroken : (r.breakCounter p k).position = text.length := by
        rw [position_breakCounter, hposition]
      have hsub := groups_readMark htake
      rw [groups_breakCounter] at hsub
      exact ⟨begun_readMark hbroken htake, h.opens hsub c⟩
  | repeated p min max =>
    simp only [hmode] at htake
    split at htake
    · cases htake
      exact ⟨trivial, h.opens (List.Subset.refl _) c⟩
    · rw [settle_of_repeated hmode] at htake
      exact ⟨begun_readItem (r := r.push _) hposition rfl htake,
        h.opens (groups_readItem (r := r.push _) htake) c⟩
  | escape start =>
    simp only [hmode] at htake
    split at htake <;> cases htake <;> exact ⟨trivial, h.opens (List.Subset.refl _) c⟩
  | paren start =>
    rw [hmode] at hfollows
    have hopens : ∀ g ∈ (r.openCapture start).groups, g.Opens (text ++ [c]) := by
      refine List.forall_mem_cons.2 ⟨?_, h.opens (List.Subset.refl _) c⟩
      exact ⟨_, drop_append_of_drop_eq hfollows c⟩
    simp only [hmode] at htake
    split at htake
    · cases htake
      exact ⟨trivial, h.opens (List.Subset.refl _) c⟩
    · exact ⟨begun_readItem (r := r.openCapture start) hposition rfl htake,
        fun g hg => hopens g (groups_readItem htake hg)⟩
  | parenMark start =>
    rw [hmode] at hfollows
    simp only [hmode] at htake
    split at htake
    · cases htake
      refine ⟨trivial, List.forall_mem_cons.2 ⟨?_, h.opens (List.Subset.refl _) c⟩⟩
      exact ⟨_, drop_append_of_drop_eq hfollows c⟩
    · cases htake
  | bracket b =>
    rw [hmode] at hbegun
    obtain ⟨⟨more, hmore⟩, hphase⟩ := hbegun
    simp only [hmode] at htake
    obtain ⟨next, hstep, hread⟩ := bind_eq_ok.1 htake
    rcases next with b' | ranges
    · cases hread
      rw [hposition] at hstep
      obtain ⟨hstart, hphase'⟩ := Bracket.begun_step hphase hstep
      refine ⟨⟨⟨more ++ [c], ?_⟩, hphase'⟩, h.opens (List.Subset.refl _) c⟩
      rw [hstart]
      exact drop_append_of_drop_eq hmore c
    · cases hread
      exact ⟨trivial, h.opens (List.Subset.refl _) c⟩

theorem Locates.step (h : r.Locates text) (hstep : r.step limits c = .ok r') :
    r'.Locates (text ++ [c]) := by
  have hfollows := h.toFollows.step hstep
  obtain ⟨next, htake, hnext⟩ := bind_eq_ok.1 hstep
  cases hnext
  obtain ⟨hbegun, hgroups⟩ := h.take htake
  exact ⟨hfollows, hbegun, hgroups⟩

theorem Locates.run (h : r.Locates text) {more : List Char} (hrun : r.run limits more = .ok r') :
    r'.Locates (text ++ more) := by
  induction more generalizing r text with
  | nil =>
    cases hrun
    rw [List.append_nil]
    exact h
  | cons c more ih =>
    unfold Reader.run at hrun
    rw [List.foldlM_cons, bind_eq_ok] at hrun
    obtain ⟨r₁, hstep, hrest⟩ := hrun
    have hlocates := ih (h.step hstep) hrest
    rwa [List.append_assoc] at hlocates

/-- **An error on a character reports a piece of text that ends with it.** -/
theorem Locates.take_error (h : r.Locates text) (htake : r.take limits c = .error f) :
    f.Reports (text ++ [c]) := by
  obtain ⟨⟨hposition, hfollows⟩, hbegun, -⟩ := h
  unfold Reader.take at htake
  cases hmode : r.mode with
  | item =>
    simp only [hmode] at htake
    exact readItem_reports hposition htake
  | atom p =>
    simp only [hmode] at htake
    exact readMark_reports hposition htake
  | counter p k =>
    rw [hmode] at hbegun
    obtain ⟨hdrop, hreads⟩ := hbegun
    simp only [hmode] at htake
    split at htake
    · cases htake
    next hstep =>
      obtain ⟨n, m, hspells, rfl, rfl⟩ := hreads.exists_spells hstep
      have hne : text.drop k.start ≠ [] := by
        rw [hdrop, Counter.text]
        simp
      rw [← hdrop, ← drop_concat_of_ne_nil hne] at hspells
      rw [hposition] at htake
      exact repeatCounted_reports hspells htake
    · have hbroken : (r.breakCounter p k).position = text.length := by
        rw [position_breakCounter, hposition]
      exact readMark_reports hbroken htake
  | repeated p min max =>
    simp only [hmode] at htake
    split at htake
    · cases htake
    · rw [settle_of_repeated hmode] at htake
      exact readItem_reports (r := r.push _) hposition htake
  | escape start =>
    simp only [hmode] at htake
    split at htake <;> cases htake
  | paren start =>
    simp only [hmode] at htake
    split at htake
    · cases htake
    · exact readItem_reports (r := r.openCapture start) hposition htake
  | parenMark start =>
    rw [hmode] at hfollows
    simp only [hmode] at htake
    split at htake
    · cases htake
    next hcolon =>
      cases htake
      refine ⟨?_, .inr ⟨c, hcolon, drop_append_of_drop_eq hfollows c⟩⟩
      rw [hposition, ← length_succ_eq_concat]
  | bracket b =>
    rw [hmode] at hbegun
    simp only [hmode] at htake
    cases hstep : b.step r.position c with
    | error f' =>
      rw [hstep] at htake
      cases htake
      rw [hposition] at hstep
      exact Bracket.step_reports hbegun.2 hstep
    | ok next =>
      rw [hstep] at htake
      rcases next with b' | ranges <;> cases htake

/-- **An error at the end reports what is not complete.** -/
theorem Locates.finish_error (h : r.Locates text) (hfinish : r.finish = .error f) :
    f.Reports text := by
  obtain ⟨⟨hposition, hfollows⟩, hbegun, hgroups⟩ := h
  unfold finish at hfinish
  split at hfinish
  next start hmode =>
    cases hfinish
    rw [hmode] at hbegun
    exact ⟨hposition, hbegun⟩
  next start hmode =>
    cases hfinish
    rw [hmode] at hfollows
    exact ⟨hposition, [], hfollows⟩
  next start hmode =>
    cases hfinish
    rw [hmode] at hfollows
    exact ⟨hposition, .inl hfollows⟩
  next b hmode =>
    cases hfinish
    rw [hmode] at hbegun
    exact ⟨hposition, hbegun.1⟩
  next =>
    split at hfinish
    · cases hfinish
    next g outer hopen =>
      cases hfinish
      exact ⟨hposition, hgroups g (by rw [hopen]; exact List.mem_cons_self)⟩

end Reader

namespace NumberedPattern

variable {limits : Limits} {text : String} {e : ReadError}

theorem locates_of_run {r : Reader} {u : List Char} (h : Reader.initial.run limits u = .ok r) :
    r.Locates u :=
  Reader.locates_initial.run h

/-- The fragment of a failure that ends with what has been read is the rest of that. -/
theorem fragment_locate {read rest : List Char} {f : ReadFailure} (h : f.Reports read) :
    (f.locate (read ++ rest)).fragment = read.drop f.start := by
  show ((read ++ rest).drop f.start).take (f.stop - f.start) = _
  have hlength : f.stop - f.start = (read.drop f.start).length := by
    rw [List.length_drop, h.stop]
  rw [List.drop_append_of_le_length (Nat.le_of_lt h.start_lt), hlength, List.take_left]

/-- A text that cannot be read has been read up to what the error reports, and if that is something
that is not complete, it has been read to the end. -/
theorem exists_reports (h : read limits text = .error e) : ∃ f before rest,
    Reader.initial.answer limits text.toList = .error f ∧ e = f.locate text.toList ∧
      text.toList = before ++ rest ∧ f.Reports before ∧
      (e.cause = .unclosedGroup ∨ e.cause = .unterminatedClass ∨ e.cause = .danglingEscape →
        rest = []) := by
  obtain ⟨f, rfl, hrun | ⟨r, hrun, hfinish⟩⟩ := read_eq_error h
  · obtain ⟨before, c, after, r, hsplit, hbefore, hstep⟩ := exists_step_of_foldlM_error hrun
    have htake := Reader.take_of_step_error hstep
    refine ⟨f, before ++ [c], after, ?_, rfl, by rw [hsplit]; simp,
      (locates_of_run hbefore).take_error htake, fun hend => ?_⟩
    · unfold Reader.answer
      rw [hrun]
      rfl
    · have hcause := ((follows_of_run hbefore).take_error htake).cause
      have hsame : (f.locate text.toList).cause = f.cause := rfl
      rw [hsame] at hend
      rcases hend with hend | hend | hend <;> rw [hend] at hcause <;> exact hcause.elim
  · refine ⟨f, text.toList, [], ?_, rfl, (List.append_nil _).symm,
      (locates_of_run hrun).finish_error hfinish, fun _ => rfl⟩
    unfold Reader.answer
    rw [hrun]
    exact hfinish

/-- **Every error points at what it reports.** The failure lies between two offsets of the text, the
first below the second, and the fragment is what stands between them: the piece of text that the
error is about. For a group or a class that is not closed, and for a backslash with nothing behind
it, that is the rest of the text. For a counted repetition that is refused it is the counter, from
brace to brace. -/
theorem read_error_shows (h : read limits text = .error e) :
    (∃ f, Reader.initial.answer limits text.toList = .error f ∧ e = f.locate text.toList ∧
      f.start < f.stop ∧ f.stop ≤ text.toList.length) ∧
    e.offset < text.toList.length ∧ e.fragment ≠ [] ∧ e.fragment <+: text.toList.drop e.offset ∧
    e.cause.Shows e.fragment ∧
    (e.cause = .unclosedGroup ∨ e.cause = .unterminatedClass ∨ e.cause = .danglingEscape →
      e.fragment = text.toList.drop e.offset) ∧
    (e.cause = .invalidRepetition ∨ (∃ limit, e.cause = .repetitionTooLarge limit) →
      ∃ min max, Counter.Spells e.fragment min max) := by
  obtain ⟨f, before, rest, hanswer, rfl, hsplit, hreports, hend⟩ := exists_reports h
  have hlt := hreports.start_lt
  have hlength : before.length ≤ text.toList.length := by
    rw [hsplit, List.length_append]
    omega
  have hfragment : (f.locate text.toList).fragment = before.drop f.start := by
    rw [hsplit]
    exact fragment_locate hreports
  have hdrop : text.toList.drop f.start = before.drop f.start ++ rest := by
    rw [hsplit]
    exact List.drop_append_of_le_length (Nat.le_of_lt hlt)
  have hshows : f.cause.Shows (f.locate text.toList).fragment := by
    rw [hfragment]
    exact hreports.shown
  refine ⟨⟨f, hanswer, rfl, ?_, ?_⟩, ?_, hshows.ne_nil, ?_, hshows, fun hcause => ?_,
    fun hcause => ?_⟩
  · rw [hreports.stop]
    exact hlt
  · rw [hreports.stop]
    exact hlength
  · exact Nat.lt_of_lt_of_le hlt hlength
  · rw [hfragment]
    exact ⟨rest, hdrop.symm⟩
  · rw [hfragment]
    show _ = text.toList.drop f.start
    rw [hdrop, hend hcause, List.append_nil]
  · rcases hcause with hcause | ⟨limit, hcause⟩
    · rw [show f.cause = .invalidRepetition from hcause] at hshows
      obtain ⟨min, max, hspells, -⟩ := hshows
      exact ⟨min, some max, hspells⟩
    · rw [show f.cause = .repetitionTooLarge limit from hcause] at hshows
      obtain ⟨min, max, hspells, -⟩ := hshows
      exact ⟨min, max, hspells⟩

/-- A range of escapes that runs backwards, a counter that does, and a class that is not closed in a
group that is not closed either. -/
theorem read_error_shows_backwards :
    read ⟨2, 9⟩ "(a|[x\\n-\\t])" = .error ⟨.descendingRange, 5, "\\n-\\t".toList⟩ ∧
      5 < "(a|[x\\n-\\t])".toList.length ∧
      ReadCause.descendingRange.Shows "\\n-\\t".toList ∧
      read ⟨2, 9⟩ "(a{7,3}" = .error ⟨.invalidRepetition, 2, "{7,3}".toList⟩ ∧
      (∃ min max, Counter.Spells "{7,3}".toList min max) ∧
      read ⟨2, 9⟩ "(a[^\\d-" = .error ⟨.unterminatedClass, 2, "[^\\d-".toList⟩ ∧
      "[^\\d-".toList = "(a[^\\d-".toList.drop 2 := by
  have hrange : read ⟨2, 9⟩ "(a|[x\\n-\\t])" =
      .error ⟨.descendingRange, 5, "\\n-\\t".toList⟩ := by cbv
  have hcounter : read ⟨2, 9⟩ "(a{7,3}" = .error ⟨.invalidRepetition, 2, "{7,3}".toList⟩ := by cbv
  have hclass : read ⟨2, 9⟩ "(a[^\\d-" =
      .error ⟨.unterminatedClass, 2, "[^\\d-".toList⟩ := by cbv
  obtain ⟨-, hoffset, -, -, hshows, -⟩ := read_error_shows hrange
  obtain ⟨-, -, -, -, -, -, hspells⟩ := read_error_shows hcounter
  obtain ⟨-, -, -, -, -, hrest, -⟩ := read_error_shows hclass
  exact ⟨hrange, hoffset, hshows, hcounter, hspells (.inl rfl), hclass, hrest (.inr (.inl rfl))⟩

end NumberedPattern

end Submatch
