import Submatch.Pattern.Printer
import Submatch.Pattern.Reader
import Submatch.Proofs.Fault
import Submatch.Proofs.Pattern.Bracket
import Submatch.Proofs.Pattern.Counter

/-!
# Reading printed parts

What the reader makes of the parts of a printed pattern that contain no pattern themselves: a
character (`exists_reaches_char`), a class (`exists_reaches_set`) and a counter, which is read as it
is spelled whether it has been printed or not (`exists_reaches_spelled`). While such a part is read
only the mode of the reader changes (`Reader.Reaches`), so the characters can be followed one by
one.
-/

namespace Submatch

open Pattern

/-- The place in a bracket class is one where an item may start, or the class may end unless nothing
has been read yet. -/
def BracketPhase.StartsItem : BracketPhase → Prop
  | opened | first | item => True
  | escape _ | lower .. | dash .. | upperEscape .. => False

/-- A scalar value is the number of its character. -/
theorem toNat_ofNat_of_isValidChar {n : Nat} (h : n.isValidChar) : (Char.ofNat n).toNat = n := by
  unfold Char.ofNat
  rw [dif_pos h]
  rfl

namespace Reader

variable {limits : Limits} {r r' r'' : Reader} {text more : List Char} {mode mode' : ReaderMode}
  {c : Char} {p : Pattern} {k k' : Counter} {b b' : Bracket}

/-! ### One character -/

theorem take_brace (limits : Limits) (h : r.mode = .atom p) :
    r.take limits '\x7b' = .ok (r.enter (.counter p (.opened r.position))) := by
  unfold take
  rw [h]
  rfl

theorem take_counter (limits : Limits) (h : r.mode = .counter p k) (hstep : k.step c = .more k') :
    r.take limits c = .ok (r.enter (.counter p k')) := by
  unfold take
  rw [h]
  simp only [hstep]

theorem take_bracket (limits : Limits) (h : r.mode = .bracket b)
    (hstep : b.step r.position c = .ok (.more b')) :
    r.take limits c = .ok (r.enter (.bracket b')) := by
  unfold take
  rw [h]
  simp only [hstep]
  rfl

theorem take_bracket_closed (limits : Limits) (h : r.mode = .bracket b) {ranges : List SymbolRange}
    (hstep : b.step r.position c = .ok (.closed ranges)) :
    r.take limits c = .ok (r.enter (.atom (.set ranges))) := by
  unfold take
  rw [h]
  simp only [hstep]
  rfl

theorem repeatCounted_of_exceeded {min : Nat} {max : Option Nat} (h : limits.Exceeded min max)
    (r : Reader) (p : Pattern) (start stop : Nat) :
    r.repeatCounted limits p start stop min max =
      .error ⟨.repetitionTooLarge limits.maxRepetition, start, stop⟩ := by
  unfold repeatCounted
  refine if_pos ?_
  simpa [Limits.Exceeded, Option.any_eq_true] using h

theorem repeatCounted_of_lt {min : Nat} {max : Option Nat} (h : ¬ limits.Exceeded min max)
    (hlt : ∃ m ∈ max, m < min) (r : Reader) (p : Pattern) (start stop : Nat) :
    r.repeatCounted limits p start stop min max = .error ⟨.invalidRepetition, start, stop⟩ := by
  unfold repeatCounted
  rw [if_neg (by simpa [Limits.Exceeded, Option.any_eq_false] using h)]
  refine if_pos ?_
  simpa [Option.any_eq_true] using hlt

theorem repeatCounted_of_le {min : Nat} {max : Option Nat} (h : ¬ limits.Exceeded min max)
    (hle : ∀ m ∈ max, min ≤ m) (r : Reader) (p : Pattern) (start stop : Nat) :
    r.repeatCounted limits p start stop min max = .ok (r.enter (.repeated p min max)) := by
  unfold repeatCounted
  rw [if_neg (by simpa [Limits.Exceeded, Option.any_eq_false] using h)]
  refine if_neg ?_
  simpa [Option.any_eq_false] using hle

theorem run_cons_of_take (h : r.take limits c = .ok r') (text : List Char) :
    r.run limits (c :: text) =
      ({ r' with position := r'.position + 1 } : Reader).run limits text := by
  have hstep : r.step limits c = .ok { r' with position := r'.position + 1 } := by
    unfold step
    rw [h]
    rfl
  unfold run
  rw [List.foldlM_cons, hstep]
  rfl

theorem run_cons_congr (h : r.take limits c = r'.take limits c) (text : List Char) :
    r.run limits (c :: text) = r'.run limits (c :: text) := by
  have hstep : r.step limits c = r'.step limits c := by
    unfold step
    rw [h]
  unfold run
  rw [List.foldlM_cons, List.foldlM_cons, hstep]

theorem run_append_of_eq (h : r.run limits text = .ok r') (more : List Char) :
    r.run limits (text ++ more) = r'.run limits more := by
  rw [run_append, h]
  rfl

/-- Reading the text takes the reader `r` to `r'`, with which only the mode has changed. -/
structure Reaches (limits : Limits) (text : List Char) (mode : ReaderMode) (r r' : Reader) :
    Prop where
  run : r.run limits text = .ok r'
  mode : r'.mode = mode
  branches : r'.branches = r.branches
  groups : r'.groups = r.groups
  parents : r'.parents = r.parents

theorem reaches_nil (hmode : r.mode = mode) : Reaches limits [] mode r r :=
  ⟨rfl, hmode, rfl, rfl, rfl⟩

theorem exists_reaches_of_take (h : r.take limits c = .ok (r.enter mode)) :
    ∃ r', Reaches limits [c] mode r r' :=
  ⟨_, run_cons_of_take h [], rfl, rfl, rfl, rfl⟩

theorem Reaches.append (h : Reaches limits text mode r r')
    (hmore : Reaches limits more mode' r' r'') : Reaches limits (text ++ more) mode' r r'' where
  run := (run_append_of_eq h.run more).trans hmore.run
  mode := hmore.mode
  branches := hmore.branches.trans h.branches
  groups := hmore.groups.trans h.groups
  parents := hmore.parents.trans h.parents

variable (limits)

/-! ### Classes -/

theorem exists_reaches_bracket (hmode : r.mode = .bracket b)
    (h : b.step r.position c = .ok (.more b')) : ∃ r', Reaches limits [c] (.bracket b') r r' :=
  exists_reaches_of_take (take_bracket limits hmode h)

theorem mem_of_needsBracketEscape (h : needsBracketEscape c = true) :
    c = ']' ∨ c = '\\' ∨ c = '^' ∨ c = '-' := by
  simpa [needsBracketEscape] using h

theorem ne_of_not_needsBracketEscape (h : needsBracketEscape c = false) :
    c ≠ ']' ∧ c ≠ '\\' ∧ c ≠ '^' ∧ c ≠ '-' := by
  simpa [needsBracketEscape] using h

/-- Behind a backslash a character of the syntax stands for itself. -/
theorem escaped_eq_of_needsBracketEscape (h : needsBracketEscape c = true) :
    Shorthand.ofLetter? c = none ∧ escaped c = c := by
  rcases mem_of_needsBracketEscape h with rfl | rfl | rfl | rfl <;> exact ⟨rfl, rfl⟩

/-- The first character of an item, unless the syntax gives it a meaning there. -/
theorem step_startsItem (hphase : b.phase.StartsItem) (position : Nat) (hclose : c ≠ ']')
    (hcaret : c ≠ '^') : b.step position c = .ok (b.readItem position c) := by
  unfold Bracket.step
  cases h : b.phase with
  | opened => simp [Bracket.readFirst, hclose, hcaret]
  | first => simp [Bracket.readFirst, hclose]
  | item => rfl
  | escape | lower | dash | upperEscape =>
    rw [h] at hphase
    exact hphase.elim

/-- A printed character at the start of an item is read as a lower bound. -/
theorem exists_reaches_lower (hmode : r.mode = .bracket b) (hphase : b.phase.StartsItem)
    (lo : Char) : ∃ start r', Reaches limits (printChar needsBracketEscape lo)
      (.bracket (b.enter (.lower start lo))) r r' := by
  refine ⟨r.position, ?_⟩
  unfold printChar
  cases hneeds : needsBracketEscape lo with
  | true =>
    obtain ⟨hshorthand, hescaped⟩ := escaped_eq_of_needsBracketEscape hneeds
    have hstep : b.step r.position '\\' = .ok (.more (b.enter (.escape r.position))) := by
      rw [step_startsItem hphase _ (by decide) (by decide)]
      rfl
    obtain ⟨r₁, hslash⟩ := exists_reaches_bracket limits hmode hstep
    have hstep' : (b.enter (.escape r.position)).step r₁.position lo =
        .ok (.more (b.enter (.lower r.position lo))) := by
      simp only [Bracket.step, Bracket.enter, hshorthand, hescaped]
    obtain ⟨r₂, hchar⟩ := exists_reaches_bracket limits hslash.mode hstep'
    exact ⟨r₂, hslash.append hchar⟩
  | false =>
    obtain ⟨hclose, hslash, hcaret, -⟩ := ne_of_not_needsBracketEscape hneeds
    refine exists_reaches_bracket limits hmode ?_
    rw [step_startsItem hphase _ hclose hcaret]
    simp only [Bracket.readItem, if_neg hclose, if_neg hslash]

/-- A printed character behind a dash is read as the upper bound. -/
theorem exists_reaches_upper {start : Nat} {lo : Char}
    (hmode : r.mode = .bracket (b.enter (.dash start lo))) (hi : Char)
    (hle : lo.toNat ≤ hi.toNat) : ∃ r', Reaches limits (printChar needsBracketEscape hi)
      (.bracket (b.push (.span lo hi hle))) r r' := by
  unfold printChar
  cases hneeds : needsBracketEscape hi with
  | true =>
    obtain ⟨-, hescaped⟩ := escaped_eq_of_needsBracketEscape hneeds
    have hstep : (b.enter (.dash start lo)).step r.position '\\' =
        .ok (.more (b.enter (.upperEscape start lo))) := rfl
    obtain ⟨r₁, hslash⟩ := exists_reaches_bracket limits hmode hstep
    have hstep' : (b.enter (.upperEscape start lo)).step r₁.position hi =
        .ok (.more (b.push (.span lo hi hle))) := by
      simp only [Bracket.step, Bracket.enter, Bracket.readUpper, hescaped, dif_pos hle]
      rfl
    obtain ⟨r₂, hchar⟩ := exists_reaches_bracket limits hslash.mode hstep'
    exact ⟨r₂, hslash.append hchar⟩
  | false =>
    obtain ⟨hclose, hslash, -, -⟩ := ne_of_not_needsBracketEscape hneeds
    refine exists_reaches_bracket limits hmode ?_
    simp only [Bracket.step, Bracket.enter, if_neg hclose, if_neg hslash, Bracket.readUpper,
      dif_pos hle]
    rfl

/-- A printed range is read as an item that denotes it. -/
theorem exists_reaches_range (hmode : r.mode = .bracket b) (hphase : b.phase.StartsItem)
    {s : SymbolRange} (hlo : s.lo.isValidChar) (hhi : s.hi.isValidChar) :
    ∃ item r', item.ranges = [s] ∧
      Reaches limits (printRange s) (.bracket (b.push item)) r r' := by
  have hlo' : (Char.ofNat s.lo).toNat = s.lo := toNat_ofNat_of_isValidChar hlo
  have hhi' : (Char.ofNat s.hi).toNat = s.hi := toNat_ofNat_of_isValidChar hhi
  have hle : (Char.ofNat s.lo).toNat ≤ (Char.ofNat s.hi).toNat := by
    rw [hlo', hhi']
    exact s.lo_le_hi
  obtain ⟨start, r₁, hlower⟩ := exists_reaches_lower limits hmode hphase (.ofNat s.lo)
  have hstep : (b.enter (.lower start (.ofNat s.lo))).step r₁.position '-' =
      .ok (.more (b.enter (.dash start (.ofNat s.lo)))) := rfl
  obtain ⟨r₂, hdash⟩ := exists_reaches_bracket limits hlower.mode hstep
  obtain ⟨r₃, hupper⟩ := exists_reaches_upper limits hdash.mode (.ofNat s.hi) hle
  refine ⟨_, r₃, ?_, hlower.append (hdash.append hupper)⟩
  simp only [BracketItem.ranges, hlo', hhi']

/-- Printed ranges behind an item are read as items that denote them. -/
theorem exists_reaches_ranges (hmode : r.mode = .bracket b) (hphase : b.phase = .item)
    {ranges : List SymbolRange} (hvalid : ∀ s ∈ ranges, s.lo.isValidChar ∧ s.hi.isValidChar) :
    ∃ b' r', Reaches limits (ranges.flatMap printRange) (.bracket b') r r' ∧ b'.phase = .item ∧
      b'.isNegated = b.isNegated ∧ b'.items.reverse.flatMap BracketItem.ranges =
        b.items.reverse.flatMap BracketItem.ranges ++ ranges := by
  induction ranges generalizing r b with
  | nil => exact ⟨b, r, reaches_nil hmode, hphase, rfl, (List.append_nil _).symm⟩
  | cons s ranges ih =>
    obtain ⟨⟨hlo, hhi⟩, hrest⟩ := List.forall_mem_cons.1 hvalid
    have hstarts : b.phase.StartsItem := by
      rw [hphase]
      trivial
    obtain ⟨item, r₁, hitem, hrange⟩ := exists_reaches_range limits hmode hstarts hlo hhi
    obtain ⟨b', r₂, hranges, hlast, hnegated, hitems⟩ := ih hrange.mode rfl hrest
    refine ⟨b', r₂, hrange.append hranges, hlast, hnegated, ?_⟩
    rw [hitems]
    simp [Bracket.push, hitem]

/-- Behind an item the closing bracket ends the class. -/
theorem exists_reaches_close (hmode : r.mode = .bracket b) (hphase : b.phase = .item) :
    ∃ r', Reaches limits [']'] (.atom (.set b.ranges)) r r' := by
  have hstep : b.step r.position ']' = .ok (.closed b.ranges) := by
    unfold Bracket.step
    rw [hphase]
    rfl
  exact exists_reaches_of_take (take_bracket_closed limits hmode hstep)

/-- The class that leaves out the whole domain is empty. -/
theorem ranges_negated_full {item : BracketItem} (hitem : item.ranges = [.full])
    (start : Nat) (phase : BracketPhase) : Bracket.ranges ⟨start, true, [item], phase⟩ = [] := by
  have hnormal : RangeSet.normalize [SymbolRange.full] = [.full] :=
    RangeSet.Separated.normalize_eq (List.pairwise_singleton ..)
  unfold Bracket.ranges Bracket.union
  rw [if_pos rfl, List.reverse_singleton, List.flatMap_singleton, hitem, hnormal]
  rfl

/-- **A printed class is read as the set of its ranges.** -/
theorem exists_reaches_set (hmode : r.mode = .item) {ranges : List SymbolRange}
    (hseparated : RangeSet.Separated ranges)
    (hvalid : ∀ s ∈ ranges, s.lo.isValidChar ∧ s.hi.isValidChar) :
    ∃ r', Reaches limits (printSet ranges) (.atom (.set ranges)) r r' := by
  have htake : r.take limits '[' = .ok (r.enter (.bracket (.opened r.position))) := by
    unfold take
    rw [hmode]
    rfl
  obtain ⟨r₁, hopen⟩ := exists_reaches_of_take htake
  cases ranges with
  | nil =>
    have hnegate : (Bracket.opened r.position).step r₁.position '^' =
        .ok (.more ⟨r.position, true, [], .first⟩) := rfl
    obtain ⟨r₂, hcaret⟩ := exists_reaches_bracket limits hopen.mode hnegate
    obtain ⟨item, r₃, hitem, hrange⟩ := exists_reaches_range limits hcaret.mode trivial
      (s := .full) (by decide) (by decide)
    obtain ⟨r₄, hclose⟩ := exists_reaches_close limits hrange.mode rfl
    have hempty := ranges_negated_full hitem r.position .item
    rw [show Bracket.push ⟨r.position, true, [], .first⟩ item =
      ⟨r.position, true, [item], .item⟩ from rfl, hempty] at hclose
    exact ⟨r₄, hopen.append (hcaret.append (hrange.append hclose))⟩
  | cons s ranges =>
    obtain ⟨⟨hlo, hhi⟩, hrest⟩ := List.forall_mem_cons.1 hvalid
    obtain ⟨item, r₂, hitem, hrange⟩ := exists_reaches_range limits hopen.mode trivial hlo hhi
    obtain ⟨b', r₃, hranges, hlast, hpositive, hitems⟩ :=
      exists_reaches_ranges limits hrange.mode rfl hrest
    have hall : b'.items.reverse.flatMap BracketItem.ranges = s :: ranges := by
      rw [hitems]
      simp [Bracket.opened, Bracket.push, hitem]
    have hset : b'.ranges = s :: ranges := by
      unfold Bracket.ranges Bracket.union
      rw [hpositive, hall]
      exact RangeSet.Separated.normalize_eq hseparated
    obtain ⟨r₄, hclose⟩ := exists_reaches_close limits hranges.mode hlast
    rw [hset] at hclose
    have htext : printSet (s :: ranges) =
        ['['] ++ (printRange s ++ (ranges.flatMap printRange ++ [']'])) := by
      simp [printSet]
    rw [htext]
    exact ⟨r₄, hopen.append (hrange.append (hranges.append hclose))⟩

/-! ### Characters -/

/-- A printed character is read as itself. -/
theorem exists_reaches_char (hmode : r.mode = .item) (c : Char) :
    ∃ r', Reaches limits (printChar needsEscape c) (.atom (.char c)) r r' := by
  unfold printChar
  cases hneeds : needsEscape c with
  | true =>
    have htake : r.take limits '\\' = .ok (r.enter (.escape r.position)) := by
      unfold take
      rw [hmode]
      rfl
    obtain ⟨r₁, hslash⟩ := exists_reaches_of_take htake
    have hescaped : Shorthand.ofLetter? c = none ∧ escaped c = c := by
      have hmem : c ∈ ['(', ')', '[', '.', '\\', '*', '+', '?', '|', '\x7b'] := by
        simpa [needsEscape] using hneeds
      simp only [List.mem_cons, List.not_mem_nil, or_false] at hmem
      rcases hmem with rfl | rfl | rfl | rfl | rfl | rfl | rfl | rfl | rfl | rfl <;>
        exact ⟨rfl, rfl⟩
    have htake' : r₁.take limits c = .ok (r₁.enter (.atom (.char c))) := by
      unfold take
      rw [hslash.mode]
      simp only [hescaped.1, hescaped.2]
    obtain ⟨r₂, hchar⟩ := exists_reaches_of_take htake'
    exact ⟨r₂, hslash.append hchar⟩
  | false =>
    refine exists_reaches_of_take ?_
    unfold take
    rw [hmode]
    have hplain : c ≠ '(' ∧ c ≠ ')' ∧ c ≠ '[' ∧ c ≠ '.' ∧ c ≠ '\\' ∧ c ≠ '*' ∧ c ≠ '+' ∧
        c ≠ '?' ∧ c ≠ '|' ∧ c ≠ '\x7b' := by
      simpa [needsEscape] using hneeds
    unfold readItem
    split <;> simp_all

/-! ### Counters -/

theorem exists_reaches_counter (hmode : r.mode = .counter p k) (h : k.step c = .more k') :
    ∃ r', Reaches limits [c] (.counter p k') r r' :=
  exists_reaches_of_take (take_counter limits hmode h)

/-- A counter in which a count is being read: the first one, or the second. -/
def CountPhase (phase : Option Nat → CounterPhase) : Prop :=
  phase = .first ∨ ∃ min, phase = .second min

/-- One more digit of the count. -/
theorem step_digit {phase : Option Nat → CounterPhase} (hphase : CountPhase phase)
    {count : Option Nat} (hk : k.phase = phase count) (hc : c.isDigit = true) :
    k.step c = .more (k.extend c (phase (some (addDigit (count.getD 0) (c.toNat - 48))))) := by
  have hdigit := digit?_of_isDigit hc
  unfold Counter.step
  rcases hphase with rfl | ⟨min, rfl⟩ <;> simp only [hdigit, hk]

/-- Digits are read as a count, behind those `done` that have been read of it. -/
theorem exists_reaches_digits {phase : Option Nat → CounterPhase} (hphase : CountPhase phase)
    (hmode : r.mode = .counter p k) {count : Option Nat} (hk : k.phase = phase count)
    {done ds : List Char} (hcount : Counter.Counts count done)
    (hds : ∀ c ∈ ds, c.isDigit = true) :
    ∃ k' r' count', Reaches limits ds (.counter p k') r r' ∧ k'.start = k.start ∧
      k'.phase = phase count' ∧ Counter.Counts count' (done ++ ds) := by
  induction ds generalizing r k count done with
  | nil =>
    refine ⟨k, r, count, reaches_nil hmode, rfl, hk, ?_⟩
    rw [List.append_nil]
    exact hcount
  | cons c ds ih =>
    obtain ⟨hc, hrest⟩ := List.forall_mem_cons.1 hds
    obtain ⟨r₁, hdigit⟩ := exists_reaches_counter limits hmode (step_digit hphase hk hc)
    obtain ⟨k', r', count', hdigits, hstart, hk', hcount'⟩ :=
      ih hdigit.mode rfl (hcount.concat hc) hrest
    rw [List.append_assoc] at hcount'
    exact ⟨k', r', count', hdigit.append hdigits, hstart, hk', hcount'⟩

/-- A counter up to the digits of its first count. -/
theorem exists_reaches_first (hatom : r.mode = .atom p) {ds : List Char}
    (hds : Counter.Digits ds) :
    ∃ k r', Reaches limits ('\x7b' :: ds) (.counter p k) r r' ∧ k.start = r.position ∧
      k.phase = .first (some (cutOff (Counter.value ds))) := by
  obtain ⟨r₁, hopen⟩ := exists_reaches_of_take (take_brace limits hatom)
  have hphase : CountPhase .first := .inl rfl
  obtain ⟨k, r', count, hdigits, hstart, hk, hcount⟩ :=
    exists_reaches_digits limits hphase hopen.mode rfl .none hds.isDigit
  obtain ⟨-, rfl⟩ := hcount.eq_some hds.ne_nil
  exact ⟨k, r', hopen.append hdigits, hstart, hk⟩

/-- A counter up to the comma. -/
theorem exists_reaches_comma (hatom : r.mode = .atom p) {ds : List Char}
    (hds : Counter.Digits ds) :
    ∃ k r', Reaches limits ('\x7b' :: ds ++ [',']) (.counter p k) r r' ∧ k.start = r.position ∧
      k.phase = .second (cutOff (Counter.value ds)) none := by
  obtain ⟨k, r', hfirst, hstart, hk⟩ := exists_reaches_first limits hatom hds
  have hcomma : k.step ',' = .more (k.extend ',' (.second (cutOff (Counter.value ds)) none)) := by
    unfold Counter.step
    rw [hk]
    rfl
  obtain ⟨r₂, hreach⟩ := exists_reaches_counter limits hfirst.mode hcomma
  exact ⟨_, r₂, hfirst.append hreach, hstart, rfl⟩

/-- **A counter is read as its text spells it**, up to the brace that completes it. -/
theorem exists_reaches_spelled (hatom : r.mode = .atom p) {min : Nat} {max : Option Nat}
    (h : Counter.Spells text min max) :
    ∃ ds k r', text = '\x7b' :: ds ++ ['\x7d'] ∧
      Reaches limits ('\x7b' :: ds) (.counter p k) r r' ∧ k.start = r.position ∧
      k.step '\x7d' = .complete (cutOff min) (max.map cutOff) := by
  cases h with
  | @exactly ds hds =>
    obtain ⟨k, r', hreach, hstart, hk⟩ := exists_reaches_first limits hatom hds
    refine ⟨ds, k, r', rfl, hreach, hstart, ?_⟩
    unfold Counter.step
    rw [hk]
    rfl
  | @atLeast ds hds =>
    obtain ⟨k, r', hreach, hstart, hk⟩ := exists_reaches_comma limits hatom hds
    refine ⟨ds ++ [','], k, r', by simp, hreach, hstart, ?_⟩
    unfold Counter.step
    rw [hk]
    rfl
  | @between ds es hds hes =>
    obtain ⟨k, r', hreach, hstart, hk⟩ := exists_reaches_comma limits hatom hds
    have hphase : CountPhase (.second (cutOff (Counter.value ds))) := .inr ⟨_, rfl⟩
    obtain ⟨k', r'', count, hdigits, hstart', hk', hcount⟩ :=
      exists_reaches_digits limits hphase hreach.mode hk .none hes.isDigit
    obtain ⟨-, rfl⟩ := hcount.eq_some hes.ne_nil
    have htext : '\x7b' :: (ds ++ ',' :: es) = '\x7b' :: ds ++ [','] ++ es := by simp
    refine ⟨ds ++ ',' :: es, k', r'', rfl, ?_, hstart'.trans hstart, ?_⟩
    · rw [htext]
      exact hreach.append hdigits
    · unfold Counter.step
      rw [hk']
      rfl

end Reader

end Submatch
