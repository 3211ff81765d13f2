import Mathlib
import Submatch.Proofs.Pattern.Bracket
import Submatch.Proofs.Pattern.Completion

/-!
# The text of bracket classes

A bracket class is known from its text alone: `Bracket.Body` says how the text splits into items and
what each of them is, and `BracketItem.Contains` which characters an item has. The reader takes
every such text for the class that it spells (`Bracket.Body.exists_closes`), and every class that it
accepts has such a text (`Bracket.Closes.exists_body`).

* `NumberedPattern.read_bracket`: a class contains the characters of its items, or all others.
* `NumberedPattern.read_bracket_upper_letter`: behind the dash of a range a letter that names a
  shorthand elsewhere is a character.
-/

namespace Submatch

/-! ### What items contain -/

/-- The characters of a shorthand. -/
def Shorthand.Contains : Shorthand → Char → Prop
  | digit, c => c.isDigit
  | nonDigit, c => ¬ c.isDigit
  | word, c => c.isAlphanum ∨ c = '_'
  | nonWord, c => ¬ (c.isAlphanum ∨ c = '_')
  | space, c => c ∈ ['\t', '\n', '\x0b', '\x0c', '\r', ' ']
  | nonSpace, c => c ∉ ['\t', '\n', '\x0b', '\x0c', '\r', ' ']

/-- The characters of an item. -/
def BracketItem.Contains : BracketItem → Char → Prop
  | char d, c => c = d
  | span lo hi _, c => lo ≤ c ∧ c ≤ hi
  | shorthand s, c => s.Contains c

theorem RangeSet.Proper.covers_complement {rs : List SymbolRange} (h : Proper rs) (c : Char) :
    covers (RangeSet.complement rs) c.toNat = true ↔ ¬ covers rs c.toNat = true := by
  have hsep : Separated rs := h.separated
  rw [hsep.covers_complement h.inDomain (Char.toNat_le_lastSymbol c), Bool.not_eq_true',
    Bool.not_eq_true]

namespace Shorthand

theorem covers_digits (c : Char) : RangeSet.covers digits c.toNat = true ↔ c.isDigit = true := by
  simp [digits, Char.isDigit, UInt32.le_iff_toNat_le]

theorem covers_wordCharacters (c : Char) :
    RangeSet.covers wordCharacters c.toNat = true ↔ c.isAlphanum = true ∨ c = '_' := by
  simp [wordCharacters, SymbolRange.single, Char.isAlphanum, Char.isAlpha, Char.isUpper,
    Char.isLower, Char.isDigit, UInt32.le_iff_toNat_le, Char.ext_iff, UInt32.ext_iff]
  omega

theorem covers_blanks (c : Char) :
    RangeSet.covers blanks c.toNat = true ↔ c ∈ ['\t', '\n', '\x0b', '\x0c', '\r', ' '] := by
  simp [blanks, SymbolRange.single, Char.ext_iff, UInt32.ext_iff]
  omega

/-- The ranges of a shorthand are its characters. -/
theorem covers_ranges (s : Shorthand) (c : Char) :
    RangeSet.covers s.ranges c.toNat = true ↔ s.Contains c := by
  cases s with
  | digit => exact covers_digits c
  | nonDigit =>
    exact ((proper_ranges digit).covers_complement c).trans (not_congr (covers_digits c))
  | word => exact covers_wordCharacters c
  | nonWord =>
    exact ((proper_ranges word).covers_complement c).trans (not_congr (covers_wordCharacters c))
  | space => exact covers_blanks c
  | nonSpace =>
    exact ((proper_ranges space).covers_complement c).trans (not_congr (covers_blanks c))

/-- The text is a backslash and the letter of the shorthand. -/
def Spells (s : Shorthand) (text : List Char) : Prop :=
  ∃ letter, text = ['\\', letter] ∧ ofLetter? letter = some s

theorem not_spells_singleton (s : Shorthand) (c : Char) : ¬ s.Spells [c] := by
  rintro ⟨letter, hname, -⟩
  cases hname

theorem not_spells_escape {c : Char} (h : ofLetter? c = none) (s : Shorthand) :
    ¬ s.Spells ['\\', c] := by
  rintro ⟨letter, hname, hs⟩
  cases hname
  rw [h] at hs
  cases hs

end Shorthand

/-- The ranges of an item are its characters. -/
theorem BracketItem.covers_ranges (i : BracketItem) (c : Char) :
    RangeSet.covers i.ranges c.toNat = true ↔ i.Contains c := by
  cases i with
  | char d =>
    simp [ranges, SymbolRange.ofChar, SymbolRange.single, Contains, Char.ext_iff, UInt32.ext_iff]
    omega
  | span lo hi h => simp [ranges, Contains, Char.le_def, UInt32.le_iff_toNat_le]
  | shorthand s => exact s.covers_ranges c

namespace Bracket

/-- The class contains the characters of its items, or all others if it is negated. -/
theorem covers_ranges (b : Bracket) (c : Char) : RangeSet.covers b.ranges c.toNat = true ↔
    Xor (∃ i ∈ b.items, i.Contains c) (b.isNegated = true) := by
  have hunion : RangeSet.covers b.union c.toNat = true ↔ ∃ i ∈ b.items, i.Contains c := by
    unfold union
    rw [RangeSet.covers_normalize, RangeSet.covers_eq_true]
    simp only [List.mem_flatMap, List.mem_reverse, ← BracketItem.covers_ranges,
      RangeSet.covers_eq_true]
    constructor
    · rintro ⟨r, ⟨i, hi, hr⟩, hc⟩
      exact ⟨i, hi, r, hr, hc⟩
    · rintro ⟨i, hi, r, hr, hc⟩
      exact ⟨r, ⟨i, hi, hr⟩, hc⟩
  unfold ranges
  split
  next hnegated =>
    rw [b.proper_union.covers_complement, hunion, hnegated]
    simp [Xor]
  next hpositive =>
    rw [hunion]
    simp [Xor, hpositive]

/-! ### The text of items -/

/-- The text stands for the character: it is that character, unless the syntax gives it a meaning in
a class, or a backslash and what is escaped by it. -/
inductive Literal : List Char → Char → Prop
  | plain {c : Char} (hclose : c ≠ ']') (hslash : c ≠ '\\') : Literal [c] c
  | escape (c : Char) : Literal ['\\', c] (escaped c)

/-- The text splits into these items. A dash behind a character makes a range, unless the class ends
behind it. Only where an item starts a backslash and a letter may be a shorthand. -/
inductive Items : List Char → List BracketItem → Prop
  | nil : Items [] []
  | shorthand {name text : List Char} {s : Shorthand} {items : List BracketItem}
      (h : s.Spells name) (hrest : Items text items) :
    Items (name ++ text) (.shorthand s :: items)
  | char {name text : List Char} {c : Char} {items : List BracketItem} (h : Literal name c)
      (hletter : ∀ s : Shorthand, ¬ s.Spells name) (hdash : text.head? = some '-' → text = ['-'])
      (hrest : Items text items) :
    Items (name ++ text) (.char c :: items)
  | span {lower upper text : List Char} {lo hi : Char} {items : List BracketItem}
      (hlo : Literal lower lo) (hletter : ∀ s : Shorthand, ¬ s.Spells lower)
      (hhi : Literal upper hi) (hle : lo.toNat ≤ hi.toNat) (hrest : Items text items) :
    Items (lower ++ '-' :: upper ++ text) (.span lo hi hle :: items)

/-- The text splits into these items, of which there is at least one: a closing bracket that comes
first is an item by itself. -/
inductive FirstItems : List Char → List BracketItem → Prop
  | bracket {text : List Char} {items : List BracketItem} (h : Items text items) :
    FirstItems (']' :: text) (.char ']' :: items)
  | items {text : List Char} {items : List BracketItem} (h : Items text items) (hne : text ≠ []) :
    FirstItems text items

/-- The text between the brackets of a class, with or without a caret in front of the items. -/
inductive Body : List Char → Bool → List BracketItem → Prop
  | positive {text : List Char} {items : List BracketItem} (h : FirstItems text items)
      (hcaret : text.head? ≠ some '^') : Body text false items
  | negative {text : List Char} {items : List BracketItem} (h : FirstItems text items) :
    Body ('^' :: text) true items

/-- Reading the text from the position on closes the class, which denotes these ranges. -/
inductive Closes : Bracket → Nat → List Char → List SymbolRange → Prop
  | last {b : Bracket} {position : Nat} {c : Char} {ranges : List SymbolRange}
      (h : b.step position c = .ok (.closed ranges)) : Closes b position [c] ranges
  | more {b b' : Bracket} {position : Nat} {c : Char} {text : List Char}
      {ranges : List SymbolRange} (h : b.step position c = .ok (.more b'))
      (hrest : Closes b' (position + 1) text ranges) : Closes b position (c :: text) ranges

/-- The class with more items. -/
def addAll (b : Bracket) (items : List BracketItem) : Bracket :=
  { b with items := items.reverse ++ b.items }

variable {b b' : Bracket} {position : Nat} {c : Char} {text : List Char} {ranges : List SymbolRange}
  {items : List BracketItem}

theorem ranges_push_addAll (b : Bracket) (item : BracketItem) (items : List BracketItem) :
    ((b.push item).addAll items).ranges = (b.addAll (item :: items)).ranges := by
  have hitems : items.reverse ++ item :: b.items = (item :: items).reverse ++ b.items := by simp
  unfold addAll push
  rw [hitems]
  rfl

/-- Only what is done with the next character counts. -/
theorem Closes.congr (hstep : b.step position c = b'.step position c)
    (h : b.Closes position (c :: text) ranges) : b'.Closes position (c :: text) ranges := by
  cases h with
  | last h => exact .last (hstep ▸ h)
  | more h hrest => exact .more (hstep ▸ h) hrest

end Bracket

/-- The text read of the item that is not complete yet. -/
inductive BracketPhase.Pending : BracketPhase → List Char → Prop
  | item : Pending .item []
  | escape (start : Nat) : Pending (.escape start) ['\\']
  | lower {name : List Char} {lo : Char} (start : Nat) (h : Bracket.Literal name lo)
      (hletter : ∀ s : Shorthand, ¬ s.Spells name) : Pending (.lower start lo) name
  | dash {name : List Char} {lo : Char} (start : Nat) (h : Bracket.Literal name lo)
      (hletter : ∀ s : Shorthand, ¬ s.Spells name) : Pending (.dash start lo) (name ++ ['-'])
  | upperEscape {name : List Char} {lo : Char} (start : Nat) (h : Bracket.Literal name lo)
      (hletter : ∀ s : Shorthand, ¬ s.Spells name) :
    Pending (.upperEscape start lo) (name ++ ['-', '\\'])

namespace Bracket

variable {b b' : Bracket} {position : Nat} {c : Char} {text : List Char} {ranges : List SymbolRange}
  {items : List BracketItem}

/-! ### Every class that is accepted has such a text -/

/-- The first character of an item. -/
theorem exists_phase_of_readItem (h : b.readItem position c = .more b') :
    ∃ phase, b' = b.enter phase ∧ phase.Pending [c] := by
  unfold readItem at h
  split at h
  · cases h
  next hclose =>
    split at h
    next hslash =>
      cases h
      subst hslash
      exact ⟨_, rfl, .escape position⟩
    next hslash =>
      cases h
      exact ⟨_, rfl, .lower position (.plain hclose hslash) (·.not_spells_singleton c)⟩

theorem eq_bracket_of_readItem (h : b.readItem position c = .closed ranges) :
    c = ']' ∧ ranges = b.ranges := by
  refine ⟨?_, eq_ranges_of_readItem h⟩
  unfold readItem at h
  by_contra hclose
  rw [if_neg hclose] at h
  split at h <;> cases h

/-- The upper bound of a range. -/
theorem exists_span_of_readUpper {start stop : Nat} {lo hi : Char}
    (h : b.readUpper start stop lo hi = .ok (.more b')) :
    ∃ hle : lo.toNat ≤ hi.toNat, b' = b.push (.span lo hi hle) := by
  unfold readUpper at h
  split at h
  next hle =>
    cases h
    exact ⟨hle, rfl⟩
  next => cases h

theorem items_char {name : List Char} (h : Literal name c)
    (hletter : ∀ s : Shorthand, ¬ s.Spells name) : Items name [.char c] := by
  have hdash : ([] : List Char).head? = some '-' → [] = ['-'] := nofun
  have hitems := Items.char h hletter hdash .nil
  rwa [List.append_nil] at hitems

theorem items_dash : Items ['-'] [.char '-'] :=
  items_char (.plain (by decide) (by decide)) (·.not_spells_singleton '-')

/-- What is pending when the class is closed is complete. -/
theorem exists_items_of_step_closed {begun : List Char} (hbegun : b.phase.Pending begun)
    (h : b.step position c = .ok (.closed ranges)) :
    c = ']' ∧ ∃ items, Items begun items ∧ ranges = (b.addAll items).ranges := by
  unfold step at h
  generalize b.phase = phase at hbegun h
  cases hbegun with
  | item =>
    obtain ⟨hc, hranges⟩ := eq_bracket_of_readItem (Except.ok.inj h)
    exact ⟨hc, [], .nil, hranges⟩
  | escape start => simp only at h; split at h <;> cases h
  | lower start hname hletter =>
    simp only at h
    split at h
    · cases h
    · obtain ⟨hc, hranges⟩ := eq_bracket_of_readItem (Except.ok.inj h)
      exact ⟨hc, _, items_char hname hletter, hranges⟩
  | dash start hname hletter =>
    simp only at h
    split at h
    next hc =>
      -- the dash is the last item
      cases h
      exact ⟨hc, _, .char hname hletter (fun _ => rfl) items_dash, rfl⟩
    · split at h
      · cases h
      · exact absurd h readUpper_ne_closed
  | upperEscape start hname hletter => exact absurd h readUpper_ne_closed

/-- One more character of a class. It completes the items `done`, if any, and what is pending behind
it belongs to the next one. -/
theorem exists_pending_of_step_more {begun : List Char} (hbegun : b.phase.Pending begun)
    (h : b.step position c = .ok (.more b')) : ∃ done next, b'.phase.Pending next ∧
      (∀ items, (b'.addAll items).ranges = (b.addAll (done ++ items)).ranges) ∧
      ∀ body items, Items (next ++ body) items → Items (begun ++ c :: body) (done ++ items) := by
  unfold step at h
  generalize b.phase = phase at hbegun h
  cases hbegun with
  | item =>
    obtain ⟨phase, rfl, hpending⟩ := exists_phase_of_readItem (Except.ok.inj h)
    exact ⟨[], [c], hpending, fun _ => rfl, fun _ _ hitems => hitems⟩
  | escape start =>
    simp only at h
    split at h
    next s hs =>
      cases h
      have hspells : s.Spells ['\\', c] := ⟨c, rfl, hs⟩
      refine ⟨[.shorthand s], [], .item, ranges_push_addAll b _, fun body items hitems => ?_⟩
      show Items (['\\', c] ++ body) _
      exact .shorthand hspells hitems
    next hnone =>
      cases h
      exact ⟨[], ['\\', c], .lower start (.escape c) (Shorthand.not_spells_escape hnone),
        fun _ => rfl, fun _ _ hitems => hitems⟩
  | @lower _ lo start hname hletter =>
    simp only at h
    split at h
    next hc =>
      subst hc
      cases h
      refine ⟨[], begun ++ ['-'], .dash start hname hletter, fun _ => rfl,
        fun body items hitems => ?_⟩
      rwa [List.append_assoc] at hitems
    next hc =>
      obtain ⟨phase, rfl, hpending⟩ := exists_phase_of_readItem (Except.ok.inj h)
      refine ⟨[.char lo], [c], hpending, ranges_push_addAll b _, fun body items hitems => ?_⟩
      exact .char hname hletter (fun hdash => absurd (Option.some.inj hdash) hc) hitems
  | @dash name lo start hname hletter =>
    simp only at h
    split at h
    · cases h
    next hclose =>
      split at h
      next hslash =>
        subst hslash
        cases h
        refine ⟨[], name ++ ['-', '\\'], .upperEscape start hname hletter, fun _ => rfl,
          fun body items hitems => ?_⟩
        rw [List.append_assoc] at hitems ⊢
        exact hitems
      next hslash =>
        obtain ⟨hle, rfl⟩ := exists_span_of_readUpper h
        refine ⟨[.span lo c hle], [], .item, ranges_push_addAll b _, fun body items hitems => ?_⟩
        have hspan := Items.span hname hletter (.plain hclose hslash) hle hitems
        rwa [List.append_assoc] at hspan ⊢
  | @upperEscape name lo start hname hletter =>
    obtain ⟨hle, rfl⟩ := exists_span_of_readUpper h
    refine ⟨[.span lo (escaped c) hle], [], .item, ranges_push_addAll b _,
      fun body items hitems => ?_⟩
    have hspan := Items.span hname hletter (.escape c) hle hitems
    rwa [List.append_assoc] at hspan ⊢

/-- **The text of a class that is closed splits into items**, those that the class denotes. -/
theorem Closes.exists_items (h : b.Closes position text ranges) {begun : List Char}
    (hbegun : b.phase.Pending begun) : ∃ body items, text = body ++ [']'] ∧
      Items (begun ++ body) items ∧ ranges = (b.addAll items).ranges := by
  induction h generalizing begun with
  | last h =>
    obtain ⟨rfl, items, hitems, hranges⟩ := exists_items_of_step_closed hbegun h
    refine ⟨[], items, rfl, ?_, hranges⟩
    rwa [List.append_nil]
  | more h hrest ih =>
    obtain ⟨done, next, hnext, hdone, hmore⟩ := exists_pending_of_step_more hbegun h
    obtain ⟨body, items, rfl, hitems, hranges⟩ := ih hnext
    exact ⟨_ :: body, done ++ items, rfl, hmore body items hitems, hranges.trans (hdone items)⟩

theorem step_first_close (hphase : b.phase = .first) (position : Nat) :
    b.step position ']' = .ok (.more (b.push (.char ']'))) := by
  unfold step
  rw [hphase]
  rfl

theorem step_first (hphase : b.phase = .first) (hclose : c ≠ ']') (position : Nat) :
    b.step position c = (b.enter .item).step position c := by
  unfold step
  rw [hphase]
  exact congrArg Except.ok (if_neg hclose)

theorem step_opened {start : Nat} (hcaret : c ≠ '^') (position : Nat) :
    (opened start).step position c = ((opened start).enter .first).step position c :=
  if_neg hcaret

theorem Closes.exists_firstItems (h : b.Closes position text ranges) (hphase : b.phase = .first) :
    ∃ body items, text = body ++ [']'] ∧ FirstItems body items ∧
      ranges = (b.addAll items).ranges := by
  rcases text with _ | ⟨c, text⟩
  · cases h
  by_cases hclose : c = ']'
  · -- the bracket is an item by itself
    subst hclose
    cases h with
    | last h =>
      rw [step_first_close hphase] at h
      cases h
    | more h hrest =>
      rw [step_first_close hphase] at h
      cases h
      obtain ⟨body, items, rfl, hitems, hranges⟩ := hrest.exists_items .item
      exact ⟨']' :: body, .char ']' :: items, rfl, .bracket hitems,
        hranges.trans (ranges_push_addAll b _ items)⟩
  · obtain ⟨body, items, htext, hitems, hranges⟩ :=
      (h.congr (step_first hphase hclose position)).exists_items .item
    have hne : body ≠ [] := by
      rintro rfl
      cases htext
      exact hclose rfl
    exact ⟨body, items, htext, .items hitems hne, hranges⟩

/-- **A class that is closed has a text that spells it.** -/
theorem Closes.exists_body {start : Nat} (h : (opened start).Closes position text ranges) :
    ∃ body isNegated items, text = body ++ [']'] ∧ Body body isNegated items := by
  rcases text with _ | ⟨c, text⟩
  · cases h
  by_cases hcaret : c = '^'
  · subst hcaret
    cases h with
    | last h => cases h
    | more h hrest =>
      cases h
      obtain ⟨body, items, rfl, hitems, -⟩ := hrest.exists_firstItems rfl
      exact ⟨'^' :: body, true, items, rfl, .negative hitems⟩
  · obtain ⟨body, items, htext, hitems, -⟩ :=
      (h.congr (step_opened hcaret position)).exists_firstItems rfl
    refine ⟨body, false, items, htext, .positive hitems ?_⟩
    rcases body with _ | ⟨d, body⟩
    · nofun
    · cases htext
      exact fun hhead => hcaret (Option.some.inj hhead)

/-! ### Every such text is read as the class that it spells -/

theorem step_item (h : b.phase = .item) (position : Nat) (c : Char) :
    b.step position c = .ok (b.readItem position c) := by
  unfold step
  rw [h]

theorem step_lower {start : Nat} {lo : Char} (hdash : c ≠ '-') (position : Nat) :
    (b.enter (.lower start lo)).step position c = .ok ((b.push (.char lo)).readItem position c) :=
  if_neg hdash

/-- A character that is no lower bound is an item. A dash does not make it one if the class ends
behind the dash. -/
theorem Closes.of_lower {start : Nat} {lo : Char}
    (h : (b.push (.char lo)).Closes position (c :: text) ranges) (hdash : c = '-' → text = [']']) :
    (b.enter (.lower start lo)).Closes position (c :: text) ranges := by
  by_cases hc : c = '-'
  · subst hc
    obtain rfl := hdash rfl
    -- on either way the dash is an item
    have hranges : ranges = ((b.push (.char lo)).push (.char '-')).ranges := by
      cases h with
      | more h hrest =>
        cases h
        cases hrest with
        | last h =>
          cases h
          rfl
        | more h hrest => cases hrest
    rw [hranges]
    exact .more rfl (.last rfl)
  · refine h.congr ?_
    rw [step_lower hc, step_item rfl]

/-- A character at the start of an item may be a lower bound. -/
theorem Literal.closes {name : List Char} (h : Literal name c)
    (hletter : ∀ s : Shorthand, ¬ s.Spells name) (hphase : b.phase = .item)
    (hrest : ∀ start position, (b.enter (.lower start c)).Closes position text ranges)
    (position : Nat) : b.Closes position (name ++ text) ranges := by
  cases h with
  | plain hclose hslash =>
    have hstep : b.step position c = .ok (.more (b.enter (.lower position c))) := by
      rw [step_item hphase]
      unfold readItem
      rw [if_neg hclose, if_neg hslash]
    exact .more hstep (hrest position _)
  | escape d =>
    have hslash : b.step position '\\' = .ok (.more (b.enter (.escape position))) := by
      rw [step_item hphase]
      rfl
    have hnone : Shorthand.ofLetter? d = none := by
      by_contra hsome
      obtain ⟨s, hs⟩ := Option.ne_none_iff_exists'.1 hsome
      exact hletter s ⟨d, rfl, hs⟩
    have hstep : (b.enter (.escape position)).step (position + 1) d =
        .ok (.more (b.enter (.lower position (escaped d)))) := by
      unfold step
      simp only [enter, hnone]
    exact .more hslash (.more hstep (hrest position _))

/-- A character behind the dash of a range is the upper bound. -/
theorem Literal.closes_upper {name : List Char} {start : Nat} {lo hi : Char} (h : Literal name hi)
    (hle : lo.toNat ≤ hi.toNat)
    (hrest : ∀ position, (b.push (.span lo hi hle)).Closes position text ranges) (position : Nat) :
    (b.enter (.dash start lo)).Closes position (name ++ text) ranges := by
  have hupper : ∀ phase stop, (b.enter phase).readUpper start stop lo hi =
      .ok (.more (b.push (.span lo hi hle))) := fun _ _ => dif_pos hle
  cases h with
  | plain hclose hslash =>
    have hstep : (b.enter (.dash start lo)).step position hi =
        .ok (.more (b.push (.span lo hi hle))) := by
      rw [← hupper (.dash start lo) (position + 1)]
      exact (if_neg hclose).trans (if_neg hslash)
    exact .more hstep (hrest _)
  | escape d =>
    have hslash : (b.enter (.dash start lo)).step position '\\' =
        .ok (.more (b.enter (.upperEscape start lo))) := rfl
    exact .more hslash (.more (hupper (.upperEscape start lo) _) (hrest _))

/-- **A text that splits into items is read as these items.** -/
theorem Items.closes (h : Items text items) (hphase : b.phase = .item) (position : Nat) :
    b.Closes position (text ++ [']']) (b.addAll items).ranges := by
  induction h generalizing b position with
  | nil =>
    refine .last ?_
    rw [step_item hphase]
    rfl
  | @shorthand name text s items hspells hrest ih =>
    obtain ⟨letter, rfl, hs⟩ := hspells
    have hslash : b.step position '\\' = .ok (.more (b.enter (.escape position))) := by
      rw [step_item hphase]
      rfl
    have hstep : (b.enter (.escape position)).step (position + 1) letter =
        .ok (.more (b.push (.shorthand s))) := by
      unfold step
      simp only [enter, hs]
      rfl
    rw [← ranges_push_addAll]
    exact .more hslash (.more hstep (ih rfl _))
  | @char name text c items hname hletter hdash hrest ih =>
    rw [List.append_assoc]
    refine hname.closes hletter hphase (fun start position => ?_) position
    have hitem := @ih (b.push (.char c)) rfl position
    rw [ranges_push_addAll] at hitem
    rcases text with _ | ⟨d, text⟩
    · exact .of_lower hitem fun hd => absurd hd (by decide)
    · refine .of_lower hitem fun hd => ?_
      subst hd
      obtain rfl := List.tail_eq_of_cons_eq (hdash rfl)
      rfl
  | @span lower upper text lo hi items hlo hletter hhi hle hrest ih =>
    have htext : lower ++ '-' :: upper ++ text ++ [']'] =
        lower ++ ('-' :: (upper ++ (text ++ [']']))) := by simp
    rw [htext]
    refine hlo.closes hletter hphase (fun start position => ?_) position
    have hdash : (b.enter (.lower start lo)).step position '-' =
        .ok (.more (b.enter (.dash start lo))) := rfl
    refine .more hdash (hhi.closes_upper hle (fun position => ?_) _)
    rw [← ranges_push_addAll]
    exact ih rfl position

theorem Literal.head_ne {name : List Char} (h : Literal name c) (text : List Char) :
    (name ++ text).head? ≠ some ']' := by
  cases h with
  | plain hclose hslash => exact fun hhead => hclose (Option.some.inj hhead)
  | escape d => nofun

/-- No item starts with the closing bracket, but for the one that comes first. -/
theorem Items.head_ne (h : Items text items) : text.head? ≠ some ']' := by
  cases h with
  | nil => nofun
  | shorthand hspells hrest =>
    obtain ⟨letter, rfl, hs⟩ := hspells
    nofun
  | char hname hletter hdash hrest => exact hname.head_ne _
  | span hlo hletter hhi hle hrest =>
    rw [List.append_assoc]
    exact hlo.head_ne _

theorem FirstItems.closes (h : FirstItems text items) (hphase : b.phase = .first) (position : Nat) :
    b.Closes position (text ++ [']']) (b.addAll items).ranges := by
  cases h with
  | bracket h =>
    rw [← ranges_push_addAll]
    exact .more (step_first_close hphase position) (h.closes rfl _)
  | items h hne =>
    obtain ⟨c, text, rfl⟩ := List.exists_cons_of_ne_nil hne
    have hc : c ≠ ']' := fun hc => h.head_ne (congrArg some hc)
    have hitem := h.closes (rfl : (b.enter .item).phase = .item) position
    exact hitem.congr (step_first hphase hc position).symm

/-- **Every text between brackets is read as the class that it spells.** -/
theorem Body.exists_closes {isNegated : Bool} (h : Body text isNegated items)
    (start position : Nat) : ∃ b : Bracket, b.isNegated = isNegated ∧ b.items = items.reverse ∧
      (opened start).Closes position (text ++ [']']) b.ranges := by
  have hitems : items.reverse ++ [] = items.reverse := List.append_nil _
  cases h with
  | positive h hcaret =>
    have hfirst := h.closes (rfl : ((opened start).enter .first).phase = .first) position
    refine ⟨((opened start).enter .first).addAll items, rfl, hitems, ?_⟩
    cases h with
    | bracket h => exact hfirst.congr (step_opened (by decide) position).symm
    | items h hne =>
      obtain ⟨c, text, rfl⟩ := List.exists_cons_of_ne_nil hne
      have hc : c ≠ '^' := fun hc => hcaret (congrArg some hc)
      exact hfirst.congr (step_opened hc position).symm
  | negative h =>
    exact ⟨(({ opened start with isNegated := true } : Bracket).enter .first).addAll items, rfl,
      hitems, .more rfl (h.closes rfl _)⟩

end Bracket

namespace Reader

variable {limits : Limits} {r r' : Reader} {b : Bracket} {text : List Char}
  {ranges : List SymbolRange}

/-- A class that is closed is an item. -/
theorem run_of_closes (hmode : r.mode = .bracket b) (h : b.Closes r.position text ranges) :
    r.run limits text = .ok { r with
      mode := .atom (.set ranges), position := r.position + text.length } := by
  generalize hposition : r.position = position at h
  induction h generalizing r with
  | @last b position c ranges h =>
    subst hposition
    rw [run_cons_of_take (take_bracket_closed limits hmode h)]
    rfl
  | @more b b' position c text ranges h hrest ih =>
    subst hposition
    have hlength : r.position + 1 + text.length = r.position + (c :: text).length := by
      rw [List.length_cons]
      omega
    rw [run_cons_of_take (take_bracket limits hmode h), ih rfl rfl, ← hlength]
    rfl

/-- A pattern that can be read to its end closes the class. -/
theorem exists_closes (hmode : r.mode = .bracket b) (hrun : r.run limits text = .ok r')
    {n : NumberedPattern} (hfinish : r'.finish = .ok n) :
    ∃ body rest ranges, text = body ++ rest ∧ b.Closes r.position body ranges := by
  induction text generalizing r b with
  | nil =>
    cases hrun
    unfold finish at hfinish
    rw [hmode] at hfinish
    cases hfinish
  | cons c text ih =>
    unfold run at hrun
    rw [List.foldlM_cons, bind_eq_ok] at hrun
    obtain ⟨r₁, hstep, hrest⟩ := hrun
    obtain ⟨r₂, htake, hnext⟩ := bind_eq_ok.1 hstep
    cases hnext
    unfold Reader.take at htake
    rw [hmode] at htake
    obtain ⟨next, hbracket, htake⟩ := bind_eq_ok.1 htake
    rcases next with b' | ranges
    · cases htake
      obtain ⟨body, rest, ranges, rfl, hcloses⟩ := ih rfl hrest
      exact ⟨c :: body, rest, ranges, rfl, .more hbracket hcloses⟩
    · exact ⟨[c], text, ranges, rfl, .last hbracket⟩

end Reader

namespace NumberedPattern

variable {limits : Limits}

/-- **A bracket class matches the set that its text denotes.** If a pattern can be read, the text
behind a bracket that opens a class is that of its items up to the bracket that closes it. The class
contains the characters of the items or, with a caret, all others, and its ranges ascend with gaps
between them. -/
theorem read_bracket {u : List Char} {r : Reader}
    (hrun : Reader.initial.run limits (u ++ ['[']) = .ok r)
    (hmode : r.mode = .bracket (.opened u.length)) :
    (∀ v n, read limits (.ofList (u ++ '[' :: v)) = .ok n →
      ∃ text rest isNegated items, v = text ++ ']' :: rest ∧ Bracket.Body text isNegated items) ∧
    ∀ text isNegated items, Bracket.Body text isNegated items → ∃ ranges,
      Reader.initial.run limits (u ++ '[' :: text ++ [']']) = .ok { r with
        mode := .atom (.set ranges), position := (u ++ '[' :: text ++ [']']).length } ∧
      (∀ c : Char, RangeSet.covers ranges c.toNat = true ↔
        Xor (∃ i ∈ items, i.Contains c) (isNegated = true)) ∧
      RangeSet.Separated ranges := by
  have hopen : ∀ v, u ++ '[' :: v = u ++ ['['] ++ v := fun v => by simp
  refine ⟨?_, ?_⟩
  · intro v n hread
    obtain ⟨r', hall, hfinish⟩ := read_eq_ok.1 hread
    rw [String.toList_ofList, hopen, Reader.run_append_of_eq hrun] at hall
    obtain ⟨body, rest, ranges, rfl, hcloses⟩ := Reader.exists_closes hmode hall hfinish
    obtain ⟨text, isNegated, items, rfl, hbody⟩ := hcloses.exists_body
    refine ⟨text, rest, isNegated, items, ?_, hbody⟩
    rw [List.append_assoc]
    rfl
  · intro text isNegated items hbody
    have hposition : r.position = (u ++ ['[']).length := (follows_of_run hrun).position
    obtain ⟨b, rfl, hitems, hcloses⟩ := hbody.exists_closes u.length r.position
    refine ⟨b.ranges, ?_, fun c => ?_, b.proper_ranges.separated⟩
    · rw [List.append_assoc, List.cons_append, hopen, Reader.run_append_of_eq hrun,
        Reader.run_of_closes hmode hcloses, hposition, ← List.length_append]
    · rw [b.covers_ranges, hitems]
      simp only [List.mem_reverse]

/-- The items are a bracket, a range of escapes, a shorthand, a dash between two shorthands, which
makes no range, and a dash at the end. -/
theorem read_bracket_mixed :
    (∃ r, Reader.initial.run ⟨9, 99⟩ "x[".toList = .ok r ∧ r.mode = .bracket (.opened 1)) ∧
      ∃ r ranges, Reader.initial.run ⟨9, 99⟩ "x[^]\\t-\\n\\w-\\d-]".toList = .ok r ∧
        r.mode = .atom (.set ranges) ∧ RangeSet.covers ranges ' '.toNat = true ∧
        RangeSet.covers ranges '\n'.toNat = false ∧ RangeSet.covers ranges '-'.toNat = false := by
  have hopen : Reader.initial.run ⟨9, 99⟩ "x[".toList =
      .ok ⟨2, #[0], .bracket (.opened 1), ⟨[], [.char 'x']⟩, []⟩ := by cbv
  have hitems := Bracket.items_dash
  replace hitems := Bracket.Items.shorthand (s := .digit) ⟨'d', rfl, rfl⟩ hitems
  replace hitems := Bracket.Items.char (.plain (by decide) (by decide))
    (·.not_spells_singleton '-') (by decide) hitems
  replace hitems := Bracket.Items.shorthand (s := .word) ⟨'w', rfl, rfl⟩ hitems
  replace hitems := Bracket.Items.span (.escape 't') (Shorthand.not_spells_escape rfl) (.escape 'n')
    (by decide) hitems
  obtain ⟨ranges, hrun, hcovers, -⟩ :=
    (read_bracket (u := ['x']) hopen rfl).2 _ _ _ (.negative (.bracket hitems))
  refine ⟨⟨_, hopen, rfl⟩, _, ranges, hrun, rfl, ?_, ?_, ?_⟩
  · rw [hcovers]
    simp [Xor, BracketItem.Contains, Shorthand.Contains, escaped]
  · rw [Bool.eq_false_iff, ne_eq, hcovers]
    simp [Xor, BracketItem.Contains, Shorthand.Contains, escaped]
  · rw [Bool.eq_false_iff, ne_eq, hcovers]
    simp [Xor, BracketItem.Contains, Shorthand.Contains, escaped]

/-- Behind the dash of a range the letter of a shorthand is a character: there is neither a dash nor
a digit in the class, and it has a range of letters. -/
theorem read_bracket_upper_letter :
    ∃ ranges, read ⟨250, 1000⟩ "[a-\\d]" = .ok ⟨.set ranges, #[0]⟩ ∧
      RangeSet.covers ranges '-'.toNat = false ∧ RangeSet.covers ranges '5'.toNat = false ∧
      RangeSet.covers ranges 'b'.toNat = true := by
  refine ⟨[⟨0x61, 0x64, by decide⟩], ?_, by decide, by decide, by decide⟩
  cbv

end NumberedPattern

end Submatch
