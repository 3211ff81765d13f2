import Submatch.Pattern.Language
import Submatch.Proofs.Automaton.Fragment
import Submatch.Proofs.Automaton.Routes

/-!
# What tours read and record

The tours of a pattern read exactly the texts of its language (`texts_tours`), and on each of
them every group is closed as often as it is opened (`balanced_tours`).
-/

namespace Submatch

open Computability

namespace Motion

/-- The texts that some moves read. -/
def texts : Language Motion →+* Language Char where
  toFun tours := chars '' tours
  map_zero' := Set.image_empty _
  map_one' := Set.image_singleton
  map_add' := Set.image_union _
  map_mul' _ _ := Set.image_image2_distrib chars_append

variable {tours : Language Motion} {w : List Char}

theorem mem_texts : w ∈ texts tours ↔ ∃ ms ∈ tours, chars ms = w := Iff.rfl

theorem texts_kstar (tours : Language Motion) : texts tours∗ = (texts tours)∗ := by
  rw [Language.kstar_eq_iSup_pow, Language.kstar_eq_iSup_pow]
  simp_rw [← map_pow]
  exact Set.image_iUnion

theorem texts_only {m : Motion} (h : m.char? = none) : texts m.only = 1 := by
  have hchars : chars [m] = [] := by
    unfold chars
    rw [List.filterMap_cons, h]
    rfl
  show chars '' {[m]} = {[]}
  rw [Set.image_singleton, hchars]

theorem mem_texts_reading {ranges : List SymbolRange} :
    w ∈ texts (reading ranges) ↔ ∃ c, w = [c] ∧ RangeSet.covers ranges c.toNat = true := by
  rw [mem_texts]
  constructor
  · rintro ⟨_, ⟨c, rfl, hc⟩, rfl⟩
    exact ⟨c, rfl, hc⟩
  · rintro ⟨c, rfl, hc⟩
    exact ⟨_, ⟨c, rfl, hc⟩, rfl⟩

/-- Whether a round is taken or not makes no difference to what is read. -/
theorem texts_star (isLazy : Bool) (body : Language Motion) :
    texts (Tours.star isLazy body) = (texts body)∗ := by
  unfold Tours.star
  rw [map_mul, texts_kstar, map_mul, texts_only rfl, texts_only rfl, one_mul, mul_one]

theorem mem_texts_optional {isLazy : Bool} {body : Language Motion} {n : Nat} :
    w ∈ texts (Tours.optional isLazy body n) ↔ ∃ k ≤ n, w ∈ texts body ^ k := by
  induction n generalizing w with
  | zero =>
    have hone : texts (Tours.optional isLazy body 0) = 1 := map_one texts
    rw [hone]
    constructor
    · intro h
      exact ⟨0, Nat.le_refl 0, h⟩
    · rintro ⟨k, hk, h⟩
      obtain rfl := Nat.le_zero.1 hk
      exact h
  | succ n ih =>
    have hsucc : texts (Tours.optional isLazy body (n + 1)) =
        texts body * texts (Tours.optional isLazy body n) + 1 := by
      rw [Tours.optional, map_add, map_mul, map_mul, texts_only rfl, texts_only rfl, one_mul]
    rw [hsucc, Language.mem_add, Language.mem_mul]
    constructor
    · rintro (⟨u, hu, v, hv, rfl⟩ | h)
      · obtain ⟨k, hk, hv⟩ := ih.1 hv
        refine ⟨k + 1, by omega, ?_⟩
        rw [pow_succ']
        exact Language.append_mem_mul hu hv
      · exact ⟨0, Nat.zero_le _, h⟩
    · rintro ⟨k, hk, h⟩
      -- no round is the way out, and otherwise there is a first one
      cases k with
      | zero => exact .inr h
      | succ k =>
        rw [pow_succ', Language.mem_mul] at h
        obtain ⟨u, hu, v, hv, rfl⟩ := h
        exact .inl ⟨u, hu, v, ih.2 ⟨k, by omega, hv⟩, rfl⟩

/-- The rounds of a quantifier read as many texts of the body as it allows. -/
theorem mem_texts_repeated {body : Language Motion} {q : Quantifier}
    (hq : ∀ m ∈ q.max, q.min ≤ m) :
    w ∈ texts (Tours.repeated body q) ↔ ∃ n, q.Allows n ∧ w ∈ texts body ^ n := by
  unfold Tours.repeated
  split
  next hmax =>
    rw [map_mul, map_pow, texts_star, Language.kstar_eq_iSup_pow, Language.mul_iSup,
      Language.mem_iSup]
    constructor
    · rintro ⟨k, h⟩
      rw [← pow_add] at h
      exact ⟨q.min + k, ⟨by omega, fun m hm => nomatch hmax.symm.trans hm⟩, h⟩
    · rintro ⟨n, hn, h⟩
      refine ⟨n - q.min, ?_⟩
      rwa [← pow_add, Nat.add_sub_cancel' hn.1]
  next m hmax =>
    have hle := hq m hmax
    rw [map_mul, map_pow, Language.mem_mul]
    constructor
    · rintro ⟨u, hu, v, hv, rfl⟩
      obtain ⟨k, hk, hv⟩ := mem_texts_optional.1 hv
      refine ⟨q.min + k, ⟨by omega, fun m' hm' => ?_⟩, ?_⟩
      · obtain rfl := Option.some.inj (hmax.symm.trans hm')
        omega
      · rw [pow_add]
        exact Language.append_mem_mul hu hv
    · rintro ⟨n, hn, h⟩
      have hnm := hn.2 m hmax
      rw [← Nat.add_sub_cancel' hn.1, pow_add, Language.mem_mul] at h
      obtain ⟨u, hu, v, hv, rfl⟩ := h
      exact ⟨u, hu, v, mem_texts_optional.2 ⟨_, by omega, hv⟩, rfl⟩

end Motion

namespace Pattern

/-- No quantifier asks for more repetitions than it allows. -/
def Bounded : Pattern → Prop
  | empty | char _ | set _ | any => True
  | seq left right | alt left right => left.Bounded ∧ right.Bounded
  | repeated body q => (∀ m ∈ q.max, q.min ≤ m) ∧ body.Bounded
  | group _ body => body.Bounded

theorem covers_full (c : Char) : RangeSet.covers [.full] c.toNat = true := by
  have hlt : c.toNat < 0x110000 := by
    rcases c.valid with h | ⟨-, h⟩
    · exact Nat.lt_trans h (by decide)
    · exact h
  rw [RangeSet.covers_cons, Bool.or_eq_true, SymbolRange.contains_iff]
  exact .inl ⟨Nat.zero_le _, Nat.le_of_lt_succ hlt⟩

theorem covers_ofChar {c d : Char} : RangeSet.covers [.ofChar c] d.toNat = true ↔ d = c := by
  rw [RangeSet.covers_cons, RangeSet.covers_nil, Bool.or_false, SymbolRange.contains_iff]
  constructor
  · intro h
    have htoNat : d.toNat = c.toNat := Nat.le_antisymm h.2 h.1
    exact Char.ext (UInt32.toNat_inj.1 htoNat)
  · rintro rfl
    exact ⟨Nat.le_refl _, Nat.le_refl _⟩

/-- **The tours of a pattern read its language.** -/
theorem texts_tours {p : Pattern} (hp : p.Bounded) {w : List Char} :
    w ∈ Motion.texts p.tours ↔ p.Matches w := by
  induction p generalizing w with
  | empty =>
    have hone : Motion.texts Pattern.empty.tours = 1 := map_one Motion.texts
    rw [hone]
    exact Language.mem_one w
  | char c =>
    rw [tours, Motion.mem_texts_reading, Matches]
    constructor
    · rintro ⟨d, rfl, hd⟩
      rw [covers_ofChar.1 hd]
    · rintro rfl
      exact ⟨c, rfl, covers_ofChar.2 rfl⟩
  | set ranges => exact Motion.mem_texts_reading
  | any =>
    rw [tours, Motion.mem_texts_reading, Matches]
    constructor
    · rintro ⟨c, rfl, -⟩
      exact ⟨c, rfl⟩
    · rintro ⟨c, rfl⟩
      exact ⟨c, rfl, covers_full c⟩
  | seq left right ihl ihr =>
    rw [tours, map_mul, Language.mem_mul, Matches]
    constructor
    · rintro ⟨u, hu, v, hv, rfl⟩
      exact ⟨u, v, rfl, (ihl hp.1).1 hu, (ihr hp.2).1 hv⟩
    · rintro ⟨u, v, rfl, hu, hv⟩
      exact ⟨u, (ihl hp.1).2 hu, v, (ihr hp.2).2 hv, rfl⟩
  | alt left right ihl ihr =>
    rw [tours, map_add, map_mul, map_mul, Motion.texts_only rfl, Motion.texts_only rfl, one_mul,
      one_mul, Language.mem_add, ihl hp.1, ihr hp.2, Matches]
  | repeated body q ih =>
    rw [tours, Motion.mem_texts_repeated hp.1, Matches]
    constructor
    · rintro ⟨n, hn, h⟩
      obtain ⟨parts, rfl, rfl, hparts⟩ := Language.mem_pow.1 h
      exact ⟨parts, rfl, hn, fun u hu => (ih hp.2).1 (hparts u hu)⟩
    · rintro ⟨parts, rfl, hn, hparts⟩
      exact ⟨_, hn, Language.mem_pow.2 ⟨parts, rfl, rfl, fun u hu => (ih hp.2).2 (hparts u hu)⟩⟩
  | group index body ih =>
    rw [tours, map_mul, map_mul, Motion.texts_only rfl, Motion.texts_only rfl, one_mul, mul_one,
      ih hp, Matches]

end Pattern

/-- A tour of a group opens it, goes through its body and closes it. -/
theorem Pattern.mem_tours_group {index : Nat} {body : Pattern} {ms : List Motion} :
    ms ∈ (Pattern.group index body).tours ↔ ∃ inner ∈ body.tours,
      ms = .pass ⟨index, .opening⟩ :: (inner ++ [.pass ⟨index, .closing⟩]) := by
  rw [Pattern.tours, mem_only_mul]
  constructor
  · rintro ⟨rest, hrest, rfl⟩
    obtain ⟨inner, hinner, last, hlast, rfl⟩ := Language.mem_mul.1 hrest
    rw [mem_only.1 hlast]
    exact ⟨inner, hinner, rfl⟩
  · rintro ⟨inner, hinner, rfl⟩
    exact ⟨_, Language.append_mem_mul hinner (mem_only.2 rfl), rfl⟩

/-- A property of moves that single steps have and that is kept when moves are put together. -/
structure Motion.Composable (P : List Motion → Prop) : Prop where
  nil : P []
  append : ∀ {ms ns}, P ms → P ns → P (ms ++ ns)
  read : ∀ c, P [.read c]
  choose : ∀ isFirst, P [.choose isFirst]

namespace Motion.Composable

variable {P : List Motion → Prop} {first second body : Language Motion}

theorem mul (hP : Composable P) (hfirst : ∀ ms ∈ first, P ms) (hsecond : ∀ ms ∈ second, P ms) :
    ∀ ms ∈ first * second, P ms := by
  intro ms hms
  obtain ⟨u, hu, v, hv, rfl⟩ := Language.mem_mul.1 hms
  exact hP.append (hfirst u hu) (hsecond v hv)

theorem only (hP : Composable P) (isFirst : Bool) : ∀ ms ∈ Motion.only (.choose isFirst), P ms := by
  intro ms hms
  rw [mem_only.1 hms]
  exact hP.choose isFirst

theorem reading (hP : Composable P) (ranges : List SymbolRange) :
    ∀ ms ∈ Motion.reading ranges, P ms := by
  rintro ms ⟨c, rfl, -⟩
  exact hP.read c

theorem flatten (hP : Composable P) {mss : List (List Motion)} (h : ∀ ms ∈ mss, P ms) :
    P mss.flatten := by
  induction mss with
  | nil => exact hP.nil
  | cons ms mss ih =>
    obtain ⟨hms, hmss⟩ := List.forall_mem_cons.1 h
    exact hP.append hms (ih hmss)

theorem optional (hP : Composable P) (isLazy : Bool) (hbody : ∀ ms ∈ body, P ms) (n : Nat) :
    ∀ ms ∈ Tours.optional isLazy body n, P ms := by
  induction n with
  | zero =>
    rintro ms rfl
    exact hP.nil
  | succ n ih =>
    rintro ms (hms | hms)
    · exact hP.mul (hP.only _) (hP.mul hbody ih) ms hms
    · exact hP.only _ ms hms

/-- What holds of every round holds of as many rounds as a quantifier allows. -/
theorem repeated (hP : Composable P) (hbody : ∀ ms ∈ body, P ms) (q : Quantifier) :
    ∀ ms ∈ Tours.repeated body q, P ms := by
  have hpow : ∀ ms ∈ body ^ q.min, P ms := by
    intro ms hms
    obtain ⟨parts, rfl, -, hparts⟩ := Language.mem_pow.1 hms
    exact hP.flatten fun part hpart => hbody part (hparts part hpart)
  unfold Tours.repeated
  split
  · refine hP.mul hpow (hP.mul ?_ (hP.only _))
    rintro ms ⟨rounds, rfl, hrounds⟩
    exact hP.flatten fun round hround => hP.mul (hP.only _) hbody round (hrounds round hround)
  · exact hP.mul hpow (hP.optional _ hbody _)

end Motion.Composable

/-- Every group is closed as often as it is opened. -/
def Motion.Balanced (ms : List Motion) : Prop :=
  ∀ group, ms.count (.pass ⟨group, .opening⟩) = ms.count (.pass ⟨group, .closing⟩)

theorem Motion.composable_balanced : Composable Balanced where
  nil := fun _ => rfl
  append := by
    intro ms ns hms hns group
    rw [List.count_append, List.count_append, hms group, hns group]
  read := fun _ _ => rfl
  choose := fun _ _ => rfl

/-- **On a tour every group is closed as often as it is opened.** -/
theorem Pattern.balanced_tours (p : Pattern) : ∀ ms ∈ p.tours, Motion.Balanced ms := by
  have hP := Motion.composable_balanced
  induction p with
  | empty =>
    rintro ms rfl
    exact hP.nil
  | char c => exact hP.reading _
  | set ranges => exact hP.reading ranges
  | any => exact hP.reading _
  | seq left right ihl ihr => exact hP.mul ihl ihr
  | alt left right ihl ihr =>
    rintro ms (hms | hms)
    · exact hP.mul (hP.only _) ihl ms hms
    · exact hP.mul (hP.only _) ihr ms hms
  | repeated body q ih => exact hP.repeated ih q
  | group index body ih =>
    intro ms hms g
    obtain ⟨x, hx, rfl⟩ := mem_tours_group.1 hms
    have hbody := ih x hx g
    by_cases hg : index = g
    · -- the group itself is opened and closed once more
      subst hg
      simp [hbody]
    · simp [hg, hbody]

end Submatch
