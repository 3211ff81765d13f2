import Submatch.Proofs.Pattern.Tours

/-!
# A search tries the tours

A backtracking search tries the tours that read on in the text, preferred ones first
(`Pattern.tries_search`). This needs that every round of a loop without a bound reads something
(`Pattern.LoopsProgress`); then the test for progress in `Search.loop` rejects nothing
(`loop_eq_seq`).
-/

namespace Submatch

open Computability

/-- In no loop without a bound can the body be empty. -/
def Pattern.LoopsProgress : Pattern → Prop
  | empty | char _ | set _ | any => True
  | seq left right | alt left right => left.LoopsProgress ∧ right.LoopsProgress
  | repeated body q => (q.max = none → ¬ body.Nullable) ∧ body.LoopsProgress
  | group _ body => body.LoopsProgress

/-- The attempt that follows some moves from an offset on. -/
def Attempt.along (i : Nat) (ms : List Motion) : Attempt :=
  ⟨i + (Motion.chars ms).length, Motion.events i ms⟩

namespace Search

/-- The attempts follow the tours that read on in the text from an offset, preferred ones
first. -/
def Tries (text : List Char) (i : Nat) (tours : Language Motion) (attempts : List Attempt) :
    Prop :=
  ∃ listed : List (List Motion), attempts = listed.map (Attempt.along i) ∧
    listed.Pairwise Motion.Precedes ∧
      ∀ ms, ms ∈ listed ↔ ms ∈ tours ∧ Motion.chars ms <+: text.drop i

variable {text : List Char} {i : Nat} {tours first second body last : Language Motion}
  {attempts : List Attempt}

theorem append_prefix_iff {us vs text : List Char} :
    us ++ vs <+: text ↔ us <+: text ∧ vs <+: text.drop us.length := by
  constructor
  · rintro ⟨rest, rfl⟩
    refine ⟨⟨vs ++ rest, (List.append_assoc ..).symm⟩, rest, ?_⟩
    rw [List.append_assoc, List.drop_left]
  · rintro ⟨⟨rest, rfl⟩, hvs⟩
    rw [List.drop_left] at hvs
    exact (List.prefix_append_right_inj us).2 hvs

theorem singleton_prefix_drop_iff {c : Char} : [c] <+: text.drop i ↔ text[i]? = some c := by
  rw [← List.head?_drop]
  cases text.drop i with
  | nil => simp
  | cons d rest => simp [List.cons_prefix_cons, eq_comm]

theorem tries_skip (text : List Char) (i : Nat) : Tries text i 1 [⟨i, []⟩] := by
  refine ⟨[[]], rfl, List.pairwise_singleton .., fun ms => ?_⟩
  rw [List.mem_singleton, Language.mem_one]
  constructor
  · rintro rfl
    exact ⟨rfl, List.nil_prefix⟩
  · intro h
    exact h.1

theorem tries_read {ranges : List SymbolRange} {test : Char → Bool}
    (htest : ∀ c, test c = RangeSet.covers ranges c.toNat) (i : Nat) :
    Tries text i (Motion.reading ranges) (read text test i) := by
  have hmem : ∀ c, c ∈ (text[i]?.filter test).toList ↔ text[i]? = some c ∧ test c = true := by
    intro c
    rw [Option.mem_toList, Option.filter_eq_some_iff]
  refine ⟨(text[i]?.filter test).toList.map fun c => [.read c], ?_, ?_, fun ms => ?_⟩
  · unfold Search.read
    cases text[i]? with
    | none => rfl
    | some c =>
      by_cases hc : test c = true
      · simp only [if_pos hc, Option.filter_some]
        rfl
      · simp only [if_neg hc, Option.filter_some]
        rfl
  · -- there is at most one way
    cases text[i]?.filter test with
    | none => exact .nil
    | some c => exact List.pairwise_singleton ..
  · rw [List.mem_map]
    constructor
    · rintro ⟨c, hc, rfl⟩
      obtain ⟨hget, hpass⟩ := (hmem c).1 hc
      exact ⟨⟨c, rfl, (htest c).symm.trans hpass⟩, singleton_prefix_drop_iff.2 hget⟩
    · rintro ⟨⟨c, rfl, hcovers⟩, hon⟩
      have hget := singleton_prefix_drop_iff.1 hon
      exact ⟨c, (hmem c).2 ⟨hget, (htest c).trans hcovers⟩, rfl⟩

theorem tries_seq {g : Search} (hfirst : Tries text i first attempts)
    (hsecond : ∀ a ∈ attempts, Tries text a.stop second (g a.stop)) :
    Tries text i (first * second)
      (attempts.flatMap fun a => (g a.stop).map fun b => ⟨b.stop, a.events ++ b.events⟩) := by
  obtain ⟨us, rfl, hus, hmem⟩ := hfirst
  have hbehind : ∀ u ∈ us, Tries text (i + (Motion.chars u).length) second
      (g (i + (Motion.chars u).length)) := by
    intro u hu
    exact hsecond _ (List.mem_map_of_mem hu)
  choose! vs hg hvs hmem' using hbehind
  -- for every first tour in turn, all the second ones that go on from its end
  refine ⟨us.flatMap fun u => (vs u).map (u ++ ·), ?_, ?_, fun ms => ?_⟩
  · rw [List.flatMap_map, List.map_flatMap]
    refine List.flatMap_congr fun u hu => ?_
    show (g (i + (Motion.chars u).length)).map _ = _
    rw [hg u hu, List.map_map, List.map_map]
    refine List.map_congr_left fun v _ => ?_
    show Attempt.mk _ _ = Attempt.along i (u ++ v)
    unfold Attempt.along
    rw [Motion.events_append, Motion.chars_append, List.length_append, Nat.add_assoc]
  · rw [List.pairwise_flatMap]
    refine ⟨fun u hu => ?_, hus.imp fun hprecedes x hx y hy => ?_⟩
    · exact List.pairwise_map.2 ((hvs u hu).imp fun hprecedes => hprecedes.append_left u)
    · obtain ⟨v, -, rfl⟩ := List.mem_map.1 hx
      obtain ⟨v', -, rfl⟩ := List.mem_map.1 hy
      exact hprecedes.append v v'
  · rw [List.mem_flatMap, Language.mem_mul]
    constructor
    · rintro ⟨u, hu, hms⟩
      obtain ⟨v, hv, rfl⟩ := List.mem_map.1 hms
      obtain ⟨hutour, huon⟩ := (hmem u).1 hu
      obtain ⟨hvtour, hvon⟩ := (hmem' u hu v).1 hv
      refine ⟨⟨u, hutour, v, hvtour, rfl⟩, ?_⟩
      rw [Motion.chars_append, append_prefix_iff, List.drop_drop]
      exact ⟨huon, hvon⟩
    · rintro ⟨⟨u, hutour, v, hvtour, rfl⟩, hon⟩
      rw [Motion.chars_append, append_prefix_iff, List.drop_drop] at hon
      have hu := (hmem u).2 ⟨hutour, hon.1⟩
      exact ⟨u, hu, List.mem_map_of_mem ((hmem' u hu v).2 ⟨hvtour, hon.2⟩)⟩

/-- At a fork the ways of the first branch are tried first. -/
theorem tries_choose {attempts' : List Attempt} (hfirst : Tries text i first attempts)
    (hsecond : Tries text i second attempts') :
    Tries text i (Motion.only (.choose true) * first + Motion.only (.choose false) * second)
      (attempts ++ attempts') := by
  obtain ⟨us, rfl, hus, hmem⟩ := hfirst
  obtain ⟨vs, rfl, hvs, hmem'⟩ := hsecond
  refine ⟨us.map (.choose true :: ·) ++ vs.map (.choose false :: ·), ?_, ?_, fun ms => ?_⟩
  · rw [List.map_append, List.map_map, List.map_map]
    rfl
  · refine List.pairwise_append.2 ⟨Automaton.pairwise_map_cons _ hus,
      Automaton.pairwise_map_cons _ hvs, fun x hx y hy => ?_⟩
    obtain ⟨u, -, rfl⟩ := List.mem_map.1 hx
    obtain ⟨v, -, rfl⟩ := List.mem_map.1 hy
    exact .part u v
  · rw [List.mem_append, List.mem_map, List.mem_map, Language.mem_add, mem_only_mul, mem_only_mul]
    constructor
    · rintro (⟨u, hu, rfl⟩ | ⟨v, hv, rfl⟩)
      · obtain ⟨htour, hon⟩ := (hmem u).1 hu
        exact ⟨.inl ⟨u, htour, rfl⟩, hon⟩
      · obtain ⟨htour, hon⟩ := (hmem' v).1 hv
        exact ⟨.inr ⟨v, htour, rfl⟩, hon⟩
    · rintro ⟨⟨u, hu, rfl⟩ | ⟨v, hv, rfl⟩, hon⟩
      · exact .inl ⟨u, (hmem u).2 ⟨hu, hon⟩, rfl⟩
      · exact .inr ⟨v, (hmem' v).2 ⟨hv, hon⟩, rfl⟩

theorem tries_moreOrStop (isLazy : Bool) (h : Tries text i tours attempts) :
    Tries text i
      (Motion.only (.choose !isLazy) * tours + Motion.only (.choose isLazy))
      (moreOrStop isLazy i attempts) := by
  cases isLazy with
  | false =>
    have hchoose := tries_choose h (tries_skip text i)
    rw [mul_one] at hchoose
    exact hchoose
  | true =>
    have hchoose := tries_choose (tries_skip text i) h
    rw [mul_one, add_comm] at hchoose
    exact hchoose

theorem tries_optional {f : Search} (isLazy : Bool) (hbody : ∀ i, Tries text i body (f i))
    (n : Nat) : ∀ i, Tries text i (Tours.optional isLazy body n) (optional isLazy f n i) := by
  induction n with
  | zero => exact tries_skip text
  | succ n ih =>
    intro i
    exact tries_moreOrStop isLazy (tries_seq (hbody i) fun a _ => ih a.stop)

theorem tries_copies {f g : Search} (hbody : ∀ i, Tries text i body (f i))
    (hlast : ∀ i, Tries text i last (g i)) (n : Nat) :
    ∀ i, Tries text i (body ^ n * last) (copies f g n i) := by
  induction n with
  | zero =>
    intro i
    rw [pow_zero, one_mul]
    exact hlast i
  | succ n ih =>
    intro i
    rw [pow_succ', mul_assoc]
    exact tries_seq (hbody i) fun a _ => ih a.stop

/-- A tour that reads something ends further on in the text. -/
theorem Tries.progress (h : Tries text i tours attempts)
    (hreads : ∀ ms ∈ tours, Motion.chars ms ≠ []) :
    ∀ a ∈ attempts, i < a.stop ∧ a.stop ≤ text.length := by
  obtain ⟨listed, rfl, -, hmem⟩ := h
  intro a ha
  obtain ⟨ms, hms, rfl⟩ := List.mem_map.1 ha
  obtain ⟨htour, hon⟩ := (hmem ms).1 hms
  have hpos := List.length_pos_of_ne_nil (hreads ms htour)
  have hle := hon.length_le
  rw [List.length_drop] at hle
  show i < i + (Motion.chars ms).length ∧ i + (Motion.chars ms).length ≤ text.length
  omega

/-- **A loop is one round and the loop again.** Where every round reads something, the test for
progress rejects no round. -/
theorem loop_eq_seq {length : Nat} {f : Search}
    (hprogress : ∀ i, ∀ a ∈ f i, i < a.stop ∧ a.stop ≤ length) (isLazy : Bool) (i : Nat) :
    loop length isLazy f i = moreOrStop isLazy i (seq f (loop length isLazy f) i) := by
  have hrounds : ((f i).flatMap fun a =>
      if i < a.stop ∧ a.stop ≤ length then
        (loop length isLazy f a.stop).map fun b => ⟨b.stop, a.events ++ b.events⟩
      else []) = seq f (loop length isLazy f) i := by
    refine List.flatMap_congr fun a ha => ?_
    rw [if_pos (hprogress i a ha)]
  rw [loop, hrounds]

theorem tries_loop {f : Search} (isLazy : Bool) (hbody : ∀ i, Tries text i body (f i))
    (hreads : ∀ ms ∈ body, Motion.chars ms ≠ []) (i : Nat) :
    Tries text i (Tours.star isLazy body) (loop text.length isLazy f i) := by
  have hprogress := fun i => (hbody i).progress hreads
  rw [loop_eq_seq hprogress, Tours.star_eq]
  refine tries_moreOrStop isLazy (tries_seq (hbody i) fun a ha => ?_)
  -- a round that ends further on leaves less of the text
  have hstop := hprogress i a ha
  exact tries_loop isLazy hbody hreads a.stop
termination_by text.length - i

theorem tries_group (index : Nat) (h : Tries text i body attempts) :
    Tries text i
      (Motion.only (.pass ⟨index, .opening⟩) * (body * Motion.only (.pass ⟨index, .closing⟩)))
      (attempts.map fun a =>
        ⟨a.stop, ⟨⟨index, .opening⟩, i⟩ :: a.events ++ [⟨⟨index, .closing⟩, a.stop⟩]⟩) := by
  obtain ⟨listed, rfl, hpairwise, hmem⟩ := h
  refine ⟨listed.map fun ms => .pass ⟨index, .opening⟩ :: (ms ++ [.pass ⟨index, .closing⟩]),
    ?_, ?_, fun ms => ?_⟩
  · rw [List.map_map, List.map_map]
    refine List.map_congr_left fun ms _ => ?_
    show Attempt.mk _ _ = Attempt.along i _
    unfold Attempt.along
    simp [Motion.events_append, Motion.events]
  · exact List.pairwise_map.2 (hpairwise.imp fun hprecedes => .cons _ (hprecedes.append _ _))
  · rw [List.mem_map, mem_only_mul]
    constructor
    · rintro ⟨u, hu, rfl⟩
      obtain ⟨htour, hon⟩ := (hmem u).1 hu
      refine ⟨⟨_, ⟨u, htour, _, mem_only.2 rfl, rfl⟩, rfl⟩, ?_⟩
      simpa using hon
    · rintro ⟨⟨_, ⟨u, hu, v, hv, rfl⟩, rfl⟩, hon⟩
      obtain rfl := mem_only.1 hv
      refine ⟨u, (hmem u).2 ⟨hu, ?_⟩, rfl⟩
      simpa using hon

end Search

namespace Pattern

variable {p : Pattern} {text : List Char}

/-- The tours of a pattern that is not nullable read something. -/
theorem chars_ne_nil (hp : p.Bounded) (h : ¬ p.Nullable) :
    ∀ ms ∈ p.tours, Motion.chars ms ≠ [] := by
  intro ms hms hnil
  exact h ((texts_tours hp).1 ⟨ms, hms, hnil⟩)

/-- **A search tries the tours.** The search of a pattern in which every loop makes progress
follows the tours that read on in the text, and preferred tours come first. -/
theorem tries_search (hp : p.Bounded) (hloops : p.LoopsProgress) (i : Nat) :
    Search.Tries text i p.tours (p.search text i) := by
  induction p generalizing i with
  | empty => exact Search.tries_skip text i
  | char c =>
    refine Search.tries_read (fun d => ?_) i
    rw [Bool.eq_iff_iff, covers_ofChar, beq_iff_eq]
  | set ranges => exact Search.tries_read (fun _ => rfl) i
  | any => exact Search.tries_read (fun c => (covers_full c).symm) i
  | seq left right ihl ihr =>
    exact Search.tries_seq (ihl hp.1 hloops.1 i) fun a _ => ihr hp.2 hloops.2 a.stop
  | alt left right ihl ihr =>
    exact Search.tries_choose (ihl hp.1 hloops.1 i) (ihr hp.2 hloops.2 i)
  | repeated body q ih =>
    have hbody := fun i => ih hp.2 hloops.2 i
    rw [search, tours]
    unfold Search.repeated Tours.repeated
    split
    next hmax =>
      rw [hmax]
      have hreads := chars_ne_nil hp.2 (hloops.1 hmax)
      exact Search.tries_copies hbody (Search.tries_loop q.isLazy hbody hreads) q.min i
    next m hmax =>
      rw [hmax]
      exact Search.tries_copies hbody (Search.tries_optional q.isLazy hbody (m - q.min)) q.min i
  | group index body ih => exact Search.tries_group index (ih hp hloops i)

end Pattern

end Submatch
