import Mathlib
import Submatch.Proofs.Pattern.Completion
import Submatch.Proofs.Pattern.Numbering
import Submatch.Proofs.Pattern.Repetition
import Submatch.Proofs.Pattern.Uncapture

/-!
# Patterns put together

What stands in parentheses is read as it would be by itself. Inside a group the reader does what it
does at the start of a text (`Reader.take_inside`, `Reader.leadsTo_inside`), only that the groups
that have been opened before shift the numbers it gives out (`Pattern.shift`).

* `NumberedPattern.read_composed`: patterns in parentheses are read as the patterns put together.
-/

namespace Submatch

namespace Pattern

/-! ### Numbering groups anew -/

/-- The pattern with other numbers for its groups. -/
def renumber (f : Nat → Nat) : Pattern → Pattern
  | empty => empty
  | char c => char c
  | set ranges => set ranges
  | any => any
  | seq left right => seq (left.renumber f) (right.renumber f)
  | alt left right => alt (left.renumber f) (right.renumber f)
  | repeated body q => repeated (body.renumber f) q
  | group index body => group (f index) (body.renumber f)

/-- The pattern behind `k` other groups. -/
def shift (k : Nat) (p : Pattern) : Pattern := p.renumber (· + k)

variable {p : Pattern} {host : Nat}

/-- The groups of a pattern stay where they are. -/
theorem captures_renumber (f : Nat → Nat) (p : Pattern) (host : Nat) :
    (p.renumber f).captures (f host) = (p.captures host).map (Prod.map f f) := by
  induction p generalizing host with
  | empty | char | set | any => rfl
  | seq left right ihl ihr | alt left right ihl ihr =>
    rw [renumber, captures, captures, ihl, ihr, List.map_append]
  | repeated body q ih => exact ih host
  | group index body ih =>
    rw [renumber, captures, captures, ih, List.map_cons]
    rfl

theorem renumber_congr {f g : Nat → Nat} (h : ∀ e ∈ p.captures host, f e.1 = g e.1) :
    p.renumber f = p.renumber g := by
  induction p generalizing host with
  | empty | char | set | any => rfl
  | seq left right ihl ihr | alt left right ihl ihr =>
    obtain ⟨hl, hr⟩ := List.forall_mem_append.1 h
    rw [renumber, renumber, ihl hl, ihr hr]
  | repeated body q ih => rw [renumber, renumber, ih h]
  | group index body ih =>
    obtain ⟨hindex, hbody⟩ := List.forall_mem_cons.1 h
    rw [renumber, renumber, ih hbody]
    exact congrArg (group · _) hindex

theorem shift_zero (p : Pattern) : p.shift 0 = p := by
  induction p with
  | empty | char | set | any => rfl
  | seq left right ihl ihr | alt left right ihl ihr =>
    exact congrArg₂ _ ihl ihr
  | repeated body q ih => exact congrArg (repeated · q) ih
  | group index body ih => exact congrArg (group index) ih

end Pattern

/-! ### The reader inside a group -/

/-- The limits `wider` allow inside `depth` groups what the others allow without them. -/
structure Limits.WithinAt (limits : Limits) (depth : Nat) (wider : Limits) : Prop where
  nesting : limits.maxNesting + depth ≤ wider.maxNesting
  repetition : wider.maxRepetition = limits.maxRepetition

theorem Limits.WithinAt.lt {limits wider : Limits} {depth : Nat}
    (h : limits.WithinAt (depth + 1) wider) : depth < wider.maxNesting := by
  have hnesting := h.nesting
  omega

section Inside

variable {k : Nat} {outer : List OpenGroup} {limits wider : Limits}

/-- Branches behind `k` other groups. -/
def Branches.shift (k : Nat) (b : Branches) : Branches :=
  ⟨b.done.map (Pattern.shift k), b.items.map (Pattern.shift k)⟩

/-- An open group behind `k` other groups. -/
def OpenGroup.shift (k : Nat) (g : OpenGroup) : OpenGroup :=
  ⟨g.start, g.capture.map (· + k), g.around.shift k⟩

/-- What has been begun behind `k` other groups. -/
def ReaderMode.shift (k : Nat) : ReaderMode → ReaderMode
  | .atom p => .atom (p.shift k)
  | .counter p counted => .counter (p.shift k) counted
  | .repeated p min max => .repeated (p.shift k) min max
  | mode => mode

theorem ReaderMode.isComplete_shift (k : Nat) (mode : ReaderMode) :
    (mode.shift k).isComplete = mode.isComplete := by
  cases mode <;> rfl

theorem Branches.shift_current (b : Branches) : b.current.shift k = (b.shift k).current := by
  unfold current shift
  rw [← List.map_reverse]
  exact Pattern.map_seqAll rfl (fun _ _ => rfl) _

theorem Branches.shift_bar (b : Branches) : b.bar.shift k = (b.shift k).bar := by
  unfold bar
  rw [← shift_current]
  rfl

theorem Branches.shift_pattern (b : Branches) : b.pattern.shift k = (b.shift k).pattern := by
  unfold pattern
  rw [← shift_current]
  exact (Pattern.map_altAll rfl (fun _ _ => rfl) _).trans
    (congrArg Pattern.altAll List.map_reverse)

theorem OpenGroup.shift_close (g : OpenGroup) (body : Pattern) :
    (g.close body).shift k = (g.shift k).close (body.shift k) := by
  obtain ⟨start, capture, around⟩ := g
  cases capture <;> rfl

namespace Reader

/-- What a reader would be if the groups `outer` had been open around it and `k` groups had been
numbered before. Of the table of parents that is its length. -/
def inside (k : Nat) (outer : List OpenGroup) (r : Reader) : Reader :=
  ⟨r.position, Array.replicate (r.parents.size + k) 0, r.mode.shift k, r.branches.shift k,
    r.groups.map (OpenGroup.shift k) ++ outer⟩

variable {r s : Reader} {c : Char}

theorem inside_breakCounter (p : Pattern) (counted : Counter) :
    (r.breakCounter p counted).inside k outer =
      (r.inside k outer).breakCounter (p.shift k) counted := by
  have hpush : (counted.earlier.reverse.foldl (fun r c => r.push (.char c)) (r.push p)).inside k
      outer = counted.earlier.reverse.foldl (fun r c => r.push (.char c))
        ((r.push p).inside k outer) :=
    (List.foldl_hom (inside k outer) fun _ _ => rfl).symm
  exact congrArg (fun s : Reader => s.enter (.atom (.char counted.last))) hpush

theorem inside_settle (r : Reader) : r.settle.inside k outer = (r.inside k outer).settle := by
  obtain ⟨position, parents, mode, branches, groups⟩ := r
  cases mode with
  | counter p counted =>
    show ((Reader.breakCounter _ p counted).push (.char counted.last)).inside k outer = _
    have hpush : ∀ (r : Reader) (c : Char), (r.push (.char c)).inside k outer =
        (r.inside k outer).push (.char c) := fun _ _ => rfl
    rw [hpush, inside_breakCounter]
    rfl
  | item | atom | repeated | escape | paren | parenMark | bracket => rfl

/-- Inside as well a group that opens gets the next number. -/
theorem alike_openCapture_inside (r : Reader) (start : Nat) :
    Alike .all ((r.openCapture start).inside k outer) ((r.inside k outer).openCapture start) := by
  unfold Alike
  simp [openCapture, openGroup, inside, project, ReaderMode.project, OpenGroup.project,
    OpenGroup.shift, ReaderMode.shift, Branches.shift, Branches.fresh, Function.comp_def,
    Nat.add_right_comm]

theorem readItem_inside (h : limits.WithinAt outer.length wider)
    (hread : r.readItem limits c = .ok s) :
    (r.inside k outer).readItem wider c = .ok (s.inside k outer) := by
  unfold readItem at hread ⊢
  split at hread
  · split at hread
    · cases hread
    next hdepth =>
      have hnesting := h.nesting
      have hlength : (r.inside k outer).groups.length = r.groups.length + outer.length := by
        unfold inside
        rw [List.length_append, List.length_map]
      simp only [hlength]
      rw [if_neg (by omega)]
      cases hread
      rfl
  · obtain ⟨position, parents, mode, branches, groups⟩ := r
    cases groups with
    | nil => cases hread
    | cons g groups =>
      cases hread
      show Except.ok _ = Except.ok _
      unfold inside
      simp only [ReaderMode.shift, OpenGroup.shift_close, Branches.shift_pattern]
      rfl
  · cases hread
    unfold inside
    rw [Branches.shift_bar]
  · cases hread
    rfl
  · cases hread
    rfl
  · cases hread
    rfl
  · cases hread
  · cases hread
  · cases hread
  · cases hread
    rfl

theorem readMark_inside (h : limits.WithinAt outer.length wider) {p : Pattern}
    (hread : r.readMark limits p c = .ok s) :
    (r.inside k outer).readMark wider (p.shift k) c = .ok (s.inside k outer) := by
  unfold readMark at hread ⊢
  split at hread
  · cases hread
    rfl
  · cases hread
    rfl
  · cases hread
    rfl
  · cases hread
    rfl
  · exact readItem_inside (r := r.push p) h hread

theorem repeatCounted_inside (h : limits.WithinAt outer.length wider) {p : Pattern}
    {start stop min : Nat} {max : Option Nat}
    (hread : r.repeatCounted limits p start stop min max = .ok s) :
    (r.inside k outer).repeatCounted wider (p.shift k) start stop min max =
      .ok (s.inside k outer) := by
  unfold repeatCounted at hread ⊢
  rw [h.repetition]
  split at hread
  · cases hread
  next hlimit =>
    rw [if_neg hlimit]
    split at hread
    · cases hread
    next hbounds =>
      rw [if_neg hbounds]
      cases hread
      rfl

/-- **Inside a group every character is read as it is at the start of a text.** -/
theorem take_inside (h : limits.WithinAt outer.length wider) (hread : r.take limits c = .ok s) :
    ∃ s', (r.inside k outer).take wider c = .ok s' ∧ Alike .all (s.inside k outer) s' := by
  have hmode : (r.inside k outer).mode = r.mode.shift k := rfl
  unfold Reader.take at hread ⊢
  rw [hmode]
  cases hr : r.mode with
  | item =>
    simp only [hr] at hread
    exact ⟨_, readItem_inside h hread, rfl⟩
  | atom p =>
    simp only [hr] at hread
    exact ⟨_, readMark_inside h hread, rfl⟩
  | counter p counted =>
    simp only [hr, ReaderMode.shift] at hread ⊢
    cases hstep : counted.step c with
    | more next =>
      simp only [hstep] at hread
      cases hread
      exact ⟨_, rfl, rfl⟩
    | complete min max =>
      simp only [hstep] at hread
      exact ⟨_, repeatCounted_inside h hread, rfl⟩
    | broken =>
      simp only [hstep] at hread
      refine ⟨_, ?_, rfl⟩
      rw [← inside_breakCounter]
      exact readMark_inside h hread
  | repeated p min max =>
    simp only [hr, ReaderMode.shift] at hread ⊢
    split at hread
    next hc =>
      rw [if_pos hc]
      cases hread
      exact ⟨_, rfl, rfl⟩
    next hc =>
      rw [if_neg hc, ← inside_settle]
      exact ⟨_, readItem_inside h hread, rfl⟩
  | escape start =>
    simp only [hr, ReaderMode.shift] at hread ⊢
    split at hread
    · cases hread
      exact ⟨_, rfl, rfl⟩
    · cases hread
      exact ⟨_, rfl, rfl⟩
  | paren start =>
    simp only [hr, ReaderMode.shift] at hread ⊢
    split at hread
    next hc =>
      rw [if_pos hc]
      cases hread
      exact ⟨_, rfl, rfl⟩
    next hc =>
      -- the number is the same, but the group around it is another one
      rw [if_neg hc]
      exact (alike_openCapture_inside r start).readItem_ok (readItem_inside h hread)
  | parenMark start =>
    simp only [hr, ReaderMode.shift] at hread ⊢
    split at hread
    next hc =>
      rw [if_pos hc]
      cases hread
      exact ⟨_, rfl, rfl⟩
    next => cases hread
  | bracket b =>
    simp only [hr, ReaderMode.shift] at hread ⊢
    obtain ⟨next, hstep, hread⟩ := bind_eq_ok.1 hread
    cases next with
    | more b' =>
      cases hread
      exact ⟨_, bind_eq_ok.2 ⟨_, hstep, rfl⟩, rfl⟩
    | closed ranges =>
      cases hread
      exact ⟨_, bind_eq_ok.2 ⟨_, hstep, rfl⟩, rfl⟩

/-! ### Reading up to offsets -/

/-- Reading the text leads from one reader to the other, up to offsets and to what the table of
parents says. -/
def LeadsTo (limits : Limits) (r : Reader) (text : List Char) (s : Reader) : Prop :=
  ∃ s', r.run limits text = .ok s' ∧ Alike .all s s'

variable {t : Reader} {text more : List Char}

theorem LeadsTo.of_run (h : r.run limits text = .ok s) : r.LeadsTo limits text s := ⟨s, h, rfl⟩

theorem LeadsTo.append (h : r.LeadsTo limits text s) (hmore : s.LeadsTo limits more t) :
    r.LeadsTo limits (text ++ more) t := by
  obtain ⟨s', hrun, halike⟩ := h
  obtain ⟨t', hrun', halike'⟩ := hmore
  obtain ⟨t'', hrun'', halike''⟩ := halike.run_all hrun'
  exact ⟨t'', (run_append_of_eq hrun more).trans hrun'', halike''.trans halike'⟩

/-- **Inside a group a text is read as it is by itself.** -/
theorem leadsTo_inside (h : limits.WithinAt outer.length wider) (hrun : r.run limits text = .ok s) :
    (r.inside k outer).LeadsTo wider text (s.inside k outer) := by
  induction text generalizing r with
  | nil =>
    cases hrun
    exact .of_run rfl
  | cons c text ih =>
    rw [Reader.run, List.foldlM_cons, bind_eq_ok] at hrun
    obtain ⟨next, hstep, hrest⟩ := hrun
    obtain ⟨taken, htake, rfl⟩ := step_eq_ok.1 hstep
    obtain ⟨taken', htake', halike⟩ := take_inside (k := k) h htake
    have hfirst : (r.inside k outer).LeadsTo wider [c]
        (({ taken with position := taken.position + 1 } : Reader).inside k outer) :=
      ⟨_, run_cons_of_take htake' [], halike⟩
    exact hfirst.append (ih hrest)

/-- In a group that has just been opened nothing has been read. -/
theorem alike_inside_initial (hmode : r.mode = .item) (hbranches : r.branches = .fresh)
    (hsize : r.parents.size = k + 1) : Alike .all (initial.inside k r.groups) r := by
  unfold Alike
  simp [project, inside, initial, hmode, hbranches, hsize, Nat.add_comm 1 k, ReaderMode.shift,
    Branches.shift, Branches.fresh, Branches.select]

variable {p : String} {n : NumberedPattern}

/-- What is read in a group up to its end becomes an item. -/
theorem leadsTo_close (hread : NumberedPattern.read limits p = .ok n)
    (hwithin : limits.WithinAt r.groups.length wider) (hmode : r.mode = .item)
    (hbranches : r.branches = .fresh) (hsize : r.parents.size = k + 1) {g : OpenGroup}
    (hgroups : r.groups = g :: outer) :
    r.LeadsTo wider (p.toList ++ [')']) { r with
      mode := .atom (g.close (n.pattern.shift k))
      branches := g.around
      groups := outer
      parents := Array.replicate (n.groupCount + k + 1) 0 } := by
  obtain ⟨s, hrun, hfinish⟩ := NumberedPattern.read_eq_ok.1 hread
  obtain ⟨hend, hclosed, rfl⟩ := finish_eq_ok.1 hfinish
  have hcount : 0 < s.parents.size := (NumberedPattern.read_sound hread).parents
  have hbegin : r.LeadsTo wider [] (initial.inside k r.groups) :=
    ⟨r, rfl, alike_inside_initial hmode hbranches hsize⟩
  have hmayEnd : (s.inside k r.groups).mode.MayEnd := by
    refine ReaderMode.mayEnd_iff.2 ?_
    exact (ReaderMode.isComplete_shift k s.mode).trans hend
  have hopen : (s.inside k r.groups).groups = g :: outer := by
    show s.groups.map _ ++ r.groups = _
    rw [hclosed, hgroups, List.map_nil, List.nil_append]
  refine (hbegin.append (leadsTo_inside hwithin hrun)).append ⟨_, run_close wider hmayEnd hopen, ?_⟩
  have hsettle : s.settle.inside k r.groups = (s.inside k r.groups).settle := inside_settle s
  have hsize' : s.settle.parents.size + k = s.parents.size - 1 + k + 1 := by
    rw [(settle_frame s).1]
    omega
  rw [← hsettle]
  unfold Alike
  simp [project, inside, ← Branches.shift_pattern, NumberedPattern.groupCount, hsize']

theorem toList_between (before p after : String) :
    (before ++ p ++ after).toList = before.toList ++ (p.toList ++ after.toList) := by
  rw [String.toList_append, String.toList_append, List.append_assoc]

/-- A pattern in parentheses that do not capture is read as an item. -/
theorem leadsTo_wrapped (hread : NumberedPattern.read limits p = .ok n) (hmode : r.mode.MayEnd)
    (hwithin : limits.WithinAt (r.groups.length + 1) wider) (hsize : r.parents.size = k + 1) :
    r.LeadsTo wider ("(?:" ++ p ++ ")").toList { r.settle with
      mode := .atom (n.pattern.shift k)
      parents := Array.replicate (n.groupCount + k + 1) 0 } := by
  have hopened := LeadsTo.of_run (run_wrapper hmode hwithin.lt)
  obtain ⟨hparents, hgroups⟩ := settle_frame r
  rw [← hgroups] at hwithin
  rw [← hparents] at hsize
  have hclosed := leadsTo_close (r := { r.settle.openGroup r.settle.position none with
    position := r.settle.position + 3 }) hread hwithin rfl rfl hsize rfl
  rw [toList_between]
  exact hopened.append hclosed

/-- A question mark at the start of a text would have nothing to repeat. -/
theorem ne_question_of_read (hread : NumberedPattern.read limits p = .ok n) {c : Char}
    {text : List Char} (htext : p.toList ++ [')'] = c :: text) : c ≠ '?' := by
  rintro rfl
  obtain ⟨s, hrun, -⟩ := NumberedPattern.read_eq_ok.1 hread
  cases hp : p.toList with
  | nil =>
    rw [hp] at htext
    cases htext
  | cons d more =>
    rw [hp] at htext hrun
    cases htext
    cases hrun

/-- A pattern in parentheses that capture is read as a group. -/
theorem leadsTo_captured (hread : NumberedPattern.read limits p = .ok n) (hmode : r.mode.MayEnd)
    (hwithin : limits.WithinAt (r.groups.length + 1) wider) (hsize : r.parents.size = k) :
    r.LeadsTo wider ("(" ++ p ++ ")").toList { r.settle with
      mode := .atom (.group k (n.pattern.shift k))
      parents := Array.replicate (n.groupCount + k + 1) 0 } := by
  -- the group opens with the character behind the parenthesis
  obtain ⟨c, text, htext⟩ := List.exists_cons_of_ne_nil (List.concat_ne_nil ')' p.toList)
  have hopened := run_capture hmode hwithin.lt (ne_question_of_read hread htext) text
  rw [← htext] at hopened
  obtain ⟨hparents, hgroups⟩ := settle_frame r
  rw [← hgroups] at hwithin
  rw [← hparents] at hsize
  subst hsize
  obtain ⟨s, hrun, halike⟩ := leadsTo_close (r := { r.settle.openCapture r.settle.position with
    position := r.settle.position + 1 }) hread hwithin rfl rfl (Array.size_push _) rfl
  rw [toList_between]
  exact ⟨s, hopened.trans hrun, halike⟩

/-- What a text leads to is what is read, with the table of parents that the pattern tells. -/
theorem LeadsTo.read (h : initial.LeadsTo limits p.toList s) (hmode : s.mode.MayEnd)
    (hgroups : s.groups = []) (hpattern : s.settle.branches.pattern = n.pattern)
    (hhosts : n.parents.toList = 0 :: (n.pattern.captures 0).map Prod.snd) :
    NumberedPattern.read limits p = .ok n := by
  obtain ⟨s', hrun, halike⟩ := h
  have hfinish := finish_eq_ok.2 ⟨ReaderMode.mayEnd_iff.1 hmode, hgroups, rfl⟩
  obtain ⟨n', hfinish', hpattern', -⟩ := halike.finish hfinish
  rw [Pattern.select_all] at hpattern'
  have hread := NumberedPattern.read_eq_ok.2 ⟨s', hrun, hfinish'⟩
  rw [hread, (NumberedPattern.read_numbered hread).eq_of_hosts hhosts (hpattern'.trans hpattern)]

end Reader

end Inside

/-! ### Patterns put together -/

/-- Limits that allow one more group around what these limits allow. -/
def Limits.deeper (limits : Limits) : Limits :=
  { limits with maxNesting := limits.maxNesting + 1 }

/-- The text marks a repetition with these bounds, and the limits allow it. -/
inductive RepetitionMark (limits : Limits) : List Char → Nat → Option Nat → Prop
  | star : RepetitionMark limits ['*'] 0 none
  | plus : RepetitionMark limits ['+'] 1 none
  | question : RepetitionMark limits ['?'] 0 (some 1)
  | counter {text : List Char} {min : Nat} {max : Option Nat}
      (hspells : Counter.Spells text min max)
      (hexceeded : ¬ limits.Exceeded min max) (hle : ∀ m ∈ max, min ≤ m) :
    RepetitionMark limits text min max

theorem Limits.withinAt_deeper (limits : Limits) : limits.WithinAt 1 limits.deeper :=
  ⟨Nat.le_refl _, rfl⟩

namespace Reader

/-- A reader behind an item with `count` groups and nothing else. -/
def behind (item : Pattern) (count : Nat) : Reader :=
  ⟨0, Array.replicate (count + 1) 0, .atom item, .fresh, []⟩

variable {limits : Limits} {r : Reader}

/-- Behind an item a mark repeats it. -/
theorem leadsTo_mark {mark : List Char} {min : Nat} {max : Option Nat}
    (h : RepetitionMark limits mark min max) (hceiling : limits.maxRepetition ≤ countCeiling)
    {p : Pattern} (hmode : r.mode = .atom p) :
    r.LeadsTo limits.deeper mark (r.enter (.repeated p min max)) := by
  have hread : ∀ {c : Char} {min : Nat} {max : Option Nat},
      r.readMark limits.deeper p c = .ok (r.enter (.repeated p min max)) →
        r.LeadsTo limits.deeper [c] (r.enter (.repeated p min max)) := by
    intro c min max hread
    have htake : r.take limits.deeper c = .ok (r.enter (.repeated p min max)) := by
      unfold Reader.take
      rw [hmode]
      exact hread
    exact ⟨_, run_cons_of_take htake [], rfl⟩
  cases h with
  | star => exact hread rfl
  | plus => exact hread rfl
  | question => exact hread rfl
  | counter hspells hexceeded hle =>
    -- counts within a limit below the ceiling are not cut off
    have hcompares : limits.deeper.Compares min max := by
      refine .inr ⟨?_, fun m hm => ?_⟩
      · exact (Nat.le_of_not_lt fun hlt => hexceeded (.inl hlt)).trans hceiling
      · exact (Nat.le_of_not_lt fun hlt => hexceeded (.inr ⟨m, hm, hlt⟩)).trans hceiling
    have hwithout : r.withoutCounter = r := by
      unfold withoutCounter
      rw [hmode]
    obtain ⟨ds, r', rfl, hrun, hbranches, hgroups, hparents, htake⟩ :=
      exists_run_spelled (hwithout ▸ hmode) hspells hcompares
    rw [hwithout] at hbranches
    have hallowed : ¬ limits.deeper.Exceeded min max := hexceeded
    rw [repeatCounted_of_le hallowed hle] at htake
    refine ⟨_, (run_append_of_eq hrun _).trans (run_cons_of_take htake []), ?_⟩
    unfold Alike
    simp only [project, enter, hbranches, hgroups, hparents]

end Reader

namespace NumberedPattern

/-- The pattern as a group, which becomes the first one. It is around all that were outermost. -/
def captured (n : NumberedPattern) : NumberedPattern :=
  ⟨.group 1 (n.pattern.shift 1), (0 :: 0 :: n.parents.toList.tail.map (· + 1)).toArray⟩

/-- Two patterns put together, with the groups of the second one behind those of the first one. The
outermost groups remain so. -/
def join (f : Pattern → Pattern → Pattern) (m n : NumberedPattern) : NumberedPattern :=
  ⟨f m.pattern (n.pattern.shift m.groupCount), (m.parents.toList ++
    n.parents.toList.tail.map fun g => if g = 0 then 0 else g + m.groupCount).toArray⟩

variable {m n : NumberedPattern}

theorem Numbered.hosts_captured (h : n.Numbered) :
    n.captured.parents.toList = 0 :: (n.captured.pattern.captures 0).map Prod.snd := by
  have hcaptures : (n.pattern.shift 1).captures 1 =
      (n.pattern.captures 0).map (Prod.map (· + 1) (· + 1)) :=
    Pattern.captures_renumber (· + 1) n.pattern 0
  unfold captured
  rw [Pattern.captures, hcaptures, h.hosts, List.map_cons, List.map_map, List.tail_cons,
    List.map_map]
  rfl

/-- Outermost groups that are numbered from one on remain outermost. -/
theorem Numbered.captures_shift (h : n.Numbered) (k : Nat) : (n.pattern.shift k).captures 0 =
    (n.pattern.captures 0).map (Prod.map (· + k) fun g => if g = 0 then 0 else g + k) := by
  have hpos : ∀ e ∈ n.pattern.captures 0, e.1 ≠ 0 := by
    intro e he
    have hindex := List.mem_map_of_mem (f := Prod.fst) he
    rw [h.indices, List.mem_range'_1] at hindex
    omega
  have hrenumber : n.pattern.shift k =
      n.pattern.renumber fun g => if g = 0 then 0 else g + k :=
    Pattern.renumber_congr fun e he => (if_neg (hpos e he)).symm
  rw [hrenumber]
  refine (Pattern.captures_renumber (fun g => if g = 0 then 0 else g + k) n.pattern 0).trans ?_
  refine List.map_congr_left fun e he => ?_
  rw [Prod.map, Prod.map, if_neg (hpos e he)]

theorem Numbered.hosts_join (hm : m.Numbered) (hn : n.Numbered) {f : Pattern → Pattern → Pattern}
    (hf : ∀ p q, (f p q).captures 0 = p.captures 0 ++ q.captures 0) :
    (m.join f n).parents.toList = 0 :: ((m.join f n).pattern.captures 0).map Prod.snd := by
  unfold join
  rw [hf, hn.captures_shift, hm.hosts, hn.hosts, List.map_append, List.map_map, List.tail_cons,
    List.map_map, List.cons_append]
  rfl

theorem Numbered.parents_pos (h : n.Numbered) : 0 < n.parents.size := by
  rw [← Array.length_toList, h.hosts]
  exact Nat.succ_pos _

theorem Numbered.groupCount_captured (h : n.Numbered) :
    n.captured.groupCount = n.groupCount + 1 := by
  have hpos := h.parents_pos
  simp only [groupCount, captured, List.size_toArray, List.length_cons, List.length_map,
    List.length_tail, Array.length_toList]
  omega

theorem Numbered.groupCount_join (hm : m.Numbered) (hn : n.Numbered)
    (f : Pattern → Pattern → Pattern) :
    (m.join f n).groupCount = m.groupCount + n.groupCount := by
  have hpos := hm.parents_pos
  have hpos' := hn.parents_pos
  simp only [groupCount, join, List.size_toArray, List.length_append, List.length_map,
    List.length_tail, Array.length_toList]
  omega

/-- **Patterns in parentheses are read as the patterns put together.** Parentheses that do not
capture change nothing but the depth, and those that do are the first group, around all others. In a
sequence or a choice the groups of the second pattern follow those of the first one. A mark behind
the parentheses repeats the pattern in them, where the limit on counts is not above the ceiling. -/
theorem read_composed {limits : Limits} {p q : String} (hp : read limits p = .ok m)
    (hq : read limits q = .ok n) :
    read limits.deeper ("(?:" ++ p ++ ")") = .ok m ∧
    (read limits.deeper ("(" ++ p ++ ")") = .ok m.captured ∧
      m.captured.groupCount = m.groupCount + 1) ∧
    (read limits.deeper (("(?:" ++ p ++ ")") ++ ("(?:" ++ q ++ ")")) = .ok (m.join .seq n) ∧
      read limits.deeper (("(?:" ++ p ++ ")") ++ "|" ++ ("(?:" ++ q ++ ")")) =
        .ok (m.join .alt n) ∧
      ∀ f, (m.join f n).groupCount = m.groupCount + n.groupCount) ∧
    (limits.maxRepetition ≤ countCeiling → ∀ (mark : String) (min : Nat) (max : Option Nat),
      RepetitionMark limits mark.toList min max →
        read limits.deeper (("(?:" ++ p ++ ")") ++ mark) =
          .ok ⟨.repeated m.pattern ⟨min, max, false⟩, m.parents⟩ ∧
        read limits.deeper (("(?:" ++ p ++ ")") ++ mark ++ "?") =
          .ok ⟨.repeated m.pattern ⟨min, max, true⟩, m.parents⟩) := by
  have hm := read_numbered hp
  have hn := read_numbered hq
  have hfirst : Reader.initial.LeadsTo limits.deeper ("(?:" ++ p ++ ")").toList
      (.behind m.pattern m.groupCount) := by
    rw [← m.pattern.shift_zero]
    exact Reader.leadsTo_wrapped hp (r := .initial) trivial limits.withinAt_deeper rfl
  have hsize : (Reader.behind m.pattern m.groupCount).parents.size = m.groupCount + 1 :=
    Array.size_replicate
  refine ⟨?_, ⟨?_, hm.groupCount_captured⟩, ⟨?_, ?_, hm.groupCount_join hn⟩, ?_⟩
  · exact hfirst.read trivial rfl rfl hm.hosts
  · have hgroup := Reader.leadsTo_captured hp (r := .initial) trivial limits.withinAt_deeper rfl
    exact hgroup.read trivial rfl rfl hm.hosts_captured
  · have hsecond := Reader.leadsTo_wrapped hq (r := .behind m.pattern m.groupCount) trivial
      limits.withinAt_deeper hsize
    have hboth := hfirst.append hsecond
    rw [← String.toList_append] at hboth
    exact hboth.read trivial rfl rfl (hm.hosts_join hn fun _ _ => rfl)
  · have hbar := Reader.run_bar limits.deeper (r := .behind m.pattern m.groupCount) trivial
    have hboth := (hfirst.append (.of_run hbar)).append
      (Reader.leadsTo_wrapped hq (by trivial) limits.withinAt_deeper hsize)
    have htext : ("(?:" ++ p ++ ")" ++ "|").toList = ("(?:" ++ p ++ ")").toList ++ ['|'] :=
      String.toList_append
    rw [← htext, ← String.toList_append] at hboth
    exact hboth.read trivial rfl rfl (hm.hosts_join hn fun _ _ => rfl)
  · intro hceiling mark min max hmark
    have hmarked := hfirst.append (Reader.leadsTo_mark hmark hceiling rfl)
    rw [← String.toList_append] at hmarked
    have hlazily := hmarked.append
      (.of_run (Reader.run_cons_of_take (Reader.take_lazy limits.deeper rfl) []))
    have htext : ("(?:" ++ p ++ ")" ++ mark ++ "?").toList =
        ("(?:" ++ p ++ ")" ++ mark).toList ++ ['?'] := String.toList_append
    rw [← htext] at hlazily
    exact ⟨hmarked.read trivial rfl rfl hm.hosts, hlazily.read trivial rfl rfl hm.hosts⟩

/-- A text that ends inside a counter, with a group, and a group inside another one. -/
theorem read_composed_half_counter :
    read ⟨2, 9⟩ "(a)b\x7b2" =
        .ok ⟨.seqAll [.group 1 (.char 'a'), .char 'b', .char '\x7b', .char '2'], #[0, 0]⟩ ∧
      read ⟨2, 9⟩ "((x)|y)" =
        .ok ⟨.group 1 (.alt (.group 2 (.char 'x')) (.char 'y')), #[0, 0, 1]⟩ ∧
      read ⟨3, 9⟩ "((a)b\x7b2)" =
        .ok ⟨.group 1 (.seqAll [.group 2 (.char 'a'), .char 'b', .char '\x7b', .char '2']),
          #[0, 0, 1]⟩ ∧
      read ⟨3, 9⟩ "(?:(a)b\x7b2)|(?:((x)|y))" =
        .ok ⟨.alt (.seqAll [.group 1 (.char 'a'), .char 'b', .char '\x7b', .char '2'])
          (.group 2 (.alt (.group 3 (.char 'x')) (.char 'y'))), #[0, 0, 0, 2]⟩ ∧
      read ⟨3, 9⟩ "(?:(a)b\x7b2)\x7b1,3\x7d?" =
        .ok ⟨.repeated (.seqAll [.group 1 (.char 'a'), .char 'b', .char '\x7b', .char '2'])
          ⟨1, some 3, true⟩, #[0, 0]⟩ := by
  have hp : read ⟨2, 9⟩ "(a)b\x7b2" =
      .ok ⟨.seqAll [.group 1 (.char 'a'), .char 'b', .char '\x7b', .char '2'], #[0, 0]⟩ := by cbv
  have hq : read ⟨2, 9⟩ "((x)|y)" =
      .ok ⟨.group 1 (.alt (.group 2 (.char 'x')) (.char 'y')), #[0, 0, 1]⟩ := by cbv
  have hone : Counter.Digits ['1'] := Counter.digits_singleton rfl
  have hthree : Counter.Digits ['3'] := Counter.digits_singleton rfl
  have hmark : RepetitionMark ⟨2, 9⟩ "\x7b1,3\x7d".toList 1 (some 3) :=
    .counter (.between hone hthree) (by decide) (by simp)
  obtain ⟨-, ⟨hgroup, -⟩, ⟨-, halt, -⟩, hmarks⟩ := read_composed hp hq
  exact ⟨hp, hq, hgroup, halt, (hmarks (by decide) _ 1 (some 3) hmark).2⟩

end NumberedPattern

end Submatch
