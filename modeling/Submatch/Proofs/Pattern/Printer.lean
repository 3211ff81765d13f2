import Submatch.Proofs.Pattern.Completion
import Submatch.Proofs.Pattern.WellFormed

/-!
# Reading undoes printing

Whatever pattern is printed, reading the text gives the same pattern back, with the groups counted
and the table of parents filled in (`NumberedPattern.read_print`).

The induction is over the pattern, for a reader anywhere inside other groups: once the text of a
part has been read, the branches of the innermost group are those that make up the part
(`Reader.Reads`). A part that is wrapped, or a group, becomes one item (`Reader.ReadsItem`).
-/

namespace Submatch

namespace Pattern

/-- How deep the parentheses of the text of the pattern are nested. -/
def printDepth : Pattern → Nat
  | empty | char _ | set _ | any => 0
  | seq left right | alt left right => max left.printDepth right.printDepth + 1
  | repeated body _ | group _ body => body.printDepth + 1

/-- What is required of a node by itself: a set is in normal form, its bounds are scalar values, and
the bounds of a repetition ascend up to the limit. -/
def NodePrintable (limits : Limits) : Pattern → Prop
  | set ranges => RangeSet.Separated ranges ∧ ∀ s ∈ ranges, s.lo.isValidChar ∧ s.hi.isValidChar
  | repeated _ q => q.min ≤ limits.maxRepetition ∧
      ∀ m ∈ q.max, q.min ≤ m ∧ m ≤ limits.maxRepetition
  | empty | char _ | any | seq _ _ | alt _ _ | group _ _ => True

instance (limits : Limits) : DecidablePred (NodePrintable limits)
  | set ranges => inferInstanceAs
      (Decidable (ranges.Pairwise _ ∧ ∀ s ∈ ranges, s.lo.isValidChar ∧ s.hi.isValidChar))
  | repeated _ q => inferInstanceAs (Decidable (q.min ≤ limits.maxRepetition ∧
      ∀ m ∈ q.max, q.min ≤ m ∧ m ≤ limits.maxRepetition))
  | empty | char _ | any | seq _ _ | alt _ _ | group _ _ => isTrue trivial

/-- A pattern with `count` groups whose text respects the limits. -/
structure Printable (limits : Limits) (count : Nat) (p : Pattern) : Prop where
  nodes : ∀ q ∈ p.nodes, q.NodePrintable limits
  /-- The groups are numbered from one on in preorder. -/
  indices : p.indices = List.range' 1 count
  depth : p.printDepth ≤ limits.maxNesting

/-- What stands behind the parenthesis of a printed group does not begin with a question mark. -/
theorem exists_head_print (p : Pattern) :
    ∃ c text, p.print ++ [')'] = c :: text ∧ c ≠ '?' := by
  cases p with
  | empty => exact ⟨')', [], rfl, by decide⟩
  | char c =>
    unfold print printChar
    cases hneeds : needsEscape c with
    | true => exact ⟨'\\', _, rfl, by decide⟩
    | false =>
      refine ⟨c, _, rfl, ?_⟩
      rintro rfl
      cases hneeds
  | set ranges =>
    unfold print printSet
    cases ranges with
    | nil => exact ⟨'[', _, rfl, by decide⟩
    | cons s ranges => exact ⟨'[', _, rfl, by decide⟩
  | any => exact ⟨'.', _, rfl, by decide⟩
  | seq | alt | repeated | group => exact ⟨'(', _, rfl, by decide⟩

end Pattern

/-- Nothing has been begun that another character is needed for. -/
def ReaderMode.IsComplete : ReaderMode → Prop
  | item | atom _ | repeated .. => True
  | counter .. | escape _ | paren _ | parenMark _ | bracket _ => False

theorem ReaderMode.IsComplete.mayEnd {mode : ReaderMode} (h : mode.IsComplete) : mode.MayEnd := by
  cases mode with
  | item | atom | repeated => trivial
  | counter | escape | paren | parenMark | bracket => exact h.elim

namespace Reader

open Pattern

/-- Reading the text takes the reader `r` to `r'`, where the same groups are open, `count` more have
been numbered, and the branches of the innermost group are the given ones. -/
structure Reads (limits : Limits) (text : List Char) (branches : Branches) (count : Nat)
    (r r' : Reader) : Prop where
  run : r.run limits text = .ok r'
  mode : r'.mode.IsComplete
  branches : r'.settle.branches = branches
  groups : r'.groups = r.groups
  size : r'.parents.size = r.parents.size + count

/-- Reading the text takes the reader `r` to `r'`, behind one more item, which may be repeated. -/
structure ReadsItem (limits : Limits) (text : List Char) (item : Pattern) (count : Nat)
    (r r' : Reader) : Prop where
  run : r.run limits text = .ok r'
  mode : r'.mode = .atom item
  branches : r'.branches = r.settle.branches
  groups : r'.groups = r.groups
  size : r'.parents.size = r.parents.size + count

variable {limits : Limits} {r r' r'' : Reader} {text more : List Char} {p item : Pattern}
  {b b' : Branches} {m n : Nat}

theorem settle_of_atom (h : r.mode = .atom p) : r.settle = r.push p := by
  unfold settle
  rw [h]

theorem settle_of_item (h : r.mode = .item) : r.settle = r := by
  unfold settle
  rw [h]

theorem Reads.append (h : Reads limits text b m r r') (hmore : Reads limits more b' n r' r'') :
    Reads limits (text ++ more) b' (m + n) r r'' where
  run := (run_append_of_eq h.run more).trans hmore.run
  mode := hmore.mode
  branches := hmore.branches
  groups := hmore.groups.trans h.groups
  size := by rw [hmore.size, h.size, Nat.add_assoc]

theorem ReadsItem.reads (h : ReadsItem limits text item n r r') :
    Reads limits text (r.settle.branches.push item) n r r' where
  run := h.run
  mode := by
    rw [h.mode]
    trivial
  branches := by
    rw [settle_of_atom h.mode, ← h.branches]
    rfl
  groups := h.groups
  size := h.size

/-- A part that only changes the mode is an item. -/
theorem Reaches.readsItem (h : Reaches limits text (.atom item) r r') (hmode : r.mode = .item) :
    ReadsItem limits text item 0 r r' where
  run := h.run
  mode := h.mode
  branches := by rw [settle_of_item hmode, h.branches]
  groups := h.groups
  size := by rw [h.parents, Nat.add_zero]

/-- The reader behind the opening of a group that has been opened around nothing. -/
structure Opened (capture : Option Nat) (count : Nat) (r r' : Reader) : Prop where
  mode : r'.mode = .item
  branches : r'.branches = .fresh
  groups : ∃ start, r'.groups = ⟨start, capture, r.settle.branches⟩ :: r.groups
  size : r'.parents.size = r.parents.size + count

/-- The opening of a wrapped part. -/
theorem exists_run_wrapper (limits : Limits) (hmode : r.mode.IsComplete)
    (hroom : r.groups.length < limits.maxNesting) :
    ∃ r', r.run limits ['(', '?', ':'] = .ok r' ∧ Opened none 0 r r' := by
  obtain ⟨hparents, hgroups⟩ := settle_frame r
  refine ⟨_, run_wrapper hmode.mayEnd hroom, rfl, rfl, ⟨r.settle.position, ?_⟩,
    congrArg Array.size hparents⟩
  rw [← hgroups]
  rfl

/-- The opening of a group that captures. The character behind it is read in the group. -/
theorem exists_run_capture (limits : Limits) (hmode : r.mode.IsComplete)
    (hroom : r.groups.length < limits.maxNesting) :
    ∃ r', (∀ c text, c ≠ '?' → r.run limits ('(' :: c :: text) = r'.run limits (c :: text)) ∧
      Opened (some r.parents.size) 1 r r' := by
  obtain ⟨hparents, hgroups⟩ := settle_frame r
  refine ⟨_, fun c text hc => run_capture hmode.mayEnd hroom hc text, rfl, rfl,
    ⟨r.settle.position, ?_⟩, ?_⟩
  · rw [← hgroups, ← hparents]
    rfl
  · show (r.settle.parents.push r.settle.enclosing).size = _
    rw [Array.size_push, hparents]

/-- A group whose body has been read is one item with the closing parenthesis. -/
theorem Reads.exists_close {g : OpenGroup} {outer : List OpenGroup}
    (h : Reads limits text b n r r') (hgroups : r.groups = g :: outer) :
    ∃ r'', r.run limits (text ++ [')']) = .ok r'' ∧ r''.mode = .atom (g.close b.pattern) ∧
      r''.branches = g.around ∧ r''.groups = outer ∧
        r''.parents.size = r.parents.size + n := by
  obtain ⟨hparents, hframe⟩ := settle_frame r'
  have hopen : r'.settle.groups = g :: outer := by rw [hframe, h.groups, hgroups]
  have htake : r'.take limits ')' = .ok { r'.settle with
      mode := .atom (g.close b.pattern), branches := g.around, groups := outer } := by
    rw [take_of_mayEnd h.mode.mayEnd (.inr (.inl rfl))]
    unfold readItem
    simp only [hopen, h.branches]
  refine ⟨_, (run_append_of_eq h.run [')']).trans (run_cons_of_take htake []), rfl, rfl, rfl, ?_⟩
  simp only [hparents, h.size]

/-- The text of the pattern can be read in a group of its own, wherever there is room for it and the
numbers of its groups come next. -/
def ReadsBack (limits : Limits) (p : Pattern) : Prop :=
  ∀ r : Reader, r.mode = .item → r.branches = .fresh →
    p.indices = List.range' r.parents.size p.indices.length →
      r.groups.length + p.printDepth ≤ limits.maxNesting →
        ∃ b r', Reads limits p.print b p.indices.length r r' ∧ b.pattern = p

/-- A wrapped part is an item. -/
theorem ReadsBack.exists_wrapped (h : ReadsBack limits p) (hmode : r.mode.IsComplete)
    (hindices : p.indices = List.range' r.parents.size p.indices.length)
    (hdepth : r.groups.length + p.printDepth < limits.maxNesting) :
    ∃ r', ReadsItem limits (printWrapped p.print) p p.indices.length r r' := by
  obtain ⟨r₁, hopen, hopened⟩ := exists_run_wrapper limits hmode (by omega)
  obtain ⟨start, hgroups⟩ := hopened.groups
  have hsize : r₁.parents.size = r.parents.size := hopened.size
  obtain ⟨b, r₂, hreads, hpattern⟩ := h r₁ hopened.mode hopened.branches
    (by rw [hsize]; exact hindices) (by rw [hgroups, List.length_cons]; omega)
  obtain ⟨r', hrun, hatom, hbranches, houter, hcount⟩ := hreads.exists_close hgroups
  refine ⟨r', ?_, by rw [hatom, hpattern]; rfl, hbranches, houter, by rw [hcount, hsize]⟩
  unfold printWrapped
  rw [List.append_assoc, run_append_of_eq hopen, hrun]

/-- A printed group is an item. -/
theorem ReadsBack.exists_group {body : Pattern} {index : Nat} (h : ReadsBack limits body)
    (hmode : r.mode.IsComplete)
    (hindices : (group index body).indices =
      List.range' r.parents.size (group index body).indices.length)
    (hdepth : r.groups.length + (group index body).printDepth ≤ limits.maxNesting) :
    ∃ r', ReadsItem limits (group index body).print (group index body)
      (group index body).indices.length r r' := by
  unfold printDepth at hdepth
  rw [indices_group, List.length_cons, List.range'_succ] at hindices
  obtain ⟨rfl, hbody⟩ := List.cons.inj hindices
  obtain ⟨r₁, hopen, hopened⟩ := exists_run_capture limits hmode (by omega)
  obtain ⟨start, hgroups⟩ := hopened.groups
  obtain ⟨b, r₂, hreads, hpattern⟩ := h r₁ hopened.mode hopened.branches
    (by rw [hopened.size]; exact hbody) (by rw [hgroups, List.length_cons]; omega)
  obtain ⟨r', hrun, hatom, hbranches, houter, hcount⟩ := hreads.exists_close hgroups
  obtain ⟨c, text, htext, hc⟩ := exists_head_print body
  refine ⟨r', ?_, by rw [hatom, hpattern]; rfl, hbranches, houter, ?_⟩
  · unfold print
    rw [List.cons_append, htext, hopen c text hc, ← htext]
    exact hrun
  · rw [hcount, hopened.size, indices_group, List.length_cons]
    omega

/-- A bar ends a branch. -/
theorem exists_reads_bar (limits : Limits) (hmode : r.mode.IsComplete) :
    ∃ r', Reads limits ['|'] r.settle.branches.bar 0 r r' := by
  obtain ⟨hparents, hgroups⟩ := settle_frame r
  have hsettled := mode_settle hmode.mayEnd
  refine ⟨_, run_bar limits hmode.mayEnd, ?_, ?_, hgroups, congrArg Array.size hparents⟩
  · rw [hsettled]
    trivial
  · refine congrArg Reader.branches (settle_of_item ?_)
    exact hsettled

theorem digits_printNumber (n : Nat) : Counter.Digits (printNumber n) where
  ne_nil := Nat.toDigits_ne_nil
  isDigit := fun _ hc => Nat.isDigit_of_mem_toDigits (by decide) (by decide) hc

theorem value_printNumber (n : Nat) : Counter.value (printNumber n) = n :=
  Nat.ofDigitChars_ten_toDigits

/-- A printed counter spells its counts. -/
theorem spells_printed (min : Nat) (max : Option Nat) : Counter.Spells
    ('\x7b' :: printNumber min ++ ',' :: (max.elim [] printNumber ++ ['\x7d'])) min max := by
  rcases max with _ | m
  · have hspells := Counter.Spells.atLeast (digits_printNumber min)
    rw [value_printNumber] at hspells
    exact hspells
  · have hspells := Counter.Spells.between (digits_printNumber min) (digits_printNumber m)
    rw [value_printNumber, value_printNumber] at hspells
    rw [List.append_assoc] at hspells
    exact hspells

/-- The counter of a printed quantifier. -/
theorem exists_reaches_counts (hmode : r.mode = .atom p) {min : Nat} {max : Option Nat}
    (hmin : min ≤ limits.maxRepetition) (hmax : ∀ m ∈ max, min ≤ m ∧ m ≤ limits.maxRepetition)
    (hceiling : limits.maxRepetition ≤ countCeiling) :
    ∃ r', Reaches limits ('\x7b' :: printNumber min ++ ',' :: (max.elim [] printNumber ++ ['\x7d']))
      (.repeated p min max) r r' := by
  obtain ⟨ds, k, r₁, htext, hspelled, -, hstep⟩ :=
    exists_reaches_spelled limits hmode (spells_printed min max)
  have hexceeded : ¬ limits.Exceeded min max := by
    rintro (hlt | ⟨m, hm, hlt⟩)
    · exact Nat.not_le.2 hlt hmin
    · exact Nat.not_le.2 hlt (hmax m hm).2
  have hcompares : limits.Compares min max := by
    refine .inr ⟨Nat.le_trans hmin hceiling, fun m hm => ?_⟩
    exact Nat.le_trans (hmax m hm).2 hceiling
  obtain ⟨hcutmin, hcutmax⟩ := hcompares.cutOff_eq hexceeded
  rw [hcutmin, hcutmax] at hstep
  have hclose : r₁.take limits '\x7d' = .ok (r₁.enter (.repeated p min max)) := by
    unfold take
    rw [hspelled.mode]
    simp only [hstep]
    exact repeatCounted_of_le hexceeded (fun m hm => (hmax m hm).1) ..
  obtain ⟨r₂, hend⟩ := exists_reaches_of_take hclose
  rw [htext]
  exact ⟨r₂, hspelled.append hend⟩

/-- A printed quantifier repeats the item before it. -/
theorem exists_reads_quantifier (hmode : r.mode = .atom p) {q : Quantifier}
    (hmin : q.min ≤ limits.maxRepetition)
    (hmax : ∀ m ∈ q.max, q.min ≤ m ∧ m ≤ limits.maxRepetition)
    (hceiling : limits.maxRepetition ≤ countCeiling) :
    ∃ r', Reads limits (printQuantifier q) (r.branches.push (.repeated p q)) 0 r r' := by
  obtain ⟨r₁, hcounts⟩ := exists_reaches_counts hmode hmin hmax hceiling
  obtain ⟨min, max, isLazy⟩ := q
  cases isLazy with
  | false =>
    refine ⟨r₁, ?_, ?_, ?_, hcounts.groups, by rw [hcounts.parents, Nat.add_zero]⟩
    · exact hcounts.run
    · rw [hcounts.mode]
      trivial
    · unfold settle
      rw [hcounts.mode, ← hcounts.branches]
      rfl
  | true =>
    have hmark : r₁.take limits '?' = .ok (r₁.push (.repeated p ⟨min, max, true⟩)) := by
      unfold take
      rw [hcounts.mode]
      rfl
    have hrun := (run_append_of_eq hcounts.run ['?']).trans (run_cons_of_take hmark [])
    refine ⟨{ r₁.push (.repeated p ⟨min, max, true⟩) with position := r₁.position + 1 }, ?_,
      trivial, ?_, hcounts.groups, congrArg Array.size hcounts.parents⟩
    · have htext : printQuantifier ⟨min, max, true⟩ = '\x7b' :: printNumber min ++
          ',' :: (max.elim [] printNumber ++ ['\x7d']) ++ ['?'] := by
        simp [printQuantifier]
      rw [htext]
      exact hrun
    · rw [← hcounts.branches]
      rfl

/-- Numbers in a row are those of the first part, and behind them those of the second. -/
theorem range'_of_append {xs ys : List Nat} {first : Nat}
    (h : xs ++ ys = List.range' first (xs ++ ys).length) :
    xs = List.range' first xs.length ∧ ys = List.range' (first + xs.length) ys.length := by
  rw [List.length_append, ← List.range'_append_1] at h
  exact List.append_inj h List.length_range'.symm

/-- Two wrapped parts, one behind the other, with what stands between them. -/
theorem ReadsBack.exists_pair {left right : Pattern} (hleft : ReadsBack limits left)
    (hright : ReadsBack limits right) (more : List Char) (hmode : r.mode = .item)
    (hfresh : r.branches = .fresh)
    (hindices : left.indices ++ right.indices =
      List.range' r.parents.size (left.indices ++ right.indices).length)
    (hdepth : r.groups.length + (max left.printDepth right.printDepth + 1) ≤ limits.maxNesting)
    (hmore : ∀ r₁ : Reader, r₁.mode = .atom left → r₁.branches = .fresh →
      ∃ r₂, Reads limits more b 0 r₁ r₂) :
    ∃ r', Reads limits (printWrapped left.print ++ (more ++ printWrapped right.print))
      (b.push right) (left.indices ++ right.indices).length r r' := by
  obtain ⟨hfirst, hsecond⟩ := range'_of_append hindices
  have hcomplete : r.mode.IsComplete := by
    rw [hmode]
    trivial
  have hl := Nat.le_max_left left.printDepth right.printDepth
  have hr := Nat.le_max_right left.printDepth right.printDepth
  obtain ⟨r₁, hitem₁⟩ := hleft.exists_wrapped hcomplete hfirst (by omega)
  have hbranches : r₁.branches = .fresh := by
    rw [hitem₁.branches, settle_of_item hmode, hfresh]
  obtain ⟨r₂, hreads₂⟩ := hmore r₁ hitem₁.mode hbranches
  have hsize : r₂.parents.size = r.parents.size + left.indices.length := by
    rw [hreads₂.size, hitem₁.size, Nat.add_zero]
  have hgroups : r₂.groups = r.groups := hreads₂.groups.trans hitem₁.groups
  obtain ⟨r₃, hitem₃⟩ := hright.exists_wrapped hreads₂.mode (by rw [hsize]; exact hsecond)
    (by rw [hgroups]; omega)
  refine ⟨r₃, ?_⟩
  have hreads := hitem₁.reads.append (hreads₂.append hitem₃.reads)
  rw [hreads₂.branches] at hreads
  rw [List.length_append]
  simpa using hreads

/-- **The text of a pattern can be read back** in a group of its own, and so anywhere. -/
theorem readsBack (hceiling : limits.maxRepetition ≤ countCeiling) (p : Pattern)
    (hnodes : ∀ q ∈ p.nodes, q.NodePrintable limits) : ReadsBack limits p := by
  induction p with
  | empty =>
    intro r hmode hfresh _ _
    refine ⟨.fresh, r, ⟨rfl, ?_, ?_, rfl, rfl⟩, rfl⟩
    · rw [hmode]
      trivial
    · rw [settle_of_item hmode, hfresh]
  | char c =>
    intro r hmode hfresh _ _
    obtain ⟨r', hreach⟩ := exists_reaches_char limits hmode c
    exact ⟨_, r', (hreach.readsItem hmode).reads, by rw [settle_of_item hmode, hfresh]; rfl⟩
  | set ranges =>
    intro r hmode hfresh _ _
    obtain ⟨hseparated, hvalid⟩ := hnodes _ List.mem_cons_self
    obtain ⟨r', hreach⟩ := exists_reaches_set limits hmode hseparated hvalid
    exact ⟨_, r', (hreach.readsItem hmode).reads, by rw [settle_of_item hmode, hfresh]; rfl⟩
  | any =>
    intro r hmode hfresh _ _
    have htake : r.take limits '.' = .ok (r.enter (.atom .any)) := by
      unfold take
      rw [hmode]
      rfl
    obtain ⟨r', hreach⟩ := exists_reaches_of_take htake
    exact ⟨_, r', (hreach.readsItem hmode).reads, by rw [settle_of_item hmode, hfresh]; rfl⟩
  | seq left right ihl ihr =>
    obtain ⟨-, hparts⟩ := List.forall_mem_cons.1 hnodes
    obtain ⟨hleft, hright⟩ := List.forall_mem_append.1 hparts
    intro r hmode hfresh hindices hdepth
    rw [indices_seq] at hindices ⊢
    obtain ⟨r', hreads⟩ := (ihl hleft).exists_pair (ihr hright) [] hmode hfresh hindices
      hdepth (b := Branches.fresh.push left) fun r₁ hatom hnone =>
        ⟨r₁, rfl, by rw [hatom]; trivial, by rw [settle_of_atom hatom, ← hnone]; rfl, rfl, rfl⟩
    exact ⟨_, r', hreads, rfl⟩
  | alt left right ihl ihr =>
    obtain ⟨-, hparts⟩ := List.forall_mem_cons.1 hnodes
    obtain ⟨hleft, hright⟩ := List.forall_mem_append.1 hparts
    intro r hmode hfresh hindices hdepth
    rw [indices_alt] at hindices ⊢
    obtain ⟨r', hreads⟩ := (ihl hleft).exists_pair (ihr hright) ['|'] hmode hfresh
      hindices hdepth (b := (Branches.fresh.push left).bar) fun r₁ hatom hnone => by
        have hbar := exists_reads_bar limits (r := r₁) (by rw [hatom]; trivial)
        rwa [settle_of_atom hatom, push, hnone] at hbar
    exact ⟨_, r', hreads, rfl⟩
  | repeated body q ih =>
    obtain ⟨⟨hmin, hmax⟩, hbody⟩ := List.forall_mem_cons.1 hnodes
    intro r hmode hfresh hindices hdepth
    rw [indices_repeated] at hindices ⊢
    have hcomplete : r.mode.IsComplete := by
      rw [hmode]
      trivial
    unfold printDepth at hdepth
    obtain ⟨r₁, hitem⟩ := (ih hbody).exists_wrapped hcomplete hindices (by omega)
    obtain ⟨r₂, hquantifier⟩ := exists_reads_quantifier hitem.mode hmin hmax hceiling
    refine ⟨_, r₂, hitem.reads.append hquantifier, ?_⟩
    rw [hitem.branches, settle_of_item hmode, hfresh]
    rfl
  | group index body ih =>
    intro r hmode hfresh hindices hdepth
    have hbody := ih fun q hq => hnodes q (List.mem_cons_of_mem _ hq)
    have hcomplete : r.mode.IsComplete := by
      rw [hmode]
      trivial
    obtain ⟨r', hitem⟩ := hbody.exists_group hcomplete hindices hdepth
    exact ⟨_, r', hitem.reads, by rw [settle_of_item hmode, hfresh]; rfl⟩

end Reader

namespace NumberedPattern

variable {limits : Limits} {count : Nat} {p : Pattern}

/-- **Reading undoes printing.** Let the sets of a pattern be in normal form with scalar values as
bounds, let the bounds of its repetitions ascend up to the limit, which is a count that is read
exactly, let its groups be numbered from one on in preorder, and let its text be nested no deeper
than allowed. Then its text can be read, and gives the pattern itself, with the number of its groups
and with the innermost group around each group as its parent. -/
theorem read_print (hp : p.Printable limits count)
    (hceiling : limits.maxRepetition ≤ countCeiling) :
    ∃ n, read limits (String.ofList p.print) = .ok n ∧ n.pattern = p ∧ n.groupCount = count ∧
      n.parents.toList = 0 :: (p.captures 0).map Prod.snd ∧
      ∀ g, 1 ≤ g → g ≤ count → ∃ host, n.parents[g]? = some host ∧ p.Innermost host g := by
  have hlength : p.indices.length = count := by rw [hp.indices, List.length_range']
  have hsize : Reader.initial.parents.size = 1 := rfl
  have hindices : p.indices = List.range' Reader.initial.parents.size p.indices.length := by
    rw [hlength, hsize, hp.indices]
  have hdepth : Reader.initial.groups.length + p.printDepth ≤ limits.maxNesting := by
    have hzero : Reader.initial.groups.length = 0 := rfl
    have := hp.depth
    omega
  obtain ⟨b, r, hreads, rfl⟩ :=
    Reader.readsBack hceiling p hp.nodes Reader.initial rfl rfl hindices hdepth
  have hfinish : r.finish = .ok ⟨b.pattern, r.parents⟩ := by
    have hmode := hreads.mode
    have hgroups : r.groups = [] := hreads.groups
    unfold Reader.finish
    cases h : r.mode with
    | item | atom | repeated => simp only [hgroups, hreads.branches]
    | counter | escape | paren | parenMark | bracket =>
      rw [h] at hmode
      exact hmode.elim
  have hread : read limits (String.ofList b.pattern.print) = .ok ⟨b.pattern, r.parents⟩ := by
    rw [read_eq_ok, String.toList_ofList]
    exact ⟨r, hreads.run, hfinish⟩
  have hnumbered := read_numbered hread
  have hcount : groupCount ⟨b.pattern, r.parents⟩ = count := by
    rw [← hnumbered.length_captures, ← List.length_map Prod.fst, Pattern.map_fst_captures, hlength]
  refine ⟨_, hread, rfl, hcount, hnumbered.hosts, fun g hg hle => ?_⟩
  obtain ⟨host, hmem⟩ := hnumbered.mem_captures hg (hcount.symm ▸ hle)
  exact ⟨host, (hnumbered.hosted _ hmem).1, hnumbered.innermost hmem⟩

/-- A lazy counter in a group, a range with a bound that is written behind a backslash, a character
that needs one outside classes, and a group inside a group. -/
theorem read_print_choice : ∃ n,
    read ⟨4, 3⟩ "(?:((?:[0-9\\^-z]){2,3}?))|(?:(?:\\*)(?:((.))))" = .ok n ∧
      n.pattern = .alt
        (.group 1 (.repeated (.set [⟨48, 57, by decide⟩, ⟨94, 122, by decide⟩]) ⟨2, some 3, true⟩))
        (.seq (.char '*') (.group 2 (.group 3 .any))) ∧
      n.groupCount = 3 ∧ n.parents.toList = [0, 0, 0, 2] := by
  let p : Pattern := .alt
    (.group 1 (.repeated (.set [⟨48, 57, by decide⟩, ⟨94, 122, by decide⟩]) ⟨2, some 3, true⟩))
    (.seq (.char '*') (.group 2 (.group 3 .any)))
  have hp : p.Printable ⟨4, 3⟩ 3 := ⟨by decide, by decide, by decide⟩
  have htext : String.ofList p.print =
      "(?:((?:[0-9\\^-z]){2,3}?))|(?:(?:\\*)(?:((.))))" := by cbv
  obtain ⟨n, hread, hpattern, hcount, hparents, -⟩ := read_print hp (by decide)
  rw [htext] at hread
  exact ⟨n, hread, hpattern, hcount, hparents⟩

end NumberedPattern

end Submatch
