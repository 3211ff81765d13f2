import Submatch.Pattern.Reader
import Submatch.Proofs.Pattern.Reader
import Submatch.Proofs.Pattern.Selection

/-!
# Rewriting groups to groups that do not capture

`Reader.uncapture` rewrites the text of a pattern: it writes `?:` behind the parenthesis of every
capturing group that a selection leaves out, and changes nothing else. A reader is projected
(`Reader.project`) to what does not depend on offsets or on the groups left out. The projections of
a reader of a text and of a reader of the text rewritten stay equal (`Alike.run`).

* `NumberedPattern.read_uncapture`: the text rewritten is read as the selected pattern.
-/

namespace Submatch

variable {σ : Selection}

/-! ### Projections -/

/-- A phase without offsets. -/
def BracketPhase.project : BracketPhase → BracketPhase
  | .escape _ => .escape 0
  | .lower _ lo => .lower 0 lo
  | .dash _ lo => .dash 0 lo
  | .upperEscape _ lo => .upperEscape 0 lo
  | phase => phase

/-- A bracket class without offsets. -/
def Bracket.project (b : Bracket) : Bracket := ⟨0, b.isNegated, b.items, b.phase.project⟩

/-- A step of a bracket class without offsets. -/
def BracketStep.project : BracketStep → BracketStep
  | .more b => .more b.project
  | .closed ranges => .closed ranges

/-- A counter without offsets. -/
def Counter.project (k : Counter) : Counter := { k with start := 0 }

/-- A step of a counter without offsets. -/
def CounterStep.project : CounterStep → CounterStep
  | .more k => .more k.project
  | .complete min max => .complete min max
  | .broken => .broken

/-- Branches of which only the groups kept capture. -/
def Branches.select (σ : Selection) (b : Branches) : Branches :=
  ⟨b.done.map (Pattern.select σ), b.items.map (Pattern.select σ)⟩

/-- An open group without its offset, which captures if it is kept. -/
def OpenGroup.project (σ : Selection) (g : OpenGroup) : OpenGroup :=
  ⟨0, g.capture.bind σ.number?, g.around.select σ⟩

/-- What has been begun, without offsets and without the groups left out. -/
def ReaderMode.project (σ : Selection) : ReaderMode → ReaderMode
  | .item => .item
  | .atom p => .atom (p.select σ)
  | .counter p k => .counter (p.select σ) k.project
  | .repeated p min max => .repeated (p.select σ) min max
  | .escape _ => .escape 0
  | .paren _ => .paren 0
  | .parenMark _ => .parenMark 0
  | .bracket b => .bracket b.project

/-- What of a reader does not depend on offsets and on the groups left out. Of the table of parents
that is its length. -/
def Reader.project (σ : Selection) (r : Reader) : Reader :=
  ⟨0, Array.replicate (σ.rank r.parents.size) 0, r.mode.project σ, r.branches.select σ,
    r.groups.map (OpenGroup.project σ)⟩

@[simp] theorem BracketPhase.project_project (phase : BracketPhase) :
    phase.project.project = phase.project := by
  cases phase <;> rfl

@[simp] theorem Bracket.project_project (b : Bracket) : b.project.project = b.project := by
  simp [project]

@[simp] theorem Counter.project_project (k : Counter) : k.project.project = k.project := rfl

theorem Bracket.project_opened (start : Nat) : (opened start).project = opened 0 := rfl

theorem Counter.project_opened (start : Nat) : (opened start).project = opened 0 := rfl

theorem Bracket.readItem_project (b : Bracket) (position position' : Nat) (c : Char) :
    (b.project.readItem position' c).project = (b.readItem position c).project := by
  unfold readItem
  split
  · rfl
  · split <;> simp [BracketStep.project, enter, project, BracketPhase.project]

theorem Bracket.readFirst_project (b : Bracket) (position position' : Nat) (c : Char) :
    (b.project.readFirst position' c).project = (b.readFirst position c).project := by
  unfold readFirst
  split
  · rfl
  · exact readItem_project b position position' c

/-- A step of a bracket class does not depend on offsets. -/
theorem Bracket.step_project (b : Bracket) (position position' : Nat) (c : Char) :
    (b.project.step position' c).toOption.map BracketStep.project =
      (b.step position c).toOption.map BracketStep.project := by
  have hfirst := readFirst_project
  have hitem := readItem_project
  obtain ⟨start, isNegated, items, phase⟩ := b
  cases phase with
  | opened =>
    simp only [step, project, BracketPhase.project]
    split
    · rfl
    · exact congrArg some (hfirst ⟨start, isNegated, items, .opened⟩ position position' c)
  | first => exact congrArg some (hfirst ⟨start, isNegated, items, .first⟩ position position' c)
  | item => exact congrArg some (hitem ⟨start, isNegated, items, .item⟩ position position' c)
  | escape escaped =>
    simp only [step, project, BracketPhase.project]
    split <;> rfl
  | lower first lo =>
    simp only [step, project, BracketPhase.project]
    split
    · rfl
    · exact congrArg some
        (hitem (Bracket.push ⟨start, isNegated, items, .lower first lo⟩ (.char lo))
          position position' c)
  | dash first lo =>
    simp only [step, project, BracketPhase.project]
    split
    · rfl
    · split
      · rfl
      · unfold readUpper
        split <;> rfl
  | upperEscape first lo =>
    simp only [step, project, BracketPhase.project, readUpper]
    split <;> rfl

namespace Branches

variable {b : Branches}

@[simp] theorem select_fresh : fresh.select σ = fresh := rfl

theorem select_current : b.current.select σ = (b.select σ).current := by
  unfold current select
  rw [Pattern.select_seqAll, List.map_reverse]

@[simp] theorem select_bar : b.bar.select σ = (b.select σ).bar := by
  unfold bar
  rw [← select_current]
  rfl

@[simp] theorem select_pattern : b.pattern.select σ = (b.select σ).pattern := by
  unfold pattern
  rw [Pattern.select_altAll, List.map_reverse, List.map_cons, select_current]
  rfl

@[simp] theorem select_all : b.select .all = b := by
  obtain ⟨done, items⟩ := b
  simp [select]

end Branches

/-- A step of a counter does not depend on offsets. -/
theorem Counter.step_project (k : Counter) (c : Char) :
    (k.project.step c).project = (k.step c).project := by
  have hphase : k.project.phase = k.phase := rfl
  unfold step
  rw [hphase]
  split
  · rfl
  · rfl
  · rfl
  · split
    · rfl
    · split <;> rfl
  · split <;> rfl

@[simp] theorem OpenGroup.project_project (g : OpenGroup) :
    (g.project σ).project .all = g.project σ := by
  simp [project]

@[simp] theorem OpenGroup.around_project (g : OpenGroup) :
    (g.project σ).around = g.around.select σ := rfl

theorem OpenGroup.select_close (g : OpenGroup) (body : Pattern) :
    (g.close body).select σ = (g.project σ).close (body.select σ) := by
  obtain ⟨start, capture, around⟩ := g
  cases capture with
  | none => rfl
  | some index =>
    have hclose : (OpenGroup.mk start (some index) around).close body = .group index body := rfl
    have hproject : (OpenGroup.mk start (some index) around).project σ =
        ⟨0, σ.number? index, around.select σ⟩ := rfl
    rw [hclose, hproject]
    cases hkeeps : σ.keeps index with
    | true =>
      rw [Pattern.select_group_of_keeps hkeeps, Selection.number?_of_keeps hkeeps]
      rfl
    | false =>
      rw [Pattern.select_group_of_not_keeps hkeeps, Selection.number?_of_not_keeps hkeeps]
      rfl

@[simp] theorem ReaderMode.project_project (mode : ReaderMode) :
    (mode.project σ).project .all = mode.project σ := by
  cases mode <;> simp [project]

/-- Nothing needs more to be complete. -/
def ReaderMode.isComplete : ReaderMode → Bool
  | .item | .atom _ | .counter .. | .repeated .. => true
  | .escape _ | .paren _ | .parenMark _ | .bracket _ => false

theorem ReaderMode.isComplete_project (mode : ReaderMode) :
    (mode.project σ).isComplete = mode.isComplete := by
  cases mode <;> rfl

namespace Reader

variable {r r' : Reader} {limits : Limits} {p : Pattern} {c : Char}

@[simp] theorem project_project (r : Reader) : (r.project σ).project .all = r.project σ := by
  simp [project, Function.comp_def]

@[simp] theorem project_enter (mode : ReaderMode) :
    (r.enter mode).project σ = (r.project σ).enter (mode.project σ) := rfl

@[simp] theorem project_push (item : Pattern) :
    (r.push item).project σ = (r.project σ).push (item.select σ) := rfl

theorem project_openGroup (start : Nat) (capture : Option Nat) :
    (r.openGroup start capture).project σ =
      (r.project σ).openGroup 0 (capture.bind σ.number?) := rfl

theorem project_openCapture_of_keeps (h : σ.keeps r.parents.size = true) (start start' : Nat) :
    (r.openCapture start).project σ = ((r.project σ).openCapture start').project .all := by
  simp [openCapture, openGroup, project, OpenGroup.project, Selection.rank_succ_of_keeps h,
    Selection.number?_of_keeps h, Function.comp_def, ReaderMode.project]

theorem project_openCapture_of_not_keeps (h : σ.keeps r.parents.size = false)
    (start start' : Nat) :
    (r.openCapture start).project σ = ((r.project σ).openGroup start' none).project .all := by
  simp [openCapture, openGroup, project, OpenGroup.project, Selection.rank_succ_of_not_keeps h,
    Selection.number?_of_not_keeps h, Function.comp_def, ReaderMode.project]

theorem project_breakCounter (k : Counter) :
    (r.breakCounter p k).project σ = (r.project σ).breakCounter (p.select σ) k.project := by
  have hpush : (k.earlier.reverse.foldl (fun r c => r.push (.char c)) (r.push p)).project σ =
      k.earlier.reverse.foldl (fun r c => r.push (.char c)) ((r.push p).project σ) :=
    (List.foldl_hom (project σ) fun _ _ => rfl).symm
  unfold breakCounter
  rw [project_enter, hpush]
  rfl

theorem project_settle : r.settle.project σ = (r.project σ).settle := by
  obtain ⟨position, parents, mode, branches, groups⟩ := r
  cases mode with
  | counter p k =>
    show ((Reader.breakCounter _ p k).push (.char k.last)).project σ = _
    rw [project_push, project_breakCounter]
    rfl
  | item | atom | repeated | escape | paren | parenMark | bracket => rfl

/-- What an item begins with is read alike. -/
theorem readItem_project (r : Reader) (c : Char) :
    ((r.project σ).readItem limits c).toOption.map (project .all) =
      (r.readItem limits c).toOption.map (project σ) := by
  have hlength : (r.project σ).groups.length = r.groups.length := List.length_map ..
  unfold readItem
  split
  · rw [hlength]
    split <;> simp [Except.toOption, ReaderMode.project]
  · have hgroups : (r.project σ).groups = r.groups.map (OpenGroup.project σ) := rfl
    rw [hgroups]
    cases r.groups with
    | nil => rfl
    | cons g outer =>
      simp [Except.toOption, project, ReaderMode.project, OpenGroup.select_close,
        Function.comp_def]
  · simp [Except.toOption, project, Function.comp_def]
  all_goals simp [Except.toOption, ReaderMode.project, Bracket.project_opened]

/-- The readers differ in offsets, and in the groups left out, which only the first one numbers. -/
def Alike (σ : Selection) (r r' : Reader) : Prop := r'.project .all = r.project σ

theorem Alike.readItem (h : Alike σ r r') (limits : Limits) (c : Char) :
    (r'.readItem limits c).toOption.map (project .all) =
      (r.readItem limits c).toOption.map (project σ) := by
  rw [← readItem_project r, ← h, readItem_project]

theorem exists_alike_of_toOption {x y : Except ReadFailure Reader}
    (h : y.toOption.map (project .all) = x.toOption.map (project σ)) {s : Reader}
    (hx : x = .ok s) : ∃ s', y = .ok s' ∧ Alike σ s s' := by
  subst hx
  cases y with
  | error failure => cases h
  | ok s' => exact ⟨s', rfl, Option.some.inj h⟩

theorem Alike.readItem_ok (h : Alike σ r r') {s : Reader} (hread : r.readItem limits c = .ok s) :
    ∃ s', r'.readItem limits c = .ok s' ∧ Alike σ s s' :=
  exists_alike_of_toOption (h.readItem limits c) hread

/-- What follows an item is read alike. -/
theorem readMark_project (r : Reader) (p : Pattern) (c : Char) :
    ((r.project σ).readMark limits (p.select σ) c).toOption.map (project .all) =
      (r.readMark limits p c).toOption.map (project σ) := by
  unfold readMark
  split
  · simp [Except.toOption, ReaderMode.project]
  · simp [Except.toOption, ReaderMode.project]
  · simp [Except.toOption, ReaderMode.project]
  · simp [Except.toOption, ReaderMode.project, Counter.project_opened]
  · exact readItem_project (r.push p) c

theorem repeatCounted_project (r : Reader) (p : Pattern) (start start' stop stop' min : Nat)
    (max : Option Nat) :
    ((r.project σ).repeatCounted limits (p.select σ) start' stop' min max).toOption.map
        (project .all) =
      (r.repeatCounted limits p start stop min max).toOption.map (project σ) := by
  unfold repeatCounted
  split
  · rfl
  · split
    · rfl
    · simp [Except.toOption, ReaderMode.project]

/-- The character opens a group that is left out: the one before it is a parenthesis, and it is no
question mark. -/
def erases (σ : Selection) (r : Reader) (c : Char) : Bool :=
  match r.mode with
  | .paren _ => c != '?' && !σ.keeps r.parents.size
  | _ => false

/-- Any character is read alike, unless it opens a group that is left out. -/
theorem take_project (limits : Limits) (h : r.erases σ c = false) :
    ((r.project σ).take limits c).toOption.map (project .all) =
      (r.take limits c).toOption.map (project σ) := by
  unfold take
  have hmode : (r.project σ).mode = r.mode.project σ := rfl
  rw [hmode]
  cases hr : r.mode with
  | item => exact readItem_project r c
  | atom p => exact readMark_project r p c
  | counter p k =>
    have hstep := k.step_project c
    simp only [ReaderMode.project]
    generalize k.project.step c = next' at hstep ⊢
    cases hnext : k.step c with
    | more k' =>
      rw [hnext] at hstep
      cases next' with
      | more k'' =>
        simp only [CounterStep.project, CounterStep.more.injEq] at hstep
        simp [Except.toOption, ReaderMode.project, hstep]
      | complete | broken => cases hstep
    | complete min max =>
      rw [hnext] at hstep
      cases next' with
      | complete =>
        cases hstep
        exact repeatCounted_project ..
      | more | broken => cases hstep
    | broken =>
      rw [hnext] at hstep
      cases next' with
      | broken =>
        have hlast : k.project.last = k.last := rfl
        have hbroken := @project_breakCounter σ r p k
        simp only
        rw [hlast, ← hbroken]
        exact readMark_project (r.breakCounter p k) (.char k.last) c
      | more | complete => cases hstep
  | repeated p min max =>
    simp only [ReaderMode.project]
    split
    · simp [Except.toOption]
    · rw [← project_settle]
      exact readItem_project ..
  | escape start =>
    simp only [ReaderMode.project]
    split <;> simp [Except.toOption, ReaderMode.project]
  | paren start =>
    simp only [ReaderMode.project]
    split
    · simp [Except.toOption, ReaderMode.project]
    next hc =>
      have hkeeps : σ.keeps r.parents.size = true := by
        simpa [erases, hr, hc] using h
      have halike : Alike σ (r.openCapture start) ((r.project σ).openCapture 0) :=
        (project_openCapture_of_keeps hkeeps start 0).symm
      exact halike.readItem limits c
  | parenMark start =>
    simp only [ReaderMode.project]
    split
    · simp [Except.toOption, project_openGroup]
    · rfl
  | bracket b =>
    have hstep := b.step_project r.position 0 c
    have hposition : (r.project σ).position = 0 := rfl
    simp only [ReaderMode.project, hposition]
    cases hnext : b.step r.position c with
    | error failure =>
      rw [hnext] at hstep
      cases hnext' : b.project.step 0 c with
      | error failure' => rfl
      | ok next' =>
        rw [hnext'] at hstep
        cases hstep
    | ok next =>
      rw [hnext] at hstep
      cases hnext' : b.project.step 0 c with
      | error failure' =>
        rw [hnext'] at hstep
        cases hstep
      | ok next' =>
        rw [hnext'] at hstep
        have hproject : next'.project = next.project := Option.some.inj hstep
        cases next <;> cases next' <;>
          simp_all [BracketStep.project, Except.toOption, bind, Except.bind, pure, Except.pure,
            ReaderMode.project]

theorem erases_all (r : Reader) (c : Char) : r.erases .all c = false := by
  unfold erases
  split
  · exact Bool.and_false _
  · rfl

/-- What is read by one reader is read by a reader that is alike. -/
theorem Alike.take (h : Alike σ r r') (hc : r.erases σ c = false) {s : Reader}
    (hread : r.take limits c = .ok s) :
    ∃ s', r'.take limits c = .ok s' ∧ Alike σ s s' := by
  have heq := take_project limits (erases_all r' c)
  rw [h, take_project limits hc] at heq
  exact exists_alike_of_toOption heq.symm hread

theorem step_eq_ok {s : Reader} : r.step limits c = .ok s ↔
    ∃ next, r.take limits c = .ok next ∧ { next with position := next.position + 1 } = s := by
  unfold step
  rw [bind_eq_ok]
  refine exists_congr fun next => and_congr_right fun _ => ?_
  exact ⟨Except.ok.inj, congrArg Except.ok⟩

theorem Alike.step (h : Alike σ r r') (hc : r.erases σ c = false) {s : Reader}
    (hread : r.step limits c = .ok s) :
    ∃ s', r'.step limits c = .ok s' ∧ Alike σ s s' := by
  obtain ⟨next, htake, rfl⟩ := step_eq_ok.1 hread
  obtain ⟨next', htake', halike⟩ := h.take hc htake
  exact ⟨_, step_eq_ok.2 ⟨next', htake', rfl⟩, halike⟩

theorem run_singleton (r : Reader) (c : Char) : r.run limits [c] = r.step limits c := by
  rw [run, List.foldlM_cons]
  exact bind_pure _

/-- The text `?:` behind a parenthesis opens a group that does not capture. -/
theorem run_mark {start : Nat} (hmode : r.mode = .paren start) :
    r.run limits ['?', ':'] = .ok { r.openGroup start none with position := r.position + 2 } := by
  have hfirst : r.step limits '?' =
      .ok { r.enter (.parenMark start) with position := r.position + 1 } := by
    refine step_eq_ok.2 ⟨r.enter (.parenMark start), ?_, rfl⟩
    simp [Reader.take, hmode]
  rw [Reader.run, List.foldlM_cons, hfirst]
  rfl

/-- Where one reader opens a group that is left out, the other one opens a group that does not
capture. -/
theorem Alike.step_erased (h : Alike σ r r') (hc : r.erases σ c = true) {s : Reader}
    (hread : r.step limits c = .ok s) :
    ∃ s', r'.run limits ['?', ':', c] = .ok s' ∧ Alike σ s s' := by
  obtain ⟨next, htake, rfl⟩ := step_eq_ok.1 hread
  unfold erases at hc
  split at hc
  next start hmode =>
    rw [Bool.and_eq_true, bne_iff_ne, Bool.not_eq_true'] at hc
    obtain ⟨hquestion, hkeeps⟩ := hc
    obtain ⟨start', hmode'⟩ : ∃ start', r'.mode = .paren start' := by
      have hproject : r'.mode.project .all = r.mode.project σ := congrArg Reader.mode h
      rw [hmode] at hproject
      cases hmode' : r'.mode with
      | paren start' => exact ⟨start', rfl⟩
      | item | atom | counter | repeated | escape | parenMark | bracket =>
        rw [hmode'] at hproject
        cases hproject
    -- the group is opened in front of the character, in one reader as a capturing one
    have halike : Alike σ (r.openCapture start)
        { r'.openGroup start' none with position := r'.position + 2 } := by
      have hopened : (r'.openGroup start' none).project .all = (r'.project .all).openGroup 0 none :=
        rfl
      rw [h] at hopened
      have hcapture := project_openCapture_of_not_keeps hkeeps start 0
      rw [project_openGroup, project_project] at hcapture
      exact hopened.trans hcapture.symm
    have htake' : (r.openCapture start).readItem limits c = .ok next := by
      rw [← htake]
      simp [Reader.take, hmode, hquestion]
    obtain ⟨next', hitem, hnext⟩ := halike.readItem_ok htake'
    have hmarked : r'.run limits ['?', ':', c] =
        Reader.step limits { r'.openGroup start' none with position := r'.position + 2 } c := by
      have hsplit : ['?', ':', c] = ['?', ':'] ++ [c] := rfl
      rw [hsplit, run_append, run_mark hmode', ← run_singleton]
      rfl
    exact ⟨_, hmarked.trans (step_eq_ok.2 ⟨next', hitem, rfl⟩), hnext⟩
  next => cases hc

/-- The text of a pattern with `?:` behind the parenthesis of every group that is left out. -/
def uncapture (limits : Limits) (σ : Selection) : Reader → List Char → List Char
  | _, [] => []
  | r, c :: text =>
    let rest := match r.step limits c with
      | .ok r' => uncapture limits σ r' text
      | .error _ => text
    if r.erases σ c then '?' :: ':' :: c :: rest else c :: rest

/-- **Texts are read alike.** From readers that are alike the text of a pattern and the text
rewritten lead to readers that are alike. -/
theorem Alike.run (h : Alike σ r r') {text : List Char} {s : Reader}
    (hread : r.run limits text = .ok s) :
    ∃ s', r'.run limits (r.uncapture limits σ text) = .ok s' ∧ Alike σ s s' := by
  induction text generalizing r r' with
  | nil =>
    cases hread
    exact ⟨r', rfl, h⟩
  | cons c text ih =>
    rw [Reader.run, List.foldlM_cons, bind_eq_ok] at hread
    obtain ⟨next, hstep, hrest⟩ := hread
    have huncapture : r.uncapture limits σ (c :: text) =
        (if r.erases σ c then ['?', ':', c] else [c]) ++ next.uncapture limits σ text := by
      rw [uncapture, hstep]
      split <;> rfl
    obtain ⟨next', hfirst, halike⟩ : ∃ next',
        r'.run limits (if r.erases σ c then ['?', ':', c] else [c]) = .ok next' ∧
          Alike σ next next' := by
      cases herases : r.erases σ c with
      | true => exact h.step_erased herases hstep
      | false =>
        obtain ⟨next', hstep', halike⟩ := h.step herases hstep
        refine ⟨next', ?_, halike⟩
        rw [if_neg Bool.false_ne_true, run_singleton, hstep']
    obtain ⟨s', hlast, hs⟩ := ih halike hrest
    refine ⟨s', ?_, hs⟩
    rw [huncapture, run_append, hfirst]
    exact hlast

theorem finish_eq_ok {n : NumberedPattern} : r.finish = .ok n ↔
    r.mode.isComplete = true ∧ r.groups = [] ∧ n = ⟨r.settle.branches.pattern, r.parents⟩ := by
  have hresult : ∀ {result : NumberedPattern},
      Except.ok (ε := ReadFailure) result = .ok n ↔ n = result :=
    ⟨fun heq => (Except.ok.inj heq).symm, fun heq => congrArg _ heq.symm⟩
  unfold finish
  cases hmode : r.mode <;> cases r.groups <;> simp [hresult, ReaderMode.isComplete]

/-- Readers that are alike end with patterns of which one is selected from the other. -/
theorem Alike.finish (h : Alike σ r r') {n : NumberedPattern} (hread : r.finish = .ok n) :
    ∃ n', r'.finish = .ok n' ∧ n'.pattern = n.pattern.select σ ∧
      n'.parents.size = σ.rank n.parents.size := by
  have hmode : r'.mode.project .all = r.mode.project σ := congrArg Reader.mode h
  have hgroups : r'.groups.map (OpenGroup.project .all) = r.groups.map (OpenGroup.project σ) :=
    congrArg Reader.groups h
  have hparents : r'.parents.size = σ.rank r.parents.size := by
    have := congrArg (fun s : Reader => s.parents.size) h
    simpa [project] using this
  have hpattern : r'.settle.branches.pattern = r.settle.branches.pattern.select σ := by
    have hsettle : r'.settle.project .all = r.settle.project σ := by
      rw [project_settle, h, project_settle]
    have hbranches : r'.settle.branches.select .all = r.settle.branches.select σ :=
      congrArg Reader.branches hsettle
    rw [Branches.select_pattern, ← hbranches, Branches.select_all]
  obtain ⟨hcomplete, hclosed, rfl⟩ := finish_eq_ok.1 hread
  rw [hclosed, List.map_nil, List.map_eq_nil_iff] at hgroups
  rw [← ReaderMode.isComplete_project, ← hmode, ReaderMode.isComplete_project] at hcomplete
  exact ⟨_, finish_eq_ok.2 ⟨hcomplete, hgroups, rfl⟩, hpattern, hparents⟩

theorem alike_initial (σ : Selection) : Alike σ initial initial := by
  have hrank : σ.rank 1 = 1 := Selection.rank_succ_of_keeps σ.zero
  simp [Alike, project, initial, hrank, ReaderMode.project]

/-- Where all groups are kept the text stays as it is. -/
theorem uncapture_all (r : Reader) (text : List Char) : r.uncapture limits .all text = text := by
  induction text generalizing r with
  | nil => rfl
  | cons c text ih =>
    rw [uncapture, erases_all]
    cases r.step limits c with
    | error failure => rfl
    | ok next => exact congrArg (c :: ·) (ih next)

/-- Readers that differ in offsets only read a text alike. -/
theorem Alike.run_all (h : Alike .all r r') {text : List Char} {s : Reader}
    (hread : r.run limits text = .ok s) :
    ∃ s', r'.run limits text = .ok s' ∧ Alike .all s s' := by
  obtain ⟨s', hread', halike⟩ := h.run hread
  rw [uncapture_all] at hread'
  exact ⟨s', hread', halike⟩

end Reader

/-- The text of a pattern with `?:` behind the parenthesis of every group that is left out. -/
def Selection.uncapture (σ : Selection) (limits : Limits) (text : String) : String :=
  .ofList (Reader.initial.uncapture limits σ text.toList)

example : (Selection.without [1, 3]).uncapture ⟨250, 1000⟩ "(a)((?:b)|[(])(\\()" =
    "(?:a)((?:b)|[(])(?:\\()" := by cbv

/-- **The text rewritten is read as the selected pattern.** Its groups are as many as are kept. -/
theorem NumberedPattern.read_uncapture {limits : Limits} {text : String} {n : NumberedPattern}
    (h : read limits text = .ok n) (σ : Selection) :
    ∃ n', read limits (σ.uncapture limits text) = .ok n' ∧ n'.pattern = n.pattern.select σ ∧
      n'.parents.size = σ.rank n.parents.size := by
  obtain ⟨r, hrun, hfinish⟩ := read_eq_ok.1 h
  obtain ⟨r', hrun', halike⟩ := (Reader.alike_initial σ).run hrun
  obtain ⟨n', hfinish', hpattern, hparents⟩ := halike.finish hfinish
  refine ⟨n', read_eq_ok.2 ⟨r', ?_, hfinish'⟩, hpattern, hparents⟩
  rw [Selection.uncapture, String.toList_ofList]
  exact hrun'

end Submatch
