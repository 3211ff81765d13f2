import Submatch.Proofs.Dfa.Session
import Submatch.Proofs.Dfa.Steps

/-!
# Every transition is built once

A run takes the steps of its text, and builds those that are missing (`Session.run_holds`). So what
has been built after some texts depends on the set of these texts alone (`Cache.Accounts`), and not
on their order, on how often each is run, or on when the table is packed. `Client.Lazy` says so of
whatever runs texts with a cache, and `Session.lazy_client` proves it of sessions.
-/

namespace Submatch

namespace Session

variable {A : Automaton} {s s' : Session} {before : Nat} {begun : Bool}
  {taken : Finset Machine.Step} {f : Frontier}

/-- Registers and their numbers do not matter for what is held. -/
theorem Holds.of_eq (h : s.Holds A before begun taken) (hcache : s'.cache = s.cache)
    (hbuilt : s'.built = s.built) : s'.Holds A before begun taken := by
  refine ⟨?_, ?_⟩
  · rw [hcache]
    exact h.cache
  · rw [hcache, hbuilt]
    exact h.built

theorem execute_keeps {file file' : RegisterFile} {program : List Instruction} {position : Nat}
    (h : s.execute file program position = .ok (file', s')) :
    s'.cache = s.cache ∧ s'.built = s.built := by
  obtain ⟨⟨file₁, ids⟩, -, hrest⟩ := bind_eq_ok.1 h
  cases hrest
  exact ⟨rfl, rfl⟩

/-- The last accepting place met is in the state of the last accepting frontier met. -/
inductive Marks (states : StateStore) : Option Place → Option Frontier → Prop where
  | none : Marks states none none
  | some {place : Place} {f : Frontier} (state : states.items[place.state]? = some f) :
    Marks states (some place) (some f)

theorem Marks.later {states later : StateStore} {best : Option Place} {last : Option Frontier}
    (h : Marks states best last) (hgrows : states.Extends later) : Marks later best last := by
  cases h with
  | none => exact .none
  | some state => exact .some (hgrows _ _ state)

/-- What has been read is what is walked: its steps have been taken, and the last accepting place
met is the one that the walk comes to. -/
structure Reads (A : Automaton) (before : Nat) (taken : Finset Machine.Step)
    (walked : List Machine.Step × Option Frontier) (best : Option Place) (s : Session) : Prop where
  holds : s.Holds A before true (taken ∪ walked.1.toFinset)
  marks : Marks s.cache.states best walked.2

theorem Reads.of_nothing {best : Option Place} {last : Option Frontier}
    (h : s.Holds A before true taken) (hmarks : Marks s.cache.states best last) :
    Reads A before taken ([], last) best s := by
  refine ⟨?_, hmarks⟩
  rw [List.toFinset_nil, Finset.union_empty]
  exact h

theorem Reads.cons {p : Machine.Step} {walked : List Machine.Step × Option Frontier}
    {best : Option Place} (h : Reads A before (insert p taken) walked best s) :
    Reads A before taken (p :: walked.1, walked.2) best s := by
  refine ⟨?_, h.marks⟩
  rw [List.toFinset_cons, Finset.union_insert, ← Finset.insert_union]
  exact h.holds

/-- Reading on from a place takes the steps of the walk from its frontier. -/
def FollowReads (A : Automaton) (text : List Char) : Prop :=
  ∀ {before : Nat} {taken : Finset Machine.Step} {s s' : Session} {place : Place} {f : Frontier}
    {best best' : Option Place} {last : Option Frontier}, s.Holds A before true taken →
    s.cache.states.items[place.state]? = some f → Marks s.cache.states best last →
    s.follow (.ofAutomaton A) text place best = .ok (best', s') →
    Reads A before taken ((Machine.ofAutomaton A).walk text f last) best' s'

theorem arrive_reads {text : List Char} (ih : FollowReads A text)
    (h : s.Holds A before true taken) {place : Place}
    (hf : s.cache.states.items[place.state]? = some f) {best best' : Option Place}
    {last : Option Frontier} (hmarks : Marks s.cache.states best last)
    (harrive : arrive (.ofAutomaton A) text f.acceptance place best s = .ok (best', s')) :
    Reads A before taken ((Machine.ofAutomaton A).arrive text f last) best' s' := by
  unfold Machine.arrive
  unfold arrive at harrive
  cases hacceptance : f.acceptance with
  | reject =>
    rw [hacceptance] at harrive
    exact ih h hf hmarks harrive
  | candidate =>
    rw [hacceptance] at harrive
    exact ih h hf (.some hf) harrive
  | settled =>
    rw [hacceptance] at harrive
    cases harrive
    exact .of_nothing h (.some hf)

/-- **Reading on takes the steps of the walk**, character by character. -/
theorem follow_reads (hA : A.WellFormed) (text : List Char) : FollowReads A text := by
  induction text with
  | nil =>
    intro before taken s s' place f best best' last h hf hmarks hfollow
    cases hfollow
    exact .of_nothing h hmarks
  | cons c rest ih =>
    intro before taken s s' place f best best' last h hf hmarks hfollow
    unfold follow at hfollow
    cases hclass : (Machine.ofAutomaton A).alphabet.classify c.toNat with
    | none =>
      rw [hclass] at hfollow
      cases hfollow
      rw [Machine.walk_of_unread hclass]
      exact .of_nothing h hmarks
    | some index =>
      rw [hclass] at hfollow
      obtain ⟨⟨t, s₁⟩, hstep, hrest⟩ := bind_eq_ok.1 hfollow
      obtain ⟨h₁, hbuild⟩ := step_holds hA h hf hstep
      have hconsistent := h.cache.valid.consistent
      have hmarks₁ := hmarks.later (StateStore.stable_expand hconsistent hbuild).grows
      have hleads := (StateStore.arrives_letter hconsistent hf hbuild).leads
      cases hnext : (Machine.ofAutomaton A).next? (f, .letter index) with
      | none =>
        rw [hnext] at hleads
        simp only [hleads] at hrest
        cases hrest
        rw [Machine.walk_of_dead hclass hnext]
        exact .cons (.of_nothing h₁ hmarks₁)
      | some g =>
        rw [hnext] at hleads
        obtain ⟨id, htarget, hitem⟩ := hleads
        simp only [htarget] at hrest
        obtain ⟨⟨file, s₂⟩, hexecute, harrive⟩ := bind_eq_ok.1 hrest
        obtain ⟨hcache, hbuilt⟩ := execute_keeps hexecute
        rw [Machine.walk_of_reach hclass hnext]
        rw [← hcache] at hitem hmarks₁
        have hplace : s₂.cache.states.items[Place.state ⟨id, file, place.position + 1⟩]? =
          some g := hitem
        exact .cons (arrive_reads ih (h₁.of_eq hcache hbuilt) hplace hmarks₁ harrive)

/-- **A search takes the steps of its text** on characters. -/
theorem search_reads (hA : A.WellFormed) (h : s.Holds A before begun taken) {text : List Char}
    {best : Option Place} (hsearch : s.search (.ofAutomaton A) text = .ok (best, s')) :
    Reads A before taken ((Machine.ofAutomaton A).search text) best s' := by
  obtain ⟨⟨t, s₁⟩, hstart, hrest⟩ := bind_eq_ok.1 hsearch
  obtain ⟨h₁, harrives⟩ := start_holds hA h hstart
  have hleads := harrives.leads
  unfold Machine.search
  cases hfirst : (Machine.ofAutomaton A).first? with
  | none =>
    rw [hfirst] at hleads
    simp only [hleads] at hrest
    cases hrest
    exact .of_nothing h₁ .none
  | some f =>
    rw [hfirst] at hleads
    obtain ⟨id, htarget, hitem⟩ := hleads
    simp only [htarget] at hrest
    obtain ⟨⟨file, s₂⟩, hexecute, harrive⟩ := bind_eq_ok.1 hrest
    obtain ⟨hcache, hbuilt⟩ := execute_keeps hexecute
    have hplace : s₂.cache.states.items[Place.state ⟨id, file, 0⟩]? = some f := by
      rw [hcache]
      exact hitem
    exact arrive_reads (follow_reads hA text) (h₁.of_eq hcache hbuilt) hplace .none harrive

/-- The end of the text is a step as well. -/
theorem accept_holds (hA : A.WellFormed) (h : s.Holds A before begun taken) {place : Place}
    (hf : s.cache.states.items[place.state]? = some f) {outcome : Option RegisterFile}
    (haccept : s.accept (.ofAutomaton A) place = .ok (outcome, s')) :
    s'.Holds A before begun (insert (f, .ending) taken) := by
  obtain ⟨⟨t, s₁⟩, hstep, hrest⟩ := bind_eq_ok.1 haccept
  obtain ⟨h₁, -⟩ := step_holds hA h hf hstep
  cases htarget : t.target with
  | dead =>
    simp only [htarget] at hrest
    cases hrest
    exact h₁
  | state id acceptance =>
    simp only [htarget] at hrest
    obtain ⟨⟨file, s₂⟩, hexecute, hlast⟩ := bind_eq_ok.1 hrest
    obtain ⟨hcache, hbuilt⟩ := execute_keeps hexecute
    cases hlast
    exact h₁.of_eq hcache hbuilt

/-- **A run takes the steps of its text**, and no others. -/
theorem run_holds (hA : A.WellFormed) (h : s.Holds A before begun taken) {text : List Char}
    {outcome : Option RegisterFile} (hrun : s.run (.ofAutomaton A) text = .ok (outcome, s')) :
    s'.Holds A before true (taken ∪ ((Machine.ofAutomaton A).steps text).toFinset) := by
  obtain ⟨⟨best, s₁⟩, hsearch, hrest⟩ := bind_eq_ok.1 hrun
  obtain ⟨hholds, hmarks⟩ := search_reads hA h hsearch
  unfold Machine.steps
  generalize (Machine.ofAutomaton A).search text = walked at hholds hmarks ⊢
  obtain ⟨letters, last⟩ := walked
  cases hmarks with
  | none =>
    cases hrest
    rw [Option.toList_none, List.map_nil, List.append_nil]
    exact hholds
  | @some place f hf =>
    have haccept := accept_holds hA hholds hf hrest
    rw [Option.toList_some, List.map_singleton, List.toFinset_append, List.toFinset_cons,
      List.toFinset_nil, insert_empty_eq, ← Finset.union_assoc, Finset.union_comm _ {_}]
    exact haccept

end Session

/-- The cache holds the steps of some texts, and as many transitions have been built as it holds. -/
structure Cache.Accounts (A : Automaton) (c : Cache) (built : Nat) (texts : List (List Char)) :
    Prop where
  holds : c.Holds A (!texts.isEmpty) ((Machine.ofAutomaton A).stepsOf texts)
  built : built = c.table.size + (!texts.isEmpty).toNat

namespace Cache.Accounts

variable {A : Automaton} {c c' : Cache} {built built' : Nat} {texts texts' : List (List Char)}

theorem empty (A : Automaton) : Cache.empty.Accounts A 0 [] :=
  ⟨Cache.holds_empty A, rfl⟩

theorem pack (h : c.Accounts A built texts) : c.pack.Accounts A built texts := by
  have hsize : c.pack.table.size = c.table.size := TransitionTable.size_pack h.holds.valid.table
  exact ⟨h.holds.pack, by rw [hsize]; exact h.built⟩

/-- **A run adds its text to the account.** -/
theorem run (hA : A.WellFormed) {s s' : Session} {before : Nat}
    (h : s.cache.Accounts A (s.built + before) texts) {text : List Char}
    {outcome : Option RegisterFile} (hrun : s.run (.ofAutomaton A) text = .ok (outcome, s')) :
    s'.cache.Accounts A (s'.built + before) (texts ++ [text]) := by
  obtain ⟨hholds, hbuilt⟩ := Session.run_holds hA ⟨h.holds, h.built⟩ hrun
  have hbegun : (!(texts ++ [text]).isEmpty) = true := by simp
  refine ⟨?_, ?_⟩
  · rw [hbegun, Machine.stepsOf_append, Machine.stepsOf_singleton]
    exact hholds
  · rw [hbegun]
    exact hbuilt

theorem built_eq (h : c.Accounts A built texts) :
    built = ((Machine.ofAutomaton A).stepsOf texts).card + (!texts.isEmpty).toNat := by
  rw [h.built, h.holds.size]

/-- What a run adds is what has been missing. -/
theorem built_append (h : c.Accounts A built texts) {text : List Char}
    (h' : c'.Accounts A built' (texts ++ [text])) :
    built' = built + (((Machine.ofAutomaton A).steps text).toFinset \
      (Machine.ofAutomaton A).stepsOf texts).card + texts.isEmpty.toNat := by
  have hcard := Finset.card_sdiff_add_card ((Machine.ofAutomaton A).steps text).toFinset
    ((Machine.ofAutomaton A).stepsOf texts)
  have hbegun : (!(texts ++ [text]).isEmpty).toNat = 1 := by simp
  have hfirst : (!texts.isEmpty).toNat + texts.isEmpty.toNat = 1 := by
    cases texts.isEmpty <;> rfl
  rw [h'.built_eq, h.built_eq, Machine.stepsOf_append, Machine.stepsOf_singleton,
    Finset.union_comm, hbegun]
  omega

theorem size_states (h : c.Accounts A built texts) :
    c.states.size = ((Machine.ofAutomaton A).statesOf texts).card := by
  have hstates : c.states.items.toList.toFinset = (Machine.ofAutomaton A).statesOf texts := by
    ext f
    rw [List.mem_toFinset, Array.mem_toList_iff, h.holds.reached, Machine.mem_statesOf]
    simp
  rw [← hstates, List.toFinset_card_of_nodup h.holds.valid.consistent.nodup, Array.length_toList]
  rfl

/-- What has been built depends on the set of the texts alone. -/
theorem eq_of_subset (h : c.Accounts A built texts) (h' : c'.Accounts A built' texts')
    (hsub : texts ⊆ texts') (hsub' : texts' ⊆ texts) :
    built = built' ∧ c.states.size = c'.states.size := by
  have hsteps : (Machine.ofAutomaton A).stepsOf texts = (Machine.ofAutomaton A).stepsOf texts' :=
    (Machine.stepsOf_subset hsub).antisymm (Machine.stepsOf_subset hsub')
  have hstates : (Machine.ofAutomaton A).statesOf texts =
      (Machine.ofAutomaton A).statesOf texts' :=
    (Machine.statesOf_subset hsub).antisymm (Machine.statesOf_subset hsub')
  have hempty : texts.isEmpty = texts'.isEmpty := by
    rw [Bool.eq_iff_iff, List.isEmpty_iff, List.isEmpty_iff]
    exact ⟨fun hnil => List.subset_nil.1 (hnil ▸ hsub'),
      fun hnil => List.subset_nil.1 (hnil ▸ hsub)⟩
  refine ⟨?_, ?_⟩
  · rw [h.built_eq, h'.built_eq, hsteps, hempty]
  · rw [h.size_states, h'.size_states, hstates]

/-- More texts need no fewer states. -/
theorem size_states_le (h : c.Accounts A built texts) (h' : c'.Accounts A built' texts')
    (hsub : texts ⊆ texts') : c.states.size ≤ c'.states.size := by
  rw [h.size_states, h'.size_states]
  exact Finset.card_le_card (Machine.statesOf_subset hsub)

end Cache.Accounts

/-- A client of a cache: what it may do, the text that is run when it does so, its cache, and the
number of transitions that it has built. -/
structure Client (σ δ : Type) where
  /-- Do something. -/
  act : σ → δ → Except Fault σ
  /-- The text that is run, if there is one. -/
  text? : δ → Option (List Char)
  /-- What has been built. -/
  cache : σ → Cache
  /-- The number of transitions built. -/
  built : σ → Nat

namespace Client

variable {σ δ : Type} {C : Client σ δ} {A : Automaton} {M : Machine} {initial s s' : σ}

/-- The texts that are run. -/
def texts (C : Client σ δ) (deeds : List δ) : List (List Char) := deeds.filterMap C.text?

/-- The number of states that the client has met. -/
def stateCount (C : Client σ δ) (s : σ) : Nat := (C.cache s).states.size

/-- What it means that a client builds what its texts need, when they need it, and only then. -/
structure Lazy (C : Client σ δ) (M : Machine) (initial : σ) : Prop where
  /-- Whatever is done succeeds. -/
  succeeds : ∀ deeds : List δ, ∃ s, deeds.foldlM C.act initial = .ok s
  /-- Transitions have been built from a state on a symbol exactly if some text has taken this
  step. -/
  taken : ∀ (deeds : List δ) (s : σ), deeds.foldlM C.act initial = .ok s →
    ∀ id symbol, ((C.cache s).table.lookup ⟨id, symbol⟩).isSome = true ↔
      ∃ f, (C.cache s).states.items[id]? = some f ∧ (f, symbol) ∈ M.stepsOf (C.texts deeds)
  /-- Each of them has been built once, and so has the start. -/
  once : ∀ (deeds : List δ) (s : σ), deeds.foldlM C.act initial = .ok s → C.texts deeds ≠ [] →
    C.built s = 1 + (M.stepsOf (C.texts deeds)).card ∧ C.built s = (C.cache s).table.size + 1
  /-- A run builds the steps of its text that no text before has taken, and the start if it is the
  first one. -/
  adds : ∀ (deeds : List δ) (s : σ), deeds.foldlM C.act initial = .ok s →
    ∀ (d : δ) (text : List Char) (s' : σ), C.text? d = some text → C.act s d = .ok s' →
      C.built s' = C.built s + ((M.steps text).toFinset \ M.stepsOf (C.texts deeds)).card +
        (C.texts deeds).isEmpty.toNat
  /-- A text that has been run before needs nothing new. -/
  again : ∀ (deeds : List δ) (s : σ), deeds.foldlM C.act initial = .ok s →
    ∀ (d : δ) (text : List Char), text ∈ C.texts deeds → C.text? d = some text →
      ∃ s', C.act s d = .ok s' ∧ C.built s' = C.built s ∧ C.stateCount s' = C.stateCount s
  /-- States are never lost. -/
  grows : ∀ (deeds : List δ) (s : σ), deeds.foldlM C.act initial = .ok s →
    ∀ (d : δ) (s' : σ), C.act s d = .ok s' → C.stateCount s ≤ C.stateCount s'
  /-- The order of the texts, and how often each is run, do not matter. -/
  order : ∀ (deeds deeds' : List δ) (s s' : σ), deeds.foldlM C.act initial = .ok s →
    deeds'.foldlM C.act initial = .ok s' →
    (∀ text, text ∈ C.texts deeds ↔ text ∈ C.texts deeds') →
      C.built s = C.built s' ∧ C.stateCount s = C.stateCount s'

variable {Inv : σ → Prop} {texts : List (List Char)}

/-- The cache of the client accounts for some texts. -/
abbrev Accounts (C : Client σ δ) (A : Automaton) (s : σ) (texts : List (List Char)) : Prop :=
  (C.cache s).Accounts A (C.built s) texts

/-- Each deed succeeds, and adds to the account the text that is run. -/
def Keeps (C : Client σ δ) (A : Automaton) (Inv : σ → Prop) : Prop :=
  ∀ (s : σ) (d : δ) (texts : List (List Char)), Inv s → C.Accounts A s texts →
    ∃ s', C.act s d = .ok s' ∧ Inv s' ∧ C.Accounts A s' (texts ++ (C.text? d).toList)

theorem Keeps.replay (hkeeps : C.Keeps A Inv) (deeds : List δ) (hinv : Inv s)
    (h : C.Accounts A s texts) :
    ∃ s', deeds.foldlM C.act s = .ok s' ∧ Inv s' ∧ C.Accounts A s' (texts ++ C.texts deeds) := by
  induction deeds generalizing s texts with
  | nil => exact ⟨s, rfl, hinv, by rwa [Client.texts, List.filterMap_nil, List.append_nil]⟩
  | cons d rest ih =>
    obtain ⟨s₁, hact, hinv₁, h₁⟩ := hkeeps s d texts hinv h
    obtain ⟨s₂, hrest, hinv₂, h₂⟩ := ih hinv₁ h₁
    refine ⟨s₂, ?_, hinv₂, ?_⟩
    · rw [List.foldlM_cons]
      exact bind_eq_ok.2 ⟨s₁, hact, hrest⟩
    · have htexts : C.texts (d :: rest) = (C.text? d).toList ++ C.texts rest := by
        unfold Client.texts
        cases htext : C.text? d <;> simp [htext]
      rw [htexts, ← List.append_assoc]
      exact h₂

theorem Keeps.of_act (hkeeps : C.Keeps A Inv) (hinv : Inv s) (h : C.Accounts A s texts) {d : δ}
    (hact : C.act s d = .ok s') : C.Accounts A s' (texts ++ (C.text? d).toList) := by
  obtain ⟨s'', hact', -, h'⟩ := hkeeps s d texts hinv h
  obtain rfl := Except.ok.inj (hact'.symm.trans hact)
  exact h'

theorem Keeps.of_replay (hkeeps : C.Keeps A Inv) (hinv : Inv initial)
    (h : C.Accounts A initial []) {deeds : List δ} (hs : deeds.foldlM C.act initial = .ok s) :
    Inv s ∧ C.Accounts A s (C.texts deeds) := by
  obtain ⟨s', hs', hkept⟩ := hkeeps.replay deeds hinv h
  obtain rfl := Except.ok.inj (hs'.symm.trans hs)
  exact hkept

/-- **A client that accounts for the texts run is lazy.** -/
theorem Keeps.lazy (hkeeps : C.Keeps A Inv) (hinit : Inv initial) (h : C.Accounts A initial []) :
    C.Lazy (.ofAutomaton A) initial where
  succeeds := by
    intro deeds
    obtain ⟨s, hs, -⟩ := hkeeps.replay deeds hinit h
    exact ⟨s, hs⟩
  taken := by
    intro deeds s hs
    obtain ⟨-, haccounts⟩ := hkeeps.of_replay hinit h hs
    exact haccounts.holds.steps
  once := by
    intro deeds s hs hne
    obtain ⟨-, haccounts⟩ := hkeeps.of_replay hinit h hs
    have hbegun : (!(C.texts deeds).isEmpty).toNat = 1 := by simpa using hne
    rw [haccounts.built, hbegun, haccounts.holds.size, Nat.add_comm]
    exact ⟨rfl, rfl⟩
  adds := by
    intro deeds s hs d text s' hd hact
    obtain ⟨hinv, haccounts⟩ := hkeeps.of_replay hinit h hs
    have haccounts' := hkeeps.of_act hinv haccounts hact
    rw [hd] at haccounts'
    exact haccounts.built_append haccounts'
  again := by
    intro deeds s hs d text htext hd
    obtain ⟨hinv, haccounts⟩ := hkeeps.of_replay hinit h hs
    obtain ⟨s', hact, -, haccounts'⟩ := hkeeps s d _ hinv haccounts
    rw [hd] at haccounts'
    have hsub : C.texts deeds ++ [text] ⊆ C.texts deeds :=
      List.append_subset.2 ⟨List.Subset.refl _, List.cons_subset.2 ⟨htext, List.nil_subset _⟩⟩
    exact ⟨s', hact, haccounts'.eq_of_subset haccounts hsub (List.subset_append_left ..)⟩
  grows := by
    intro deeds s hs d s' hact
    obtain ⟨hinv, haccounts⟩ := hkeeps.of_replay hinit h hs
    have haccounts' := hkeeps.of_act hinv haccounts hact
    exact haccounts.size_states_le haccounts' (List.subset_append_left ..)
  order := by
    intro deeds deeds' s s' hs hs' hsame
    obtain ⟨-, haccounts⟩ := hkeeps.of_replay hinit h hs
    obtain ⟨-, haccounts'⟩ := hkeeps.of_replay hinit h hs'
    exact haccounts.eq_of_subset haccounts' (fun text => (hsame text).1)
      (fun text => (hsame text).2)

end Client

namespace Session

/-- The text that is run. -/
def Deed.text? : Deed → Option (List Char)
  | run text => some text
  | pack => none

/-- A session, in which texts are run and the table is packed. -/
def client (M : Machine) : Client Session Deed := ⟨perform M, Deed.text?, cache, built⟩

theorem keeps_client (hA : A.WellFormed) : (client (.ofAutomaton A)).Keeps A fun _ => True := by
  intro s d texts _ h
  cases d with
  | pack =>
    refine ⟨{ s with cache := s.cache.pack }, rfl, trivial, ?_⟩
    rw [show (client (.ofAutomaton A)).text? .pack = none from rfl, Option.toList_none,
      List.append_nil]
    exact h.pack
  | run text =>
    obtain ⟨outcome, s', hrun, -⟩ := run_reports hA h.holds.valid text
    have hbegin : s.cache.Accounts A (s.built + 0) texts := h
    exact ⟨s', bind_eq_ok.2 ⟨_, hrun, rfl⟩, trivial, hbegin.run hA hrun⟩

/-- **A session is lazy.** -/
theorem lazy_client (hA : A.WellFormed) : (client (.ofAutomaton A)).Lazy (.ofAutomaton A) fresh :=
  (keeps_client hA).lazy trivial (.empty A)

end Session

end Submatch
