import Mathlib
import Submatch.Proofs.Dfa.Session

/-!
# A transition table is a finite map

A table is used by a list of calls: transitions are added, looked up, and packed. As long as
transitions are added only at keys that have none (`TransitionTable.Orderly`), every call is
answered as a finite map would answer it (`TransitionTable.Represents.run`), and what the table
consists of follows from the transitions that have been added (`TransitionTable.Holds`). A session
adds transitions in no other way (`Session.calls_step`, `Session.leadsTo_table`).
-/

namespace Submatch

/-- Classes come in the order of their index, and the end of the text comes after them. -/
def InputSymbol.Before : InputSymbol → InputSymbol → Prop
  | letter i, letter j => i < j
  | letter _, ending => True
  | ending, _ => False

/-- Keys come in the order of their states, and those of one state in the order of their
symbols. -/
def StepKey.Before (a b : StepKey) : Prop :=
  a.state < b.state ∨ a.state = b.state ∧ a.symbol.Before b.symbol

theorem InputSymbol.before_iff {a b : InputSymbol} : a.Before b ↔ a.le b = true ∧ a ≠ b := by
  cases a <;> cases b <;> simp [Before, le, Nat.lt_iff_le_and_ne]

theorem StepKey.before_iff {a b : StepKey} : a.Before b ↔ a.le b = true ∧ a ≠ b := by
  obtain ⟨s, x⟩ := a
  obtain ⟨t, y⟩ := b
  simp only [Before, le, InputSymbol.before_iff, Bool.or_eq_true, Bool.and_eq_true,
    decide_eq_true_eq, beq_iff_eq, ne_eq, StepKey.mk.injEq, not_and]
  constructor
  · rintro (hlt | ⟨rfl, hle, hne⟩)
    · exact ⟨.inl hlt, fun heq => by omega⟩
    · exact ⟨.inr ⟨rfl, hle⟩, fun _ => hne⟩
  · rintro ⟨hlt | ⟨rfl, hle⟩, hne⟩
    · exact .inl hlt
    · exact .inr ⟨rfl, hle, hne rfl⟩

/-- A finite map from keys to transitions. -/
abbrev TransitionMap (τ : Type) := Finmap fun _ : StepKey => τ

/-- A call of a table. -/
inductive TableCall (τ : Type) where
  /-- Add a transition. -/
  | insert (key : StepKey) (transition : τ)
  /-- Ask for the transition with a key. -/
  | lookup (key : StepKey)
  /-- Pack the table. -/
  | pack

variable {τ : Type}

/-- The key at which a call adds a transition. -/
def TableCall.newKey? : TableCall τ → Option StepKey
  | insert key _ => some key
  | lookup _ => none
  | pack => none

/-- A finite map answers a call. Packing is nothing to it. -/
def TransitionMap.call : TableCall τ → StateM (TransitionMap τ) (Option τ)
  | .insert key transition => do
    modify (Finmap.insert key transition)
    return none
  | .lookup key => return (← get).lookup key
  | .pack => return none

namespace TransitionTable

/-- A table answers a call. -/
def call : TableCall τ → StateM (TransitionTable τ) (Option τ)
  | .insert key transition => do
    modify (insert · key transition)
    return none
  | .lookup key => return (← get).lookup key
  | .pack => do
    modify pack
    return none

/-- A transition is added only where the table has none. -/
def Allows (t : TransitionTable τ) : TableCall τ → Prop
  | .insert key _ => t.lookup key = none
  | .lookup _ => True
  | .pack => True

/-- Every call of a list is allowed when it comes. -/
def Orderly (t : TransitionTable τ) : List (TableCall τ) → Prop
  | [] => True
  | c :: calls => t.Allows c ∧ ((call c).run t).2.Orderly calls

/-- The table after a list of calls. -/
def after (t : TransitionTable τ) (calls : List (TableCall τ)) : TransitionTable τ :=
  ((calls.mapM call).run t).2

/-- The answers to a list of calls. -/
def answers (t : TransitionTable τ) (calls : List (TableCall τ)) : List (Option τ) :=
  ((calls.mapM call).run t).1

variable {t t' : TransitionTable τ} {m : TransitionMap τ} {c : TableCall τ}
  {calls : List (TableCall τ)} {key : StepKey} {v : τ}

theorem after_cons : t.after (c :: calls) = ((call c).run t).2.after calls := by
  unfold after
  rw [List.mapM_cons]
  rfl

theorem after_append {calls' : List (TableCall τ)} :
    t.after (calls ++ calls') = (t.after calls).after calls' := by
  unfold after
  rw [List.mapM_append]
  rfl

theorem orderly_append {calls' : List (TableCall τ)} :
    t.Orderly (calls ++ calls') ↔ t.Orderly calls ∧ (t.after calls).Orderly calls' := by
  induction calls generalizing t with
  | nil => exact (and_iff_right trivial).symm
  | cons c calls ih =>
    rw [List.cons_append, Orderly, Orderly, ih, after_cons, and_assoc]

/-! ### One call -/

theorem Valid.call (h : t.Valid) (hc : t.Allows c) : ((call c).run t).2.Valid := by
  cases c with
  | insert key transition => exact h.insert hc transition
  | lookup key => exact h
  | pack => exact h.pack

/-- What a call adds to the transitions that are found. -/
theorem lookup_call (h : t.Valid) (hc : t.Allows c) :
    ((call c).run t).2.lookup key = some v ↔ t.lookup key = some v ∨ c = .insert key v := by
  cases c with
  | insert k w =>
    have hcall : ((call (.insert k w)).run t).2 = t.insert k w := rfl
    rw [hcall, lookup_insert hc, TableCall.insert.injEq]
    by_cases hk : key = k
    · -- the table has found nothing there so far
      subst hk
      rw [if_pos rfl, Option.some_inj, show t.lookup key = none from hc]
      simp
    · rw [if_neg hk, or_iff_left fun heq => hk heq.1.symm]
  | lookup k => exact (or_iff_left nofun).symm
  | pack =>
    have hcall : ((call .pack).run t).2 = t.pack := rfl
    rw [hcall, lookup_pack h, or_iff_left nofun]

/-! ### A list of calls -/

/-- After a list of calls the transitions are found that were there and those that were added. -/
theorem lookup_after (h : t.Valid) (hcalls : t.Orderly calls) :
    (t.after calls).lookup key = some v ↔ t.lookup key = some v ∨ .insert key v ∈ calls := by
  induction calls generalizing t with
  | nil => exact (or_iff_left List.not_mem_nil).symm
  | cons c calls ih =>
    rw [after_cons, ih (h.call hcalls.1) hcalls.2, lookup_call h hcalls.1, List.mem_cons,
      eq_comm (a := c), or_assoc]

/-- A table stands for a finite map. -/
structure Represents (t : TransitionTable τ) (m : TransitionMap τ) : Prop where
  valid : t.Valid
  lookup : ∀ key, t.lookup key = m.lookup key
  size : t.size = m.keys.card

theorem represents_empty : (empty : TransitionTable τ).Represents ∅ where
  valid := valid_empty
  lookup := fun key => by rw [lookup_empty, Finmap.lookup_empty]
  size := by rw [Finmap.keys_empty, Finset.card_empty]; exact Nat.zero_add 0

/-- **A call that is allowed is answered as the map answers it**, and the table stands for the map
afterwards. -/
theorem Represents.call (h : t.Represents m) (hc : t.Allows c) :
    ((call c).run t).1 = ((TransitionMap.call c).run m).1 ∧
      ((call c).run t).2.Represents ((TransitionMap.call c).run m).2 := by
  have hvalid := h.valid.call hc
  cases c with
  | insert key transition =>
    refine ⟨rfl, hvalid, fun k => ?_, ?_⟩
    · have hcall : ((TransitionTable.call (.insert key transition)).run t).2 =
          t.insert key transition := rfl
      have hmap : ((TransitionMap.call (.insert key transition)).run m).2 =
          m.insert key transition := rfl
      rw [hcall, hmap, lookup_insert hc]
      by_cases hk : k = key
      · subst hk
        rw [if_pos rfl, Finmap.lookup_insert]
      · rw [if_neg hk, Finmap.lookup_insert_of_ne m hk, h.lookup]
    · have hnew : key ∉ m.keys := by
        rw [Finmap.mem_keys, ← Finmap.lookup_eq_none, ← h.lookup]
        exact hc
      have hkeys : (Finmap.insert key transition m).keys = Insert.insert key m.keys := by
        ext k
        rw [Finmap.mem_keys, Finmap.mem_insert, Finset.mem_insert, Finmap.mem_keys]
      have hsize : (t.insert key transition).size =
          (Finmap.insert key transition m).keys.card := by
        rw [size_insert hc, h.size, hkeys, Finset.card_insert_of_notMem hnew]
      exact hsize
  | lookup key => exact ⟨h.lookup key, h⟩
  | pack =>
    refine ⟨rfl, hvalid, fun k => ?_, ?_⟩
    · exact (lookup_pack h.valid k).trans (h.lookup k)
    · exact (size_pack h.valid).trans h.size

/-- **A table answers a list of calls as a finite map does.** -/
theorem Represents.run (h : t.Represents m) (hcalls : t.Orderly calls) :
    t.answers calls = ((calls.mapM TransitionMap.call).run m).1 ∧
      (t.after calls).Represents ((calls.mapM TransitionMap.call).run m).2 := by
  induction calls generalizing t m with
  | nil => exact ⟨rfl, h⟩
  | cons c calls ih =>
    obtain ⟨hanswer, hnext⟩ := h.call hcalls.1
    obtain ⟨hanswers, hlast⟩ := ih hnext hcalls.2
    refine ⟨?_, ?_⟩
    · unfold answers at hanswers ⊢
      rw [List.mapM_cons, List.mapM_cons]
      exact congrArg₂ List.cons hanswer hanswers
    · rw [after_cons, List.mapM_cons]
      exact hlast

/-! ### What a table consists of -/

/-- Packing leaves nothing in the hash map. -/
theorem isEmpty_recent_pack (t : TransitionTable τ) : t.pack.recent.isEmpty = true := by
  unfold pack
  split
  next h => exact h
  next => exact Std.HashMap.isEmpty_empty

theorem isPacked_pack (t : TransitionTable τ) : t.pack.isPacked = true :=
  t.isEmpty_recent_pack

theorem pack_pack (t : TransitionTable τ) : t.pack.pack = t.pack :=
  if_pos t.isPacked_pack

/-- What a table consists of when transitions have been added by a list of calls: exactly these are
found, and each is kept once. Packing moves all of them into the array, and changes no answer. -/
structure Holds (t : TransitionTable τ) (calls : List (TableCall τ)) : Prop where
  found : ∀ key v, t.lookup key = some v ↔ .insert key v ∈ calls
  missing : ∀ key, t.lookup key = none ↔ ∀ v, .insert key v ∉ calls
  ascending : t.packed.toList.Pairwise fun a b => a.1.Before b.1
  apart : ∀ entry ∈ t.packed.toList, entry.1 ∉ t.recent
  size : t.size = (calls.filterMap TableCall.newKey?).toFinset.card
  unchanged : ∀ key, t.pack.lookup key = t.lookup key
  emptied : t.pack.recent.isEmpty = true
  moved : ∀ key v, (key, v) ∈ t.pack.packed.toList ↔ .insert key v ∈ calls
  isPacked : t.pack.isPacked = true
  again : t.pack.pack = t.pack

theorem mem_newKeys : key ∈ calls.filterMap TableCall.newKey? ↔ ∃ v, .insert key v ∈ calls := by
  rw [List.mem_filterMap]
  constructor
  · rintro ⟨c, hc, hkey⟩
    cases c with
    | insert k v =>
      obtain rfl := Option.some.inj hkey
      exact ⟨v, hc⟩
    | lookup k => cases hkey
    | pack => cases hkey
  · rintro ⟨v, hv⟩
    exact ⟨_, hv, rfl⟩

/-- A table that stands for a map answers for the keys of the map. -/
theorem Represents.mem_keys (h : t.Represents m) : key ∈ m.keys ↔ ∃ v, t.lookup key = some v := by
  rw [Finmap.mem_keys, ← Finmap.lookup_isSome, ← h.lookup, Option.isSome_iff_exists]

theorem Represents.holds (h : t.Represents m)
    (hfound : ∀ key v, t.lookup key = some v ↔ .insert key v ∈ calls) : t.Holds calls where
  found := hfound
  missing := fun key => by
    rw [Option.eq_none_iff_forall_ne_some]
    exact forall_congr' fun v => not_congr (hfound key v)
  ascending := h.valid.sorted.imp StepKey.before_iff.2
  apart := h.valid.apart
  size := by
    have hkeys : m.keys = (calls.filterMap TableCall.newKey?).toFinset := by
      ext key
      rw [h.mem_keys, List.mem_toFinset, mem_newKeys]
      exact exists_congr (hfound key)
    rw [h.size, hkeys]
  unchanged := lookup_pack h.valid
  emptied := isEmpty_recent_pack t
  moved := fun key v => (mem_packed_pack h.valid).trans (hfound key v)
  isPacked := isPacked_pack t
  again := pack_pack t

/-! ### Tables of sessions -/

/-- A table becomes another by calls that are in order. -/
def LeadsTo (t t' : TransitionTable τ) : Prop :=
  ∃ calls, t.Orderly calls ∧ t.after calls = t'

theorem LeadsTo.refl (t : TransitionTable τ) : t.LeadsTo t := ⟨[], trivial, rfl⟩

theorem LeadsTo.trans {t'' : TransitionTable τ} (h : t.LeadsTo t') (h' : t'.LeadsTo t'') :
    t.LeadsTo t'' := by
  obtain ⟨calls, hcalls, rfl⟩ := h
  obtain ⟨calls', hcalls', rfl⟩ := h'
  exact ⟨calls ++ calls', orderly_append.2 ⟨hcalls, hcalls'⟩, after_append⟩

theorem leadsTo_pack (t : TransitionTable τ) : t.LeadsTo t.pack :=
  ⟨[.pack], ⟨trivial, trivial⟩, rfl⟩

end TransitionTable

namespace Session

open TransitionTable

variable {M : Machine} {s s' : Session} {state position : Nat} {symbol : InputSymbol}
  {transition : Transition} {file : RegisterFile} {program : List Instruction}

/-- **A step adds a transition only where it has found none.** -/
theorem calls_step (h : s.step M state symbol = .ok (transition, s')) :
    ∃ calls : List (TableCall Transition),
      (calls = [.lookup ⟨state, symbol⟩] ∨
        calls = [.lookup ⟨state, symbol⟩, .insert ⟨state, symbol⟩ transition]) ∧
      s.cache.table.Orderly calls ∧ s.cache.table.after calls = s'.cache.table := by
  unfold step at h
  split at h
  next found hfound =>
    cases h
    exact ⟨_, .inl rfl, ⟨trivial, trivial⟩, rfl⟩
  next hmissing =>
    obtain ⟨⟨built, states⟩, -, hs'⟩ := bind_eq_ok.1 h
    cases hs'
    exact ⟨_, .inr rfl, ⟨trivial, hmissing, trivial⟩, rfl⟩

theorem leadsTo_step (h : s.step M state symbol = .ok (transition, s')) :
    s.cache.table.LeadsTo s'.cache.table := by
  obtain ⟨calls, -, hcalls, hafter⟩ := calls_step h
  exact ⟨calls, hcalls, hafter⟩

theorem table_start (h : s.start M = .ok (transition, s')) : s'.cache.table = s.cache.table := by
  unfold start at h
  split at h
  · cases h
    rfl
  · obtain ⟨⟨built, states⟩, -, hs'⟩ := bind_eq_ok.1 h
    cases hs'
    rfl

theorem cache_execute {file' : RegisterFile}
    (h : s.execute file program position = .ok (file', s')) : s'.cache = s.cache := by
  obtain ⟨⟨written, ids⟩, -, hs'⟩ := bind_eq_ok.1 h
  cases hs'
  rfl

theorem leadsTo_follow {text : List Char} {place : Place} {best last : Option Place}
    (h : follow M text place best s = .ok (last, s')) :
    s.cache.table.LeadsTo s'.cache.table := by
  induction text generalizing place best s with
  | nil =>
    cases h
    exact .refl _
  | cons c rest ih =>
    unfold follow at h
    split at h
    next =>
      cases h
      exact .refl _
    next index _ =>
      obtain ⟨⟨transition, s₁⟩, hstep, h⟩ := bind_eq_ok.1 h
      refine (leadsTo_step hstep).trans ?_
      dsimp only at h
      split at h
      next =>
        cases h
        exact .refl _
      next id acceptance _ =>
        obtain ⟨⟨file, s₂⟩, hexecute, h⟩ := bind_eq_ok.1 h
        rw [← cache_execute hexecute]
        cases acceptance with
        | reject => exact ih h
        | candidate => exact ih h
        | settled =>
          cases h
          exact .refl _

theorem leadsTo_search {text : List Char} {last : Option Place}
    (h : s.search M text = .ok (last, s')) : s.cache.table.LeadsTo s'.cache.table := by
  obtain ⟨⟨start, s₁⟩, hstart, h⟩ := bind_eq_ok.1 h
  rw [← table_start hstart]
  dsimp only at h
  split at h
  next =>
    cases h
    exact .refl _
  next id acceptance _ =>
    obtain ⟨⟨file, s₂⟩, hexecute, h⟩ := bind_eq_ok.1 h
    -- a new register file takes numbers and leaves the cache alone
    have hcache : s₂.cache = (s₁.newFile M).2.cache := cache_execute hexecute
    rw [show s₁.cache = s₂.cache from hcache.symm]
    cases acceptance with
    | reject => exact leadsTo_follow h
    | candidate => exact leadsTo_follow h
    | settled =>
      cases h
      exact .refl _

theorem leadsTo_accept {place : Place} {accepted : Option RegisterFile}
    (h : s.accept M place = .ok (accepted, s')) : s.cache.table.LeadsTo s'.cache.table := by
  obtain ⟨⟨flush, s₁⟩, hstep, h⟩ := bind_eq_ok.1 h
  refine (leadsTo_step hstep).trans ?_
  dsimp only at h
  split at h
  next =>
    cases h
    exact .refl _
  next =>
    obtain ⟨⟨file, s₂⟩, hexecute, h⟩ := bind_eq_ok.1 h
    cases h
    rw [← cache_execute hexecute]
    exact .refl _

theorem leadsTo_run {text : List Char} {accepted : Option RegisterFile}
    (h : s.run M text = .ok (accepted, s')) : s.cache.table.LeadsTo s'.cache.table := by
  obtain ⟨⟨last, s₁⟩, hsearch, h⟩ := bind_eq_ok.1 h
  refine (leadsTo_search hsearch).trans ?_
  cases last with
  | none =>
    cases h
    exact .refl _
  | some place => exact leadsTo_accept h

theorem leadsTo_perform {deed : Deed} (h : s.perform M deed = .ok s') :
    s.cache.table.LeadsTo s'.cache.table := by
  cases deed with
  | run text =>
    obtain ⟨⟨accepted, s₁⟩, hrun, h⟩ := bind_eq_ok.1 h
    cases h
    exact leadsTo_run hrun
  | pack =>
    cases h
    exact leadsTo_pack _

/-- **The table of a session is a finite map**, whatever has been done in it: the transitions that
its steps have built are added one by one, each at a key that has none. -/
theorem leadsTo_table {deeds : List Deed} (h : deeds.foldlM (perform M) fresh = .ok s) :
    TransitionTable.empty.LeadsTo s.cache.table := by
  have hkeeps : ∀ s deed s', TransitionTable.empty.LeadsTo s.cache.table →
      perform M s deed = .ok s' → TransitionTable.empty.LeadsTo s'.cache.table :=
    fun s deed s' hs hdeed => hs.trans (leadsTo_perform hdeed)
  exact foldlM_keeps hkeeps (.refl _) h

end Session

namespace TransitionTable

/-- **A transition table is a finite map**, for every list of calls that adds transitions only at
keys that have none. It answers as the map does, then finds exactly the transitions that were
added, and has each of them once, the packed ones in ascending order; packed, it has all of them
there. A step of a session makes no other calls. -/
theorem refines_finmap :
    (∀ {τ : Type} (calls : List (TableCall τ)), (empty : TransitionTable τ).Orderly calls →
      empty.answers calls = ((calls.mapM TransitionMap.call).run ∅).1 ∧
      (∀ key, (empty.after calls).lookup key =
        ((calls.mapM TransitionMap.call).run ∅).2.lookup key) ∧
      (empty.after calls).Holds calls) ∧
    ∀ (M : Machine) (s s' : Session) (state : Nat) (symbol : InputSymbol)
      (transition : Transition), s.step M state symbol = .ok (transition, s') →
        ∃ calls : List (TableCall Transition),
          (calls = [.lookup ⟨state, symbol⟩] ∨
            calls = [.lookup ⟨state, symbol⟩, .insert ⟨state, symbol⟩ transition]) ∧
          s.cache.table.Orderly calls ∧ s.cache.table.after calls = s'.cache.table := by
  refine ⟨fun calls h => ?_, fun M s s' state symbol transition => Session.calls_step⟩
  obtain ⟨hanswers, hrepresents⟩ := represents_empty.run h
  refine ⟨hanswers, hrepresents.lookup, hrepresents.holds fun key v => ?_⟩
  rw [lookup_after valid_empty h, lookup_empty, or_iff_right nofun]

/-- A dead transition is found before and after packing, and another one is added behind it. And
the first step of a session adds what it has not found. -/
theorem refines_finmap_packed_between :
    (empty.Orderly [TableCall.insert ⟨1, .ending⟩ Transition.dead, .lookup ⟨1, .ending⟩, .pack,
        .insert ⟨0, .letter 1⟩ ⟨.state 1 .reject, []⟩, .lookup ⟨1, .ending⟩,
        .lookup ⟨0, .letter 1⟩, .lookup ⟨0, .ending⟩] ∧
      empty.answers [TableCall.insert ⟨1, .ending⟩ Transition.dead, .lookup ⟨1, .ending⟩, .pack,
        .insert ⟨0, .letter 1⟩ ⟨.state 1 .reject, []⟩, .lookup ⟨1, .ending⟩,
        .lookup ⟨0, .letter 1⟩, .lookup ⟨0, .ending⟩] =
          [none, some .dead, none, none, some .dead, some ⟨.state 1 .reject, []⟩, none] ∧
      (empty.after [TableCall.insert ⟨1, .ending⟩ Transition.dead, .lookup ⟨1, .ending⟩, .pack,
        .insert ⟨0, .letter 1⟩ ⟨.state 1 .reject, []⟩, .lookup ⟨1, .ending⟩,
        .lookup ⟨0, .letter 1⟩, .lookup ⟨0, .ending⟩]).size = 2) ∧
    ∃ (s s' : Session) (transition : Transition) (calls : List (TableCall Transition)),
      s.step (.ofPattern ⟨.char 'a', #[0]⟩) 0 (.letter 0) = .ok (transition, s') ∧
      s.cache.table.Orderly calls ∧ s.cache.table.after calls = s'.cache.table := by
  constructor
  · have hmissing : (pack (empty.insert ⟨1, .ending⟩ Transition.dead)).lookup ⟨0, .letter 1⟩ =
        none := by
      rw [lookup_pack (valid_empty.insert (lookup_empty _) _), lookup_insert (lookup_empty _),
        if_neg (by decide), lookup_empty]
    have horderly : empty.Orderly [TableCall.insert ⟨1, .ending⟩ Transition.dead,
        .lookup ⟨1, .ending⟩, .pack, .insert ⟨0, .letter 1⟩ ⟨.state 1 .reject, []⟩,
        .lookup ⟨1, .ending⟩, .lookup ⟨0, .letter 1⟩, .lookup ⟨0, .ending⟩] :=
      ⟨lookup_empty _, trivial, trivial, hmissing, trivial, trivial, trivial, trivial⟩
    obtain ⟨hanswers, -, hholds⟩ := refines_finmap.1 _ horderly
    exact ⟨horderly, hanswers.trans rfl, hholds.size.trans rfl⟩
  · have hrun : (do
        let begun ← Session.fresh.start (.ofPattern ⟨.char 'a', #[0]⟩)
        let taken ← begun.2.step (.ofPattern ⟨.char 'a', #[0]⟩) 0 (.letter 0)
        return taken.1.target) = Except.ok (.state 1 .settled) := by
      cbv
    obtain ⟨⟨start, s⟩, -, hrest⟩ := bind_eq_ok.1 hrun
    obtain ⟨⟨transition, s'⟩, hstep, -⟩ := bind_eq_ok.1 hrest
    obtain ⟨calls, -, hcalls, hafter⟩ := refines_finmap.2 _ _ _ _ _ _ hstep
    exact ⟨s, s', transition, calls, hstep, hcalls, hafter⟩

end TransitionTable

end Submatch
