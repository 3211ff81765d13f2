import Mathlib
import Submatch.Proofs.Dfa.Expansions
import Submatch.Proofs.Matcher.Calls

/-!
# What a matcher builds

A matcher adds up to the steps of the texts that it has been called on, each built once, when it is
first taken (`compile_lazy`). That the table is packed in between makes no difference.
-/

namespace Submatch.Matcher

/-- The text that is matched. -/
def Call.text : Call → String
  | interpret text | isMatch text => text

/-- The number of transitions that matching a text builds. -/
def expansions (m : Matcher) (text : String) : Except Fault Nat := do
  return (← Session.run m.machine text.toList ⟨m.cache, m.ids, 0⟩).2.built

/-- Make a call, and add up the transitions built. -/
def tally (p : Matcher × Nat) (call : Call) : Except Fault (Matcher × Nat) := do
  return (← p.1.perform call, p.2 + (← p.1.expansions call.text))

/-- A matcher that is called, with the number of transitions built so far. -/
def client : Client (Matcher × Nat) Call :=
  ⟨tally, fun call => some call.text.toList, fun p => p.1.cache, Prod.snd⟩

variable {m m' : Matcher} {n : NumberedPattern} {config : Config} {pattern : String}

theorem cache_record (m : Matcher) (built : Nat) :
    (m.record built).cache = m.cache ∨ (m.record built).cache = m.cache.pack := by
  unfold record
  split
  · exact .inl rfl
  · simp only
    split
    · exact .inl rfl
    · exact .inr rfl

/-- What is left of the cache after matching is that of the run, packed or not. -/
theorem cache_interpret {text : String} {outcome : Outcome}
    (h : m.interpret text = .ok (outcome, m')) :
    ∃ accepted s, Session.run m.machine text.toList ⟨m.cache, m.ids, 0⟩ = .ok (accepted, s) ∧
      (m'.cache = s.cache ∨ m'.cache = s.cache.pack) := by
  obtain ⟨⟨accepted, s⟩, hrun, hrest⟩ := bind_eq_ok.1 h
  have hcache := cache_record { m with cache := s.cache, ids := s.ids } s.built
  refine ⟨accepted, s, hrun, ?_⟩
  cases accepted with
  | none =>
    cases hrest
    exact hcache
  | some file =>
    obtain ⟨recorded, -, hrest⟩ := bind_eq_ok.1 hrest
    obtain ⟨outcome', -, hrest⟩ := bind_eq_ok.1 hrest
    cases hrest
    exact hcache

theorem cache_perform {call : Call} (h : m.perform call = .ok m') :
    ∃ accepted s, Session.run m.machine call.text.toList ⟨m.cache, m.ids, 0⟩ = .ok (accepted, s) ∧
      (m'.cache = s.cache ∨ m'.cache = s.cache.pack) := by
  cases call with
  | interpret text =>
    obtain ⟨⟨outcome, m''⟩, hinterpret, hrest⟩ := bind_eq_ok.1 h
    cases hrest
    exact cache_interpret hinterpret
  | isMatch text =>
    obtain ⟨⟨matched, m''⟩, hisMatch, hrest⟩ := bind_eq_ok.1 h
    obtain ⟨⟨outcome, m'''⟩, hinterpret, hlast⟩ := bind_eq_ok.1 hisMatch
    cases hrest
    cases hlast
    exact cache_interpret hinterpret

/-- Every call adds its text to what the cache holds. -/
theorem keeps_client (hn : n.Sound) :
    client.Keeps (.ofPattern n) fun p => p.1.Serves n := by
  intro p call texts hserves h
  have hA := Automaton.wellFormed_ofPattern n
  obtain ⟨m', hperform, hserves'⟩ := hserves.perform hn call
  obtain ⟨accepted, s, hrun, hcache⟩ := cache_perform hperform
  have hexpansions : p.1.expansions call.text = .ok s.built :=
    bind_eq_ok.2 ⟨_, hrun, rfl⟩
  have hact : client.act p call = .ok (m', p.2 + s.built) :=
    bind_eq_ok.2 ⟨_, hperform, bind_eq_ok.2 ⟨_, hexpansions, rfl⟩⟩
  have hbegin : Cache.Accounts (.ofPattern n) p.1.cache (0 + p.2) texts := by
    rw [Nat.zero_add]
    exact h
  rw [hserves.machine] at hrun
  have haccounts := Cache.Accounts.run (s := ⟨p.1.cache, p.1.ids, 0⟩) hA hbegin hrun
  rw [Nat.add_comm] at haccounts
  refine ⟨_, hact, hserves', ?_⟩
  show m'.cache.Accounts (.ofPattern n) (p.2 + s.built) (texts ++ [call.text.toList])
  rcases hcache with hcache | hcache
  · rw [hcache]
    exact haccounts
  · rw [hcache]
    exact haccounts.pack

/-- **Each transition is built once**, whether texts are run in a session, with the table packed at
any time, or a matcher is called: on the first text that takes the step. -/
theorem compile_lazy (h : compile config pattern = .ok m) :
    (Session.client m.machine).Lazy m.machine .fresh ∧ client.Lazy m.machine (m, 0) := by
  obtain ⟨n, hread, hmatcher⟩ := bind_eq_ok.1 h
  cases hmatcher
  have hn := NumberedPattern.read_sound hread
  have hserves : Serves ⟨pattern, config, .ofPattern n, .empty, ⟨0⟩, 0⟩ n :=
    ⟨rfl, Cache.valid_empty _⟩
  exact ⟨Session.lazy_client (Automaton.wellFormed_ofPattern n),
    (keeps_client hn).lazy hserves (.empty _)⟩

/-- The third call finds everything in the cache, and then the table is packed. -/
theorem compile_lazy_star : ∃ m, compile { freezeAfter := 1 } "(a|b)*" = .ok m ∧
    ((Session.client m.machine).Lazy m.machine .fresh ∧ client.Lazy m.machine (m, 0)) ∧
      ∃ used, [Call.interpret "ab", .isMatch "b", .interpret "ab"].foldlM tally (m, 0) =
        .ok (used, 6) ∧ used.stateCount = 3 := by
  have hread : NumberedPattern.read ({ freezeAfter := 1 } : Config).toLimits "(a|b)*" =
      .ok ⟨.repeated (.group 1 (.alt (.char 'a') (.char 'b'))) ⟨0, none, false⟩, #[0, 0]⟩ := by
    cbv
  have hcompile : compile { freezeAfter := 1 } "(a|b)*" = .ok ⟨"(a|b)*", { freezeAfter := 1 },
      .ofPattern ⟨.repeated (.group 1 (.alt (.char 'a') (.char 'b'))) ⟨0, none, false⟩, #[0, 0]⟩,
      .empty, ⟨0⟩, 0⟩ := bind_eq_ok.2 ⟨_, hread, rfl⟩
  refine ⟨_, hcompile, compile_lazy hcompile, ?_⟩
  have hcounts : (do
      let p ← [Call.interpret "ab", .isMatch "b", .interpret "ab"].foldlM tally
        (⟨"(a|b)*", { freezeAfter := 1 }, .ofPattern
          ⟨.repeated (.group 1 (.alt (.char 'a') (.char 'b'))) ⟨0, none, false⟩, #[0, 0]⟩,
          .empty, ⟨0⟩, 0⟩, 0)
      return (p.2, p.1.stateCount)) = Except.ok (6, 3) := by
    cbv
  obtain ⟨⟨used, total⟩, hcalls, hpair⟩ := bind_eq_ok.1 hcounts
  obtain ⟨rfl, hstates⟩ := Prod.mk.inj (Except.ok.inj hpair)
  exact ⟨used, hcalls, hstates⟩

end Submatch.Matcher
