import Mathlib.Computability.Language
import Submatch.Automaton.Fragment
import Submatch.Proofs.Automaton.Walks

/-!
# Tours through a fragment

A tour is a list of moves that leads through the fragment of a pattern, from where it is entered
to the node behind it. `Pattern.tours` gives them by recursion on the pattern. The automaton of a
pattern has no other paths through its fragments (`Blueprint.realizes_ofPattern`), so its paths
from the start to the accepting node are the tours of group zero (`path_ofPattern_iff`).
-/

namespace Submatch

open Computability

/-- One given move. -/
def Motion.only (m : Motion) : Language Motion := {[m]}

/-- Reading one character from some ranges. -/
def Motion.reading (ranges : List SymbolRange) : Language Motion :=
  {ms | ∃ c, ms = [.read c] ∧ RangeSet.covers ranges c.toNat = true}

namespace Tours

/-- Any number of rounds: at the fork either one more or the way out. -/
def star (isLazy : Bool) (body : Language Motion) : Language Motion :=
  (Motion.only (.choose !isLazy) * body)∗ * Motion.only (.choose isLazy)

/-- Up to `n` rounds. -/
def optional (isLazy : Bool) (body : Language Motion) : Nat → Language Motion
  | 0 => 1
  | n + 1 =>
    Motion.only (.choose !isLazy) * (body * optional isLazy body n) +
      Motion.only (.choose isLazy)

/-- The rounds that a quantifier allows. -/
def repeated (body : Language Motion) (q : Quantifier) : Language Motion :=
  match q.max with
  | none => body ^ q.min * star q.isLazy body
  | some m => body ^ q.min * optional q.isLazy body (m - q.min)

end Tours

/-- The tours through the fragment of a pattern. -/
def Pattern.tours : Pattern → Language Motion
  | .empty => 1
  | .char c => Motion.reading [.ofChar c]
  | .set ranges => Motion.reading ranges
  | .any => Motion.reading [.full]
  | .seq left right => left.tours * right.tours
  | .alt left right =>
    Motion.only (.choose true) * left.tours + Motion.only (.choose false) * right.tours
  | .repeated body q => Tours.repeated body.tours q
  | .group index body =>
    Motion.only (.pass ⟨index, .opening⟩) * (body.tours * Motion.only (.pass ⟨index, .closing⟩))

/-- The nodes lie in the arena of an automaton from `base` on. -/
def Automaton.Holds (A : Automaton) (base : Nat) (nodes : Array Node) : Prop :=
  ∀ (i : Nat) (node : Node), nodes[i]? = some node → A.nodes[base + i]? = some node

/-- The nodes from `base` on are left only at `next`, and none accepts. -/
structure Fragment.Contained (f : Fragment) (base next : Nat) : Prop where
  entry : f.entry = next ∨ (base ≤ f.entry ∧ f.entry < base + f.nodes.size)
  targets : ∀ node ∈ f.nodes, ∀ t ∈ node.targets,
    t = next ∨ (base ≤ t ∧ t < base + f.nodes.size)
  accept : Node.accept ∉ f.nodes

/-- Through nodes that lie from `base` on, one comes from the node `entry` to the node `next`
along the given tours and along no other moves: a path that leaves the nodes begins with a
tour. -/
structure Leads (nodes : Array Node) (base entry next : Nat) (tours : Language Motion) :
    Prop where
  sound : ∀ A : Automaton, A.Holds base nodes → ∀ ms ∈ tours, A.Path entry ms next
  complete : ∀ A : Automaton, A.Holds base nodes → ¬ (base ≤ next ∧ next < base + nodes.size) →
    ∀ ms k, A.Path entry ms k → ¬ (base ≤ k ∧ k < base + nodes.size) →
      ∃ tour ∈ tours, ∃ rest, ms = tour ++ rest ∧ A.Path next rest k

/-- The fragment with nodes from `base` on has the given tours to the node `next`. -/
structure Fragment.Realizes (f : Fragment) (base next : Nat) (tours : Language Motion) :
    Prop extends f.Contained base next where
  leads : Leads f.nodes base f.entry next tours

/-- The fragments of a blueprint have the given tours, wherever they lie. -/
def Blueprint.Realizes (b : Blueprint) (tours : Language Motion) : Prop :=
  ∀ next base, (b next base).Realizes base next tours

namespace Automaton

variable {A : Automaton} {base : Nat} {xs ys : Array Node}

theorem holds_append : A.Holds base (xs ++ ys) ↔ A.Holds base xs ∧ A.Holds (base + xs.size) ys := by
  constructor
  · intro h
    refine ⟨fun i node hi => h i node ?_, fun i node hi => ?_⟩
    · obtain ⟨hlt, -⟩ := Array.getElem?_eq_some_iff.1 hi
      rw [Array.getElem?_append_left hlt, hi]
    · rw [Nat.add_assoc]
      refine h _ node ?_
      rw [Array.getElem?_append_right (by omega), Nat.add_sub_cancel_left, hi]
  · rintro ⟨hxs, hys⟩ i node hi
    by_cases hlt : i < xs.size
    · rw [Array.getElem?_append_left hlt] at hi
      exact hxs i node hi
    · rw [Array.getElem?_append_right (by omega)] at hi
      have := hys _ node hi
      rwa [show base + xs.size + (i - xs.size) = base + i by omega] at this

theorem holds_singleton {node : Node} : A.Holds base #[node] ↔ A.nodes[base]? = some node := by
  constructor
  · intro h
    exact h 0 node rfl
  · intro h i other hi
    obtain ⟨hlt, heq⟩ := Array.getElem?_eq_some_iff.1 hi
    obtain rfl : i = 0 := by simpa using hlt
    rw [← heq]
    exact h

theorem holds_push {node : Node} :
    A.Holds base (xs.push node) ↔ A.Holds base xs ∧ A.nodes[base + xs.size]? = some node := by
  rw [← Array.append_singleton, holds_append, holds_singleton]

theorem step_forkNode {i j more stop : Nat} {isLazy : Bool} {m : Motion}
    (hn : A.nodes[i]? = some (Blueprint.forkNode isLazy more stop)) :
    A.Step i m j ↔ (m = .choose (!isLazy) ∧ j = more) ∨ (m = .choose isLazy ∧ j = stop) := by
  cases isLazy with
  | false =>
    constructor
    · intro h
      cases h <;> simp_all [Blueprint.forkNode]
    · rintro (⟨rfl, rfl⟩ | ⟨rfl, rfl⟩)
      · exact .first hn
      · exact .second hn
  | true =>
    constructor
    · intro h
      cases h <;> simp_all [Blueprint.forkNode]
    · rintro (⟨rfl, rfl⟩ | ⟨rfl, rfl⟩)
      · exact .second hn
      · exact .first hn

theorem step_mark {i j next : Nat} {tag : Tag} {m : Motion}
    (hn : A.nodes[i]? = some (.mark tag next)) : A.Step i m j ↔ m = .pass tag ∧ j = next := by
  constructor
  · intro h
    cases h <;> simp_all
  · rintro ⟨rfl, rfl⟩
    exact .pass hn

theorem step_consume {i j next : Nat} {ranges : List SymbolRange} {m : Motion}
    (hn : A.nodes[i]? = some (.consume ranges next)) :
    A.Step i m j ↔ ∃ c, m = .read c ∧ RangeSet.covers ranges c.toNat = true ∧ j = next := by
  constructor
  · intro h
    cases h <;> simp_all
  · rintro ⟨c, rfl, hc, rfl⟩
    exact .read hn hc

end Automaton

variable {xs ys : Array Node} {base entry next : Nat} {tours : Language Motion}

theorem mem_only {m : Motion} {ms : List Motion} : ms ∈ m.only ↔ ms = [m] := Iff.rfl

theorem mem_only_mul {m : Motion} {ms : List Motion} :
    ms ∈ m.only * tours ↔ ∃ ns ∈ tours, ms = m :: ns := by
  rw [Language.mem_mul]
  constructor
  · rintro ⟨u, hu, v, hv, rfl⟩
    rw [mem_only.1 hu]
    exact ⟨v, hv, rfl⟩
  · rintro ⟨ns, hns, rfl⟩
    exact ⟨[m], mem_only.2 rfl, ns, hns, rfl⟩

/-- The tours of a loop: one more round and the loop again, or the way out. -/
theorem Tours.star_eq (isLazy : Bool) (body : Language Motion) :
    Tours.star isLazy body =
      Motion.only (.choose !isLazy) * (body * Tours.star isLazy body) +
        Motion.only (.choose isLazy) := by
  unfold Tours.star
  generalize Motion.only (.choose isLazy) = out
  rw [← mul_assoc, ← mul_assoc]
  generalize Motion.only (.choose !isLazy) * body = round
  calc round∗ * out = (1 + round * round∗) * out := by
        rw [Language.one_add_self_mul_kstar_eq_kstar]
    _ = round * round∗ * out + out := by rw [add_mul, one_mul, add_comm]

namespace Leads

/-- Nodes that lie behind change nothing. -/
theorem append_right (h : Leads xs base entry next tours) (ys : Array Node) :
    Leads (xs ++ ys) base entry next tours := by
  have hsize : (xs ++ ys).size = xs.size + ys.size := Array.size_append
  refine ⟨fun A hA => h.sound A (Automaton.holds_append.1 hA).1, fun A hA hnext ms k hpath hk => ?_⟩
  exact h.complete A (Automaton.holds_append.1 hA).1 (by omega) ms k hpath (by omega)

/-- Nodes that lie in front change nothing. -/
theorem append_left (h : Leads ys (base + xs.size) entry next tours) :
    Leads (xs ++ ys) base entry next tours := by
  have hsize : (xs ++ ys).size = xs.size + ys.size := Array.size_append
  refine ⟨fun A hA => h.sound A (Automaton.holds_append.1 hA).2, fun A hA hnext ms k hpath hk => ?_⟩
  exact h.complete A (Automaton.holds_append.1 hA).2 (by omega) ms k hpath (by omega)

/-- From the node behind the nodes there is nothing to do. -/
theorem at_next (xs : Array Node) (base next : Nat) : Leads xs base next next 1 := by
  refine ⟨fun A _ ms hms => ?_, fun A _ _ ms k hpath _ => ⟨[], rfl, ms, rfl, hpath⟩⟩
  obtain rfl := (Language.mem_one ms).1 hms
  exact .refl next

/-- Through one node and then through others. -/
theorem trans {mid : Nat} {first rest : Language Motion}
    (hfirst : Leads ys (base + xs.size) entry mid first) (hrest : Leads xs base mid next rest)
    (hmid : mid = next ∨ (base ≤ mid ∧ mid < base + xs.size)) :
    Leads (xs ++ ys) base entry next (first * rest) := by
  have hsize : (xs ++ ys).size = xs.size + ys.size := Array.size_append
  constructor
  · intro A hA ms hms
    obtain ⟨hxs, hys⟩ := Automaton.holds_append.1 hA
    obtain ⟨t, ht, u, hu, rfl⟩ := Language.mem_mul.1 hms
    exact (hfirst.sound A hys t ht).append (hrest.sound A hxs u hu)
  · intro A hA hnext ms k hpath hk
    obtain ⟨hxs, hys⟩ := Automaton.holds_append.1 hA
    -- the path leaves the nodes behind at `mid`, and then those in front at `next`
    obtain ⟨t, ht, ms', rfl, hpath'⟩ := hfirst.complete A hys (by omega) ms k hpath (by omega)
    obtain ⟨u, hu, ms'', rfl, hpath''⟩ := hrest.complete A hxs (by omega) ms' k hpath' (by omega)
    exact ⟨t ++ u, Language.append_mem_mul ht hu, ms'', (List.append_assoc ..).symm, hpath''⟩

/-- From one of the nodes, a path that leaves them takes a step. -/
theorem exists_step {A : Automaton} {i k size : Nat} {ms : List Motion}
    (hpath : A.Path i ms k) (hi : base ≤ i ∧ i < base + size) (hk : ¬ (base ≤ k ∧ k < base + size)) :
    ∃ m ms' j, ms = m :: ms' ∧ A.Step i m j ∧ A.Path j ms' k := by
  cases hpath with
  | refl => exact absurd hi hk
  | step first rest => exact ⟨_, _, _, rfl, first, rest⟩

/-- Through a fork behind the nodes, from where either of two ways leads on. -/
theorem fork {more stop : Nat} {tours₁ tours₂ : Language Motion} (isLazy : Bool)
    (hmore : Leads xs base more next tours₁) (hstop : Leads xs base stop next tours₂) :
    Leads (xs.push (Blueprint.forkNode isLazy more stop)) base (base + xs.size) next
      (Motion.only (.choose !isLazy) * tours₁ + Motion.only (.choose isLazy) * tours₂) := by
  have hsize : (xs.push (Blueprint.forkNode isLazy more stop)).size = xs.size + 1 :=
    Array.size_push ..
  constructor
  · intro A hA ms hms
    obtain ⟨hxs, hnode⟩ := Automaton.holds_push.1 hA
    rcases (Language.mem_add ..).1 hms with hms | hms
    · obtain ⟨u, hu, rfl⟩ := mem_only_mul.1 hms
      exact .step ((Automaton.step_forkNode hnode).2 (.inl ⟨rfl, rfl⟩)) (hmore.sound A hxs u hu)
    · obtain ⟨u, hu, rfl⟩ := mem_only_mul.1 hms
      exact .step ((Automaton.step_forkNode hnode).2 (.inr ⟨rfl, rfl⟩)) (hstop.sound A hxs u hu)
  · intro A hA hnext ms k hpath hk
    obtain ⟨hxs, hnode⟩ := Automaton.holds_push.1 hA
    obtain ⟨m, ms, j, rfl, hstep, htail⟩ := exists_step hpath (by omega) hk
    rcases (Automaton.step_forkNode hnode).1 hstep with ⟨rfl, rfl⟩ | ⟨rfl, rfl⟩
    · obtain ⟨u, hu, rest, rfl, hrest⟩ := hmore.complete A hxs (by omega) ms k htail (by omega)
      exact ⟨_ :: u, .inl (mem_only_mul.2 ⟨u, hu, rfl⟩), rest, rfl, hrest⟩
    · obtain ⟨u, hu, rest, rfl, hrest⟩ := hstop.complete A hxs (by omega) ms k htail (by omega)
      exact ⟨_ :: u, .inr (mem_only_mul.2 ⟨u, hu, rfl⟩), rest, rfl, hrest⟩

/-- Through a group boundary behind the nodes. -/
theorem mark {tag : Tag} (h : Leads xs base entry next tours) :
    Leads (xs.push (.mark tag entry)) base (base + xs.size) next
      (Motion.only (.pass tag) * tours) := by
  have hsize : (xs.push (.mark tag entry)).size = xs.size + 1 := Array.size_push ..
  constructor
  · intro A hA ms hms
    obtain ⟨hxs, hnode⟩ := Automaton.holds_push.1 hA
    obtain ⟨u, hu, rfl⟩ := mem_only_mul.1 hms
    exact .step ((Automaton.step_mark hnode).2 ⟨rfl, rfl⟩) (h.sound A hxs u hu)
  · intro A hA hnext ms k hpath hk
    obtain ⟨hxs, hnode⟩ := Automaton.holds_push.1 hA
    obtain ⟨m, ms, j, rfl, hstep, htail⟩ := exists_step hpath (by omega) hk
    obtain ⟨rfl, rfl⟩ := (Automaton.step_mark hnode).1 hstep
    obtain ⟨u, hu, rest, rfl, hrest⟩ := h.complete A hxs (by omega) ms k htail (by omega)
    exact ⟨_ :: u, mem_only_mul.2 ⟨u, hu, rfl⟩, rest, rfl, hrest⟩

/-- Through a node that reads. -/
theorem consume (ranges : List SymbolRange) (base next : Nat) :
    Leads #[.consume ranges next] base base next (Motion.reading ranges) := by
  have hsize : (#[Node.consume ranges next] : Array Node).size = 1 := rfl
  constructor
  · rintro A hA ms ⟨c, rfl, hc⟩
    have hnode := Automaton.holds_singleton.1 hA
    exact .step ((Automaton.step_consume hnode).2 ⟨c, rfl, hc, rfl⟩) (.refl next)
  · intro A hA hnext ms k hpath hk
    have hnode := Automaton.holds_singleton.1 hA
    obtain ⟨m, ms, j, rfl, hstep, htail⟩ := exists_step hpath (by omega) hk
    obtain ⟨c, rfl, hc, rfl⟩ := (Automaton.step_consume hnode).1 hstep
    exact ⟨[.read c], ⟨c, rfl, hc⟩, ms, rfl, htail⟩

/-- Through a fork from which a body leads back to it. -/
theorem star {body : Language Motion} (isLazy : Bool)
    (hbody : Leads xs (base + 1) entry base body) :
    Leads (#[Blueprint.forkNode isLazy entry next] ++ xs) base base next
      (Tours.star isLazy body) := by
  have hsize : (#[Blueprint.forkNode isLazy entry next] ++ xs).size = 1 + xs.size :=
    Array.size_append
  constructor
  · intro A hA ms hms
    obtain ⟨hfork, hxs⟩ := Automaton.holds_append.1 hA
    have hnode := Automaton.holds_singleton.1 hfork
    obtain ⟨_, ⟨rounds, rfl, hrounds⟩, u, hu, rfl⟩ := Language.mem_mul.1 hms
    obtain rfl := mem_only.1 hu
    -- every round leads back to the fork, so this is by the number of rounds
    clear hms
    induction rounds with
    | nil => exact .step ((Automaton.step_forkNode hnode).2 (.inr ⟨rfl, rfl⟩)) (.refl next)
    | cons round rounds ih =>
      obtain ⟨hround, hrest⟩ := List.forall_mem_cons.1 hrounds
      obtain ⟨w, hw, rfl⟩ := mem_only_mul.1 hround
      have hlast := ih hrest
      rw [List.flatten_cons, List.append_assoc]
      exact .step ((Automaton.step_forkNode hnode).2 (.inl ⟨rfl, rfl⟩))
        ((hbody.sound A hxs w hw).append hlast)
  · intro A hA hnext ms k hpath hk
    obtain ⟨hfork, hxs⟩ := Automaton.holds_append.1 hA
    have hnode := Automaton.holds_singleton.1 hfork
    -- by the length of the path, which every round shortens
    induction hlen : ms.length using Nat.strong_induction_on generalizing ms with
    | h n ih =>
      obtain ⟨m, ms, j, rfl, hstep, hrest⟩ := exists_step hpath (by omega) hk
      rw [Tours.star_eq]
      rcases (Automaton.step_forkNode hnode).1 hstep with ⟨rfl, rfl⟩ | ⟨rfl, rfl⟩
      · obtain ⟨w, hw, ms', rfl, hback⟩ := hbody.complete A hxs (by omega) ms k hrest (by omega)
        obtain ⟨t, ht, rest, rfl, hlast⟩ := ih ms'.length (by simp at hlen; omega) ms' hback rfl
        have hround : .choose (!isLazy) :: (w ++ t) ∈
            Motion.only (.choose !isLazy) * (body * Tours.star isLazy body) :=
          mem_only_mul.2 ⟨w ++ t, Language.append_mem_mul hw ht, rfl⟩
        exact ⟨_, .inl hround, rest, by simp, hlast⟩
      · exact ⟨[.choose isLazy], .inr (mem_only.2 rfl), ms, rfl, hrest⟩

/-- Through the body first. -/
theorem plus {body : Language Motion} (isLazy : Bool)
    (hbody : Leads xs (base + 1) entry base body) :
    Leads (#[Blueprint.forkNode isLazy entry next] ++ xs) base entry next
      (body * Tours.star isLazy body) := by
  have hsize : (#[Blueprint.forkNode isLazy entry next] ++ xs).size = 1 + xs.size :=
    Array.size_append
  have hstar : Leads (#[Blueprint.forkNode isLazy entry next] ++ xs) base base next
    (Tours.star isLazy body) := hbody.star isLazy
  constructor
  · intro A hA ms hms
    obtain ⟨-, hxs⟩ := Automaton.holds_append.1 hA
    obtain ⟨t, ht, u, hu, rfl⟩ := Language.mem_mul.1 hms
    exact (hbody.sound A hxs t ht).append (hstar.sound A hA u hu)
  · intro A hA hnext ms k hpath hk
    obtain ⟨-, hxs⟩ := Automaton.holds_append.1 hA
    obtain ⟨t, ht, ms', rfl, hback⟩ := hbody.complete A hxs (by omega) ms k hpath (by omega)
    obtain ⟨u, hu, rest, rfl, hrest⟩ := hstar.complete A hA hnext ms' k hback hk
    exact ⟨t ++ u, Language.append_mem_mul ht hu, rest, (List.append_assoc ..).symm, hrest⟩

end Leads

theorem Blueprint.targets_forkNode {isLazy : Bool} {more stop t : Nat}
    (h : t ∈ (forkNode isLazy more stop).targets) : t = more ∨ t = stop := by
  cases isLazy with
  | false => simpa [forkNode, Node.targets] using h
  | true => simpa [forkNode, Node.targets, or_comm] using h

namespace Fragment

variable {f : Fragment} {b : Blueprint}

/-- Two fragments of which the second is left for the first, or for where that leads. -/
theorem Contained.append {g : Fragment} {mid : Nat} (hf : f.Contained base next)
    (hg : g.Contained (base + f.nodes.size) mid)
    (hmid : mid = next ∨ (base ≤ mid ∧ mid < base + f.nodes.size)) :
    (⟨f.nodes ++ g.nodes, g.entry⟩ : Fragment).Contained base next := by
  have hsize : (f.nodes ++ g.nodes).size = f.nodes.size + g.nodes.size := Array.size_append
  refine ⟨?_, ?_, ?_⟩
  · have := hg.entry
    simp only
    omega
  · intro node hnode t ht
    simp only at hnode ⊢
    rcases Array.mem_append.1 hnode with hnode | hnode
    · have := hf.targets node hnode t ht
      omega
    · have := hg.targets node hnode t ht
      omega
  · intro haccept
    rcases Array.mem_append.1 haccept with h | h
    · exact hf.accept h
    · exact hg.accept h

/-- A part in front of a fragment. -/
theorem Realizes.precede {part : Language Motion} (hf : f.Realizes base next tours)
    (hb : b.Realizes part) : (f.precede base b).Realizes base next (part * tours) := by
  have hfirst := hb f.entry (base + f.nodes.size)
  exact ⟨hf.append hfirst.toContained hf.entry, hfirst.leads.trans hf.leads hf.entry⟩

/-- One more node behind a fragment, where it is entered then. -/
theorem Contained.add (hf : f.Contained base next) {node : Node} (hnode : node ≠ .accept)
    (htargets : ∀ t ∈ node.targets, t = next ∨ (base ≤ t ∧ t < base + f.nodes.size)) :
    (f.add base node).Contained base next := by
  have hsize : (f.add base node).nodes.size = f.nodes.size + 1 := Array.size_push ..
  refine ⟨?_, ?_, ?_⟩
  · have hentry : (f.add base node).entry = base + f.nodes.size := rfl
    omega
  · intro other hother t ht
    rcases Array.mem_push.1 hother with hother | rfl
    · have := hf.targets other hother t ht
      omega
    · have := htargets t ht
      omega
  · intro haccept
    rcases Array.mem_push.1 haccept with h | h
    · exact hf.accept h
    · exact hnode h.symm

/-- A group boundary in front of a fragment. -/
theorem Realizes.mark (hf : f.Realizes base next tours) (tag : Tag) :
    (f.add base (.mark tag f.entry)).Realizes base next (Motion.only (.pass tag) * tours) :=
  ⟨hf.add nofun fun t ht => by
    obtain rfl := List.mem_singleton.1 ht
    exact hf.entry, hf.leads.mark⟩

/-- One more round in front of a fragment, or none. -/
theorem Realizes.optionally {body : Language Motion} (hf : f.Realizes base next tours)
    (hb : b.Realizes body) (isLazy : Bool) :
    (Blueprint.optionally isLazy b next base f).Realizes base next
      (Motion.only (.choose !isLazy) * (body * tours) + Motion.only (.choose isLazy)) := by
  have hone := hf.precede hb
  refine ⟨hone.add ?_ fun t ht => ?_, ?_⟩
  · cases isLazy <;> nofun
  · rcases Blueprint.targets_forkNode ht with rfl | rfl
    · exact hone.entry
    · exact .inl rfl
  · have hfork := hone.leads.fork isLazy (Leads.at_next _ base next)
    rw [mul_one] at hfork
    exact hfork

end Fragment

namespace Blueprint

variable {b c : Blueprint} {first second body : Language Motion}

theorem realizes_skip : skip.Realizes 1 :=
  fun next base => ⟨⟨.inl rfl, nofun, nofun⟩, Leads.at_next _ base next⟩

theorem realizes_consume (ranges : List SymbolRange) :
    (consume ranges).Realizes (Motion.reading ranges) := by
  refine fun next base => ⟨⟨.inr ⟨Nat.le_refl base, ?_⟩, ?_, ?_⟩, Leads.consume ranges base next⟩
  · exact Nat.lt_succ_self base
  · intro node hnode t ht
    obtain rfl := Array.mem_singleton.1 hnode
    exact .inl (List.mem_singleton.1 ht)
  · intro h
    cases Array.mem_singleton.1 h

theorem Realizes.seq (hb : b.Realizes first) (hc : c.Realizes second) :
    (seq b c).Realizes (first * second) :=
  fun next base => (hc next base).precede hb

theorem Realizes.alt (hb : b.Realizes first) (hc : c.Realizes second) :
    (alt b c).Realizes (Motion.only (.choose true) * first +
      Motion.only (.choose false) * second) := by
  intro next base
  have hother := hc next base
  have hpreferred := hb next (base + (c next base).nodes.size)
  have hboth := hother.append hpreferred.toContained (.inl rfl)
  have hsize : ((c next base).nodes ++ (b next (base + (c next base).nodes.size)).nodes).size =
    (c next base).nodes.size + (b next (base + (c next base).nodes.size)).nodes.size :=
    Array.size_append
  refine ⟨hboth.add nofun fun t ht => ?_, ?_⟩
  · have := hother.entry
    have := hboth.entry
    simp only [Node.targets, List.mem_cons, List.not_mem_nil, or_false] at ht
    simp only at this ⊢
    rcases ht with rfl | rfl <;> omega
  · exact hpreferred.leads.append_left.fork false (hother.leads.append_right _)

theorem Realizes.group (hb : b.Realizes body) (index : Nat) :
    (group index b).Realizes (Motion.only (.pass ⟨index, .opening⟩) *
      (body * Motion.only (.pass ⟨index, .closing⟩))) := by
  intro next base
  have hclose : (⟨#[.mark ⟨index, .closing⟩ next], base⟩ : Fragment).Realizes base next
      (Motion.only (.pass ⟨index, .closing⟩)) := by
    have hleads := @Leads.mark _ base next next 1 ⟨index, .closing⟩ (Leads.at_next #[] base next)
    rw [mul_one] at hleads
    refine ⟨⟨.inr ⟨Nat.le_refl base, Nat.lt_succ_self base⟩, ?_, ?_⟩, hleads⟩
    · intro node hnode t ht
      obtain rfl := Array.mem_singleton.1 hnode
      exact .inl (List.mem_singleton.1 ht)
    · intro h
      cases Array.mem_singleton.1 h
  exact (hclose.precede hb).mark _

/-- The nodes of a loop, whether it is entered at its fork or at its body. -/
theorem contained_loop (hb : b.Realizes body) (isLazy : Bool) (next base : Nat) {entry : Nat}
    (hentry : entry = base ∨ entry = (b base (base + 1)).entry) :
    (⟨(loop isLazy b next base).nodes, entry⟩ : Fragment).Contained base next := by
  have hinner := hb base (base + 1)
  have hsize : (loop isLazy b next base).nodes.size = 1 + (b base (base + 1)).nodes.size :=
    Array.size_append
  refine ⟨?_, ?_, ?_⟩
  · have := hinner.entry
    simp only
    omega
  · intro node hnode t ht
    simp only at hnode ⊢
    rcases Array.mem_append.1 hnode with hnode | hnode
    · obtain rfl := Array.mem_singleton.1 hnode
      have := hinner.entry
      rcases targets_forkNode ht with rfl | rfl
      · omega
      · exact .inl rfl
    · have := hinner.targets node hnode t ht
      omega
  · intro haccept
    rcases Array.mem_append.1 haccept with h | h
    · have := Array.mem_singleton.1 h
      cases isLazy <;> cases this
    · exact hinner.accept h

theorem Realizes.star (hb : b.Realizes body) (isLazy : Bool) :
    (star isLazy b).Realizes (Tours.star isLazy body) :=
  fun next base => ⟨contained_loop hb isLazy next base (.inl rfl),
    (hb base (base + 1)).leads.star isLazy⟩

theorem Realizes.plus (hb : b.Realizes body) (isLazy : Bool) :
    (plus isLazy b).Realizes (body * Tours.star isLazy body) :=
  fun next base => ⟨contained_loop hb isLazy next base (.inr rfl),
    (hb base (base + 1)).leads.plus isLazy⟩

theorem Realizes.optional (hb : b.Realizes body) (isLazy : Bool) (n : Nat) :
    (optional isLazy b n).Realizes (Tours.optional isLazy body n) := by
  intro next base
  induction n with
  | zero => exact realizes_skip next base
  | succ n ih => exact ih.optionally hb isLazy

theorem Realizes.copies {last : Language Motion} (hb : b.Realizes body) (hc : c.Realizes last)
    (n : Nat) : (copies b c n).Realizes (body ^ n * last) := by
  intro next base
  induction n with
  | zero =>
    rw [pow_zero, one_mul]
    exact hc next base
  | succ n ih =>
    rw [pow_succ', mul_assoc]
    exact Fragment.Realizes.precede ih hb

theorem Realizes.repeated (hb : b.Realizes body) (q : Quantifier) :
    (repeated b q).Realizes (Tours.repeated body q) := by
  obtain ⟨min, max, isLazy⟩ := q
  cases max with
  | some m => exact hb.copies (hb.optional isLazy (m - min)) min
  | none =>
    cases min with
    | zero =>
      have hstar := hb.star isLazy
      unfold Tours.repeated
      rw [pow_zero, one_mul]
      exact hstar
    | succ n =>
      -- the last copy and the loop share their nodes
      have hplus := hb.copies (hb.plus isLazy) n
      rw [← mul_assoc, ← pow_succ] at hplus
      exact hplus

/-- **Every path through the fragment of a pattern is a tour.** -/
theorem realizes_ofPattern (p : Pattern) : (ofPattern p).Realizes p.tours := by
  induction p with
  | empty => exact realizes_skip
  | char c => exact realizes_consume _
  | set ranges => exact realizes_consume ranges
  | any => exact realizes_consume _
  | seq left right ihl ihr => exact ihl.seq ihr
  | alt left right ihl ihr => exact ihl.alt ihr
  | repeated body q ih => exact ih.repeated q
  | group index body ih => exact ih.group index

end Blueprint

namespace Automaton

variable (n : NumberedPattern)

theorem holds_ofPattern : (ofPattern n).Holds 1
    (Blueprint.group 0 (Blueprint.ofPattern n.pattern) final 1).nodes := by
  have hall : (ofPattern n).Holds 0 (ofPattern n).nodes := fun i node hi => by
    rwa [Nat.zero_add]
  exact (holds_append.1 hall).2

theorem getElem?_ofPattern_final : (ofPattern n).nodes[final]? = some .accept := by
  unfold ofPattern
  rw [Array.getElem?_append_left (Nat.zero_lt_one)]
  rfl

/-- The nodes of the automaton of a pattern: the accepting one, and those of group zero. -/
theorem mem_ofPattern {i : Nat} {node : Node} (h : (ofPattern n).nodes[i]? = some node) :
    i = final ∧ node = .accept ∨
      i ≠ final ∧
        node ∈ (Blueprint.group 0 (Blueprint.ofPattern n.pattern) final 1).nodes := by
  by_cases hi : i = final
  · subst hi
    rw [getElem?_ofPattern_final] at h
    exact .inl ⟨rfl, (Option.some.inj h).symm⟩
  · refine .inr ⟨hi, ?_⟩
    unfold ofPattern at h
    rw [Array.getElem?_append_right (Nat.pos_of_ne_zero hi)] at h
    exact Array.mem_of_getElem? h

theorem closed_ofPattern : (ofPattern n).Closed := by
  have hwhole := (Blueprint.realizes_ofPattern n.pattern).group 0 final 1
  have hsize : (ofPattern n).nodes.size =
      1 + (Blueprint.group 0 (Blueprint.ofPattern n.pattern) final 1).nodes.size :=
    Array.size_append
  have hfinal : final = 0 := rfl
  constructor
  · have hstart : (ofPattern n).start =
        (Blueprint.group 0 (Blueprint.ofPattern n.pattern) final 1).entry := rfl
    have := hwhole.entry
    omega
  · intro i node hn t ht
    rcases mem_ofPattern n hn with ⟨-, rfl⟩ | ⟨-, hmem⟩
    · cases ht
    · have := hwhole.targets node hmem t ht
      omega

/-- Only the node that comes first accepts. -/
theorem accept_ofPattern_iff {i : Nat} :
    (ofPattern n).nodes[i]? = some .accept ↔ i = final := by
  constructor
  · intro h
    rcases mem_ofPattern n h with ⟨hi, -⟩ | ⟨-, hmem⟩
    · exact hi
    · exact absurd hmem ((Blueprint.realizes_ofPattern n.pattern).group 0 final 1).accept
  · rintro rfl
    exact getElem?_ofPattern_final n

/-- **The accepting paths of a pattern are its tours.** -/
theorem path_ofPattern_iff {ms : List Motion} :
    (ofPattern n).Path (ofPattern n).start ms final ↔ ms ∈ (Pattern.group 0 n.pattern).tours := by
  have hwhole := (Blueprint.realizes_ofPattern n.pattern).group 0 final 1
  have hfinal : final = 0 := rfl
  constructor
  · intro h
    obtain ⟨tour, htour, rest, rfl, hrest⟩ := hwhole.leads.complete _ (holds_ofPattern n)
      (by omega) ms final h (by omega)
    -- the accepting node is left by no step
    cases hrest with
    | refl =>
      rw [List.append_nil]
      exact htour
    | step first =>
      have hnode := getElem?_ofPattern_final n
      cases first <;> simp_all
  · exact hwhole.leads.sound _ (holds_ofPattern n) ms

end Automaton

end Submatch
