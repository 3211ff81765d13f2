import Submatch.Automaton.Builder
import Submatch.Proofs.Fault

/-!
# What a builder lays

A part of a pattern is laid behind the nodes that are there, and is the fragment of the part
(`Builder.emits_emit`): a loop leaves its placeholder linked behind its body. So the automaton of a
pattern can always be built, and it is `Automaton.ofPattern` (`Builder.compile_eq`).
-/

namespace Submatch.Builder

/-- A builder lays a fragment behind the nodes that are there, and returns where it is entered. -/
def Lays (x : Builder Nat) (arena : Arena) (f : Fragment) : Prop :=
  x.run arena = .ok (f.entry, arena ++ f.nodes.map some)

/-- Wherever the part goes on, it lays the fragment of the blueprint. -/
def Emits (part : (next : Nat) → Builder Nat) (b : Blueprint) : Prop :=
  ∀ next arena, Lays (part next) arena (b next arena.size)

variable {x : Builder Nat} {arena : Arena} {f : Fragment} {part first second : Nat → Builder Nat}
  {b c : Blueprint}

theorem run_bind_of_run {α β : Type} {y : Builder α} {arena arena' : Arena} {a : α}
    (h : y.run arena = .ok (a, arena')) (rest : α → Builder β) :
    (y >>= rest).run arena = (rest a).run arena' := by
  rw [StateT.run_bind, h]
  rfl

theorem lays_return (next : Nat) (arena : Arena) : Lays (pure next) arena ⟨#[], next⟩ := by
  unfold Lays
  simp only [Array.map_empty, Array.append_empty]
  rfl

theorem run_push (node : Node) (arena : Arena) :
    (push node).run arena = .ok (arena.size, arena.push (some node)) := rfl

/-- One more node is laid behind a fragment. -/
theorem Lays.add (h : Lays x arena f) (node : Nat → Node) :
    Lays (x >>= fun entry => push (node entry)) arena (f.add arena.size (node f.entry)) := by
  unfold Lays
  rw [run_bind_of_run h, run_push]
  simp [Fragment.add]

/-- One more part is laid behind a fragment. -/
theorem Lays.precede (h : Lays x arena f) (hb : Emits part b) :
    Lays (x >>= part) arena (f.precede arena.size b) := by
  have hpart := hb f.entry (arena ++ f.nodes.map some)
  unfold Lays at hpart ⊢
  rw [run_bind_of_run h, hpart]
  simp [Fragment.precede]

theorem emits_push (node : Nat → Node) :
    Emits (fun next => push (node next)) fun next base => ⟨#[node next], base⟩ := by
  intro next arena
  unfold Lays
  rw [run_push]
  simp

/-! ### Loops -/

theorem run_link_of_lt {index : Nat} (h : index < arena.size) (node : Node) :
    (link index node).run arena = .ok ((), arena.set index (some node)) := by
  have hlink : (link index node).run arena =
      (if h : index < arena.size then set (arena.set index (some node))
        else throw (.indexOutOfBounds index arena.size) : Builder Unit).run arena := rfl
  rw [hlink, dif_pos h]
  rfl

/-- Behind a placeholder the body of a loop is laid, which returns to it. Then the placeholder is
linked, and the loop is complete. -/
theorem Emits.run_link (h : Emits part b) (isLazy : Bool) (next : Nat) (arena : Arena) {α : Type}
    (rest : Nat → Nat → Builder α) :
    (do
      let fork ← placeholder
      let entry ← part fork
      link fork (Blueprint.forkNode isLazy entry next)
      rest fork entry).run arena =
    (rest arena.size (Blueprint.loop isLazy b next arena.size).entry).run
      (arena ++ (Blueprint.loop isLazy b next arena.size).nodes.map some) := by
  have hhead : placeholder.run arena = .ok (arena.size, arena.push none) := rfl
  have hbody := h arena.size (arena.push none)
  rw [Array.size_push] at hbody
  have hlt : arena.size <
      (arena.push none ++ (b arena.size (arena.size + 1)).nodes.map some).size := by
    rw [Array.size_append, Array.size_push]
    omega
  have hlinked : (arena.push none ++ (b arena.size (arena.size + 1)).nodes.map some).set
      arena.size (some (Blueprint.forkNode isLazy (b arena.size (arena.size + 1)).entry next)) hlt =
        arena ++ (Blueprint.loop isLazy b next arena.size).nodes.map some := by
    simp [Blueprint.loop, Array.set_push]
  rw [run_bind_of_run hhead, run_bind_of_run hbody, run_bind_of_run (run_link_of_lt hlt _), hlinked]
  rfl

theorem Emits.star (h : Emits part b) (isLazy : Bool) :
    Emits (star isLazy part) (Blueprint.star isLazy b) :=
  fun next arena => h.run_link isLazy next arena fun fork _ => pure fork

theorem Emits.plus (h : Emits part b) (isLazy : Bool) :
    Emits (plus isLazy part) (Blueprint.plus isLazy b) :=
  fun next arena => h.run_link isLazy next arena fun _ entry => pure entry

/-! ### Repetitions -/

/-- What one more time adds, many times add again and again. -/
theorem Lays.times (h : Lays x arena f) {step : Fragment → Fragment}
    (hstep : ∀ y g, Lays y arena g → Lays (y >>= part) arena (step g)) (n : Nat) :
    Lays (x >>= times part n) arena (Nat.repeat step n f) := by
  induction n with
  | zero =>
    have hnone : x >>= Builder.times part 0 = x := bind_pure x
    rw [hnone]
    exact h
  | succ n ih =>
    have hmore : x >>= Builder.times part (n + 1) = (x >>= Builder.times part n) >>= part :=
      (bind_assoc ..).symm
    rw [hmore]
    exact hstep _ _ ih

theorem Emits.copies {last : Nat → Builder Nat} (hb : Emits part b) (hc : Emits last c) (n : Nat) :
    Emits (fun next => last next >>= Builder.times part n) (Blueprint.copies b c n) :=
  fun next arena => (hc next arena).times (fun _ _ hg => hg.precede hb) n

theorem Lays.optionally (h : Lays x arena f) (hb : Emits part b) (isLazy : Bool) (stop : Nat) :
    Lays (x >>= Builder.optionally isLazy part stop) arena
      (Blueprint.optionally isLazy b stop arena.size f) := by
  have hone := (h.precede hb).add fun entry => Blueprint.forkNode isLazy entry stop
  rw [bind_assoc] at hone
  exact hone

theorem Emits.optional (hb : Emits part b) (isLazy : Bool) (n : Nat) :
    Emits (fun next => Builder.times (Builder.optionally isLazy part next) n next)
      (Blueprint.optional isLazy b n) := by
  intro next arena
  have hmany := (lays_return next arena).times (fun _ _ hg => hg.optionally hb isLazy next) n
  rw [pure_bind] at hmany
  exact hmany

theorem Emits.repeated (hb : Emits part b) (q : Quantifier) :
    Emits (Builder.repeated part q) (Blueprint.repeated b q) := by
  obtain ⟨min, max, isLazy⟩ := q
  cases max with
  | some m => exact hb.copies (hb.optional isLazy (m - min)) min
  | none =>
    cases min with
    | zero => exact hb.star isLazy
    | succ n => exact hb.copies (hb.plus isLazy) n

/-! ### Patterns -/

theorem Emits.seq (hb : Emits first b) (hc : Emits second c) :
    Emits (fun next => second next >>= first) (Blueprint.seq b c) :=
  fun next arena => (hc next arena).precede hb

theorem Emits.alt (hb : Emits first b) (hc : Emits second c) :
    Emits (fun next => do
      let other ← second next
      let preferred ← first next
      push (.fork preferred other)) (Blueprint.alt b c) := by
  intro next arena
  have hother := hc next arena
  have hpreferred := hb next (arena ++ (c next arena.size).nodes.map some)
  unfold Lays
  rw [run_bind_of_run hother, run_bind_of_run hpreferred, run_push]
  simp [Blueprint.alt, Fragment.add]

theorem Emits.group (hb : Emits part b) (index : Nat) :
    Emits (Builder.group index part) (Blueprint.group index b) := by
  intro next arena
  have hclose := emits_push (fun next => .mark ⟨index, .closing⟩ next) next arena
  have hinner := (hclose.precede hb).add fun entry => .mark ⟨index, .opening⟩ entry
  rw [bind_assoc] at hinner
  exact hinner

/-- **A pattern is laid as its fragment.** -/
theorem emits_emit (p : Pattern) : Emits (emit p) (.ofPattern p) := by
  induction p with
  | empty => exact lays_return
  | char c => exact emits_push fun next => .consume [.ofChar c] next
  | set ranges => exact emits_push fun next => .consume ranges next
  | any => exact emits_push fun next => .consume [.full] next
  | seq left right ihl ihr => exact ihl.seq ihr
  | alt left right ihl ihr => exact ihl.alt ihr
  | repeated body q ih => exact ih.repeated q
  | group index body ih => exact ih.group index

/-- The arena that a builder leaves is full: every placeholder has been linked. -/
theorem run_whole (n : NumberedPattern) :
    (whole n.pattern).run #[] =
      .ok ((Automaton.ofPattern n).start, (Automaton.ofPattern n).nodes.map some) := by
  have hgroup := (emits_emit n.pattern).group 0 Automaton.final #[some .accept]
  unfold whole
  rw [run_bind_of_run (run_push .accept #[])]
  refine Eq.trans hgroup ?_
  simp [Automaton.ofPattern]

/-- **The automaton of a pattern can be built.** -/
theorem compile_eq (n : NumberedPattern) : compile n = .ok (.ofPattern n) := by
  have hlinked : ((Automaton.ofPattern n).nodes.map some).toList.mapM linked =
      .ok (Automaton.ofPattern n).nodes.toList := by
    rw [Array.toList_map, List.mapM_map]
    have hnode : ∀ node ∈ (Automaton.ofPattern n).nodes.toList,
        (linked ∘ some) node = .ok (id node) := fun node _ => rfl
    rw [mapM_ok hnode, List.map_id]
  unfold compile
  rw [run_whole]
  simp only [bind, Except.bind, hlinked]
  rfl

end Submatch.Builder
