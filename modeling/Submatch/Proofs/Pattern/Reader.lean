import Submatch.Pattern.Reader
import Submatch.Proofs.Fault
import Submatch.Proofs.Pattern.Bracket
import Submatch.Proofs.Pattern.Tours

/-!
# What the reader lets through

A property that is kept by every way in which the reader puts patterns together (`Reader.Preserves`)
holds of whatever has been read, since every character keeps the reader to it (`Reader.Keeps`). So
it holds of the patterns that are read (`NumberedPattern.read_induction`). The property may depend
on how many more groups may be opened, of which there are as many at first as groups may be nested.

One such property is that no repetition asks for more than it allows, so patterns that are read are
bounded (`NumberedPattern.read_sound`).
-/

namespace Submatch

/-- The bounds of a repetition that the reader lets through: they ascend, and they do not exceed the
limit, unless they are those of a plus or a question mark, for which it is not checked. -/
structure Limits.Allows (limits : Limits) (min : Nat) (max : Option Nat) : Prop where
  ascend : ∀ m ∈ max, min ≤ m
  bound : (min ≤ limits.maxRepetition ∧ ∀ m ∈ max, m ≤ limits.maxRepetition) ∨
    limits.maxRepetition = 0 ∧ (min = 1 ∧ max = none ∨ min = 0 ∧ max = some 1)

namespace Limits

variable {limits : Limits}

theorem allows_star : limits.Allows 0 none := ⟨nofun, .inl ⟨Nat.zero_le _, nofun⟩⟩

theorem allows_plus : limits.Allows 1 none := by
  refine ⟨nofun, ?_⟩
  rcases Nat.eq_zero_or_pos limits.maxRepetition with hzero | hpos
  · exact .inr ⟨hzero, .inl ⟨rfl, rfl⟩⟩
  · exact .inl ⟨hpos, nofun⟩

theorem allows_question : limits.Allows 0 (some 1) := by
  refine ⟨fun m _ => Nat.zero_le m, ?_⟩
  rcases Nat.eq_zero_or_pos limits.maxRepetition with hzero | hpos
  · exact .inr ⟨hzero, .inr ⟨rfl, rfl⟩⟩
  · refine .inl ⟨Nat.zero_le _, fun m hm => ?_⟩
    obtain rfl := Option.mem_some.1 hm
    exact hpos

end Limits

/-- The patterns read so far have a property. -/
structure Branches.Keeps (P : Pattern → Prop) (b : Branches) : Prop where
  done : ∀ p ∈ b.done, P p
  items : ∀ p ∈ b.items, P p

/-- What has been begun has a property, where `room` more groups may be opened. -/
def ReaderMode.Keeps (limits : Limits) (P : Nat → Pattern → Prop) (room : Nat) :
    ReaderMode → Prop
  | .atom p | .counter p _ => P room p
  | .repeated p min max => limits.Allows min max ∧ P room p
  | .paren _ | .parenMark _ => 0 < room
  | .item | .escape _ | .bracket _ => True

/-- What has been read around the open groups has a property. -/
def OpenGroup.Keep (limits : Limits) (P : Nat → Pattern → Prop) : List OpenGroup → Prop
  | [] => True
  | g :: outer =>
    g.around.Keeps (P (limits.maxNesting - outer.length)) ∧ OpenGroup.Keep limits P outer

namespace Reader

/-- The property is kept by whatever the reader does to put patterns together, where `room` more
groups may be opened. -/
structure Preserves (limits : Limits) (P : Nat → Pattern → Prop) : Prop where
  empty : ∀ room, P room .empty
  char : ∀ room c, P room (.char c)
  any : ∀ room, P room .any
  shorthand : ∀ room (s : Shorthand), P room (.set s.ranges)
  bracket : ∀ room (b : Bracket), P room (.set b.ranges)
  seq : ∀ room p q, P room p → P room q → P room (.seq p q)
  alt : ∀ room p q, P room p → P room q → P room (.alt p q)
  repeated : ∀ room p (q : Quantifier), limits.Allows q.min q.max → P room p →
    P room (.repeated p q)
  group : ∀ room index p, P room p → P (room + 1) (.group index p)
  weaken : ∀ room p, P room p → P (room + 1) p

/-- How many more groups may be opened. -/
def room (limits : Limits) (r : Reader) : Nat := limits.maxNesting - r.groups.length

/-- A reader in which everything read so far has a property. -/
structure Keeps (limits : Limits) (P : Nat → Pattern → Prop) (r : Reader) : Prop where
  parents : 0 < r.parents.size
  depth : r.groups.length ≤ limits.maxNesting
  mode : r.mode.Keeps limits P (r.room limits)
  branches : r.branches.Keeps (P (r.room limits))
  groups : OpenGroup.Keep limits P r.groups

variable {limits : Limits} {P : Nat → Pattern → Prop}

namespace Preserves

variable {room : Nat}

theorem seqAll (hP : Preserves limits P) {ps : List Pattern} (h : ∀ p ∈ ps, P room p) :
    P room (.seqAll ps) := by
  induction ps with
  | nil => exact hP.empty room
  | cons p ps ih =>
    obtain ⟨hp, hps⟩ := List.forall_mem_cons.1 h
    cases ps with
    | nil => exact hp
    | cons q rest => exact hP.seq _ _ _ hp (ih hps)

theorem altAll (hP : Preserves limits P) {ps : List Pattern} (h : ∀ p ∈ ps, P room p) :
    P room (.altAll ps) := by
  induction ps with
  | nil => exact hP.empty room
  | cons p ps ih =>
    obtain ⟨hp, hps⟩ := List.forall_mem_cons.1 h
    cases ps with
    | nil => exact hp
    | cons q rest => exact hP.alt _ _ _ hp (ih hps)

theorem current (hP : Preserves limits P) {b : Branches} (h : b.Keeps (P room)) :
    P room b.current :=
  hP.seqAll fun p hp => h.items p (List.mem_reverse.1 hp)

theorem bar (hP : Preserves limits P) {b : Branches} (h : b.Keeps (P room)) :
    b.bar.Keeps (P room) :=
  ⟨List.forall_mem_cons.2 ⟨hP.current h, h.done⟩, nofun⟩

theorem pattern (hP : Preserves limits P) {b : Branches} (h : b.Keeps (P room)) :
    P room b.pattern :=
  hP.altAll fun p hp => by
    rcases List.mem_cons.1 (List.mem_reverse.1 hp) with rfl | hp
    · exact hP.current h
    · exact h.done p hp

/-- A group that is closed leaves room for one more. -/
theorem close (hP : Preserves limits P) (g : OpenGroup) {p : Pattern} (hp : P room p) :
    P (room + 1) (g.close p) := by
  unfold OpenGroup.close
  split
  · exact hP.group _ _ _ hp
  · exact hP.weaken _ _ hp

end Preserves

variable {r r' : Reader} {p : Pattern} {c : Char}

theorem keeps_fresh (P : Pattern → Prop) : Branches.fresh.Keeps P := ⟨nofun, nofun⟩

theorem keeps_initial (limits : Limits) (P : Nat → Pattern → Prop) : initial.Keeps limits P :=
  ⟨Nat.zero_lt_one, Nat.zero_le _, trivial, keeps_fresh _, trivial⟩

theorem Keeps.enter (h : r.Keeps limits P) {mode : ReaderMode}
    (hmode : mode.Keeps limits P (r.room limits)) : (r.enter mode).Keeps limits P :=
  ⟨h.parents, h.depth, hmode, h.branches, h.groups⟩

theorem Keeps.push (h : r.Keeps limits P) (hp : P (r.room limits) p) :
    (r.push p).Keeps limits P :=
  ⟨h.parents, h.depth, trivial,
    ⟨h.branches.done, List.forall_mem_cons.2 ⟨hp, h.branches.items⟩⟩, h.groups⟩

theorem Keeps.openGroup (h : r.Keeps limits P) (hroom : 0 < r.room limits) (start : Nat)
    (capture : Option Nat) : (r.openGroup start capture).Keeps limits P :=
  ⟨h.parents, Nat.lt_of_sub_pos hroom, trivial, keeps_fresh _, h.branches, h.groups⟩

theorem Keeps.openCapture (h : r.Keeps limits P) (hroom : 0 < r.room limits) (start : Nat) :
    (r.openCapture start).Keeps limits P := by
  obtain ⟨-, hdepth, hmode, hbranches, hgroups⟩ := h.openGroup hroom start (some r.parents.size)
  refine ⟨?_, hdepth, hmode, hbranches, hgroups⟩
  show 0 < (r.parents.push r.enclosing).size
  rw [Array.size_push]
  exact Nat.succ_pos _

theorem Keeps.foldl_push (hP : Preserves limits P) (h : r.Keeps limits P) (cs : List Char) :
    (cs.foldl (fun r c => r.push (.char c)) r).Keeps limits P := by
  induction cs generalizing r with
  | nil => exact h
  | cons c cs ih => exact ih (h.push (hP.char _ c))

theorem Keeps.breakCounter (hP : Preserves limits P) (h : r.Keeps limits P)
    (hp : P (r.room limits) p) (k : Counter) : (r.breakCounter p k).Keeps limits P :=
  ((h.push hp).foldl_push hP _).enter (hP.char _ k.last)

/-- Completing items opens and closes no group. -/
theorem foldl_push_frame (r : Reader) (cs : List Char) :
    (cs.foldl (fun r c => r.push (.char c)) r).parents = r.parents ∧
      (cs.foldl (fun r c => r.push (.char c)) r).groups = r.groups := by
  induction cs generalizing r with
  | nil => exact ⟨rfl, rfl⟩
  | cons c cs ih => exact ih (r.push (.char c))

theorem settle_frame (r : Reader) :
    r.settle.parents = r.parents ∧ r.settle.groups = r.groups := by
  unfold settle
  split
  · exact ⟨rfl, rfl⟩
  next p k _ => exact foldl_push_frame (r.push p) k.earlier.reverse
  · exact ⟨rfl, rfl⟩
  · exact ⟨rfl, rfl⟩

theorem Keeps.settle (hP : Preserves limits P) (h : r.Keeps limits P) :
    r.settle.Keeps limits P := by
  unfold Reader.settle
  have hmode := h.mode
  split
  next p heq =>
    rw [heq] at hmode
    exact h.push hmode
  next p k heq =>
    rw [heq] at hmode
    exact (h.breakCounter hP hmode k).push (hP.char _ k.last)
  next p min max heq =>
    rw [heq] at hmode
    exact h.push (hP.repeated _ _ ⟨min, max, false⟩ hmode.1 hmode.2)
  next => exact h

theorem Keeps.readItem (hP : Preserves limits P) (h : r.Keeps limits P)
    (hread : r.readItem limits c = .ok r') : r'.Keeps limits P := by
  unfold Reader.readItem at hread
  split at hread
  · split at hread
    · cases hread
    next hdepth =>
      cases hread
      exact h.enter (Nat.sub_pos_of_lt (Nat.le_of_not_lt hdepth))
  · split at hread
    next => cases hread
    next g outer hgroups =>
      cases hread
      have hdepth := h.depth
      have hbody := hP.pattern h.branches
      have hall := h.groups
      unfold Reader.room at hbody
      rw [hgroups] at hdepth hbody hall
      rw [List.length_cons] at hdepth hbody
      have hroom : limits.maxNesting - outer.length =
          limits.maxNesting - (outer.length + 1) + 1 := by omega
      have hitem : P (limits.maxNesting - outer.length) (g.close r.branches.pattern) := by
        rw [hroom]
        exact hP.close g hbody
      exact ⟨h.parents, Nat.le_of_succ_le hdepth, hitem, hall.1, hall.2⟩
  · cases hread
    exact ⟨h.parents, h.depth, h.mode, hP.bar h.branches, h.groups⟩
  · cases hread
    exact h.enter trivial
  · cases hread
    exact h.enter (hP.any _)
  · cases hread
    exact h.enter trivial
  · cases hread
  · cases hread
  · cases hread
  · cases hread
    exact h.enter (hP.char _ c)

theorem Keeps.readMark (hP : Preserves limits P) (h : r.Keeps limits P)
    (hp : P (r.room limits) p) (hread : r.readMark limits p c = .ok r') : r'.Keeps limits P := by
  unfold Reader.readMark at hread
  split at hread
  · cases hread
    exact h.enter ⟨Limits.allows_star, hp⟩
  · cases hread
    exact h.enter ⟨Limits.allows_plus, hp⟩
  · cases hread
    exact h.enter ⟨Limits.allows_question, hp⟩
  · cases hread
    exact h.enter hp
  · exact (h.push hp).readItem hP hread

/-- A counter is taken only if its bounds ascend and respect the limit. -/
theorem Keeps.repeatCounted (h : r.Keeps limits P) (hp : P (r.room limits) p)
    {start stop min : Nat} {max : Option Nat}
    (hread : r.repeatCounted limits p start stop min max = .ok r') : r'.Keeps limits P := by
  unfold Reader.repeatCounted at hread
  split at hread
  · cases hread
  next hlimit =>
    split at hread
    · cases hread
    next hbounds =>
      cases hread
      refine h.enter ⟨⟨fun m hm => ?_, .inl ⟨?_, fun m hm => ?_⟩⟩, hp⟩
      · obtain rfl := Option.mem_def.1 hm
        exact Nat.le_of_not_lt fun hlt => hbounds (by simpa using hlt)
      · exact Nat.le_of_not_lt fun hlt => hlimit (by simp [hlt])
      · obtain rfl := Option.mem_def.1 hm
        exact Nat.le_of_not_lt fun hlt => hlimit (by simp [hlt])

theorem Keeps.take (hP : Preserves limits P) (h : r.Keeps limits P)
    (hread : r.take limits c = .ok r') : r'.Keeps limits P := by
  have hmode := h.mode
  unfold Reader.take at hread
  split at hread
  next => exact h.readItem hP hread
  next p heq =>
    rw [heq] at hmode
    exact h.readMark hP hmode hread
  next p k heq =>
    rw [heq] at hmode
    split at hread
    · cases hread
      exact h.enter hmode
    · exact h.repeatCounted hmode hread
    · -- a broken counter stands for its characters
      exact (h.breakCounter hP hmode k).readMark hP (hP.char _ k.last) hread
  next p min max heq =>
    rw [heq] at hmode
    split at hread
    · cases hread
      exact h.push (hP.repeated _ _ ⟨min, max, true⟩ hmode.1 hmode.2)
    · exact (h.settle hP).readItem hP hread
  next =>
    split at hread
    next s _ =>
      cases hread
      exact h.enter (hP.shorthand _ s)
    next =>
      cases hread
      exact h.enter (hP.char _ _)
  next start heq =>
    rw [heq] at hmode
    split at hread
    · cases hread
      exact h.enter hmode
    · exact (h.openCapture hmode start).readItem hP hread
  next start heq =>
    rw [heq] at hmode
    split at hread
    · cases hread
      exact h.openGroup hmode start none
    · cases hread
  next b heq =>
    obtain ⟨next, hstep, hread⟩ := bind_eq_ok.1 hread
    cases next with
    | more b =>
      cases hread
      exact h.enter trivial
    | closed ranges =>
      cases hread
      obtain ⟨b', rfl⟩ := Bracket.exists_ranges_of_closed hstep
      exact h.enter (hP.bracket _ b')

theorem Keeps.step (hP : Preserves limits P) (h : r.Keeps limits P)
    (hread : r.step limits c = .ok r') : r'.Keeps limits P := by
  obtain ⟨next, htake, hread⟩ := bind_eq_ok.1 hread
  cases hread
  obtain ⟨hparents, hdepth, hmode, hbranches, hgroups⟩ := h.take hP htake
  exact ⟨hparents, hdepth, hmode, hbranches, hgroups⟩

/-- **Every text read keeps the reader to the property.** -/
theorem Keeps.run (hP : Preserves limits P) (h : r.Keeps limits P) {text : List Char}
    (hread : r.run limits text = .ok r') : r'.Keeps limits P :=
  foldlM_keeps (fun _ _ _ hr hstep => hr.step hP hstep) h hread

theorem Keeps.finish (hP : Preserves limits P) (h : r.Keeps limits P) {n : NumberedPattern}
    (hread : r.finish = .ok n) : 0 < n.parents.size ∧ P limits.maxNesting n.pattern := by
  unfold Reader.finish at hread
  split at hread
  · cases hread
  · cases hread
  · cases hread
  · cases hread
  · split at hread
    next hgroups =>
      cases hread
      have hpattern := hP.pattern (h.settle hP).branches
      have hroom : r.settle.room limits = limits.maxNesting := by
        rw [Reader.room, (settle_frame r).2, hgroups, List.length_nil, Nat.sub_zero]
      rw [hroom] at hpattern
      exact ⟨h.parents, hpattern⟩
    next => cases hread

end Reader

/-- A pattern with a table of groups that can be compiled and run. -/
structure NumberedPattern.Sound (n : NumberedPattern) : Prop where
  parents : 0 < n.parents.size
  bounded : n.pattern.Bounded

namespace NumberedPattern

variable {limits : Limits} {text : String} {n : NumberedPattern}

/-- What is read is what the reader makes of the whole text in the end. -/
theorem read_eq_ok : read limits text = .ok n ↔
    ∃ r, Reader.initial.run limits text.toList = .ok r ∧ r.finish = .ok n := by
  rw [← bind_eq_ok]
  unfold read readChars
  show Except.mapError _ (Reader.initial.run limits text.toList >>= Reader.finish) = _ ↔ _
  cases Reader.initial.run limits text.toList >>= Reader.finish <;> simp [Except.mapError]

/-- **What the reader preserves holds of what is read.** -/
theorem read_induction {P : Nat → Pattern → Prop} (hP : Reader.Preserves limits P)
    (h : read limits text = .ok n) : 0 < n.parents.size ∧ P limits.maxNesting n.pattern := by
  obtain ⟨r, hrun, hfinish⟩ := read_eq_ok.1 h
  exact ((Reader.keeps_initial limits P).run hP hrun).finish hP hfinish

theorem preserves_bounded (limits : Limits) : Reader.Preserves limits fun _ p => p.Bounded where
  empty := fun _ => trivial
  char := fun _ _ => trivial
  any := fun _ => trivial
  shorthand := fun _ _ => trivial
  bracket := fun _ _ => trivial
  seq := fun _ _ _ hp hq => ⟨hp, hq⟩
  alt := fun _ _ _ hp hq => ⟨hp, hq⟩
  repeated := fun _ _ _ hq hp => ⟨hq.ascend, hp⟩
  group := fun _ _ _ hp => hp
  weaken := fun _ _ hp => hp

/-- **What is read is sound.** -/
theorem read_sound (h : read limits text = .ok n) : n.Sound := by
  obtain ⟨hparents, hbounded⟩ := read_induction (preserves_bounded limits) h
  exact ⟨hparents, hbounded⟩

end NumberedPattern

end Submatch
