import Submatch.Proofs.Pattern.Reader

/-!
# The numbering of groups

`Pattern.captures` lists the capturing groups of a pattern in the order in which they open, each
with the group around it. The reader gives out the numbers in that order and notes every group
around in the table of parents, so at any time the groups read so far are those of the table
(`Reader.Numbered`).

* `NumberedPattern.read_numbered`: what is read is numbered in preorder, and the table of parents
  is the table of its nesting;
* `NumberedPattern.Numbered.hosted`: so the parent of every group is the group around it, and has
  a smaller number.
-/

namespace Submatch

namespace Pattern

/-- The capturing groups of a pattern in the order in which they open, each with the innermost
group around it, where `host` is the group around the pattern. -/
def captures (host : Nat) : Pattern → List (Nat × Nat)
  | empty | char _ | set _ | any => []
  | seq left right | alt left right => left.captures host ++ right.captures host
  | repeated body _ => body.captures host
  | group index body => (index, host) :: body.captures index

variable {host : Nat}

theorem captures_seqAll (ps : List Pattern) :
    (seqAll ps).captures host = ps.flatMap (captures host) := by
  induction ps with
  | nil => rfl
  | cons p ps ih =>
    cases ps with
    | nil => rw [seqAll_singleton, List.flatMap_singleton]
    | cons q rest =>
      rw [seqAll_cons_cons, captures, ih]
      rfl

theorem captures_altAll (ps : List Pattern) :
    (altAll ps).captures host = ps.flatMap (captures host) := by
  induction ps with
  | nil => rfl
  | cons p ps ih =>
    cases ps with
    | nil => rw [altAll_singleton, List.flatMap_singleton]
    | cons q rest =>
      rw [altAll_cons_cons, captures, ih]
      rfl

/-- In preorder a group opens after the one around it, and so its number is larger. -/
theorem host_lt {p : Pattern} {first count : Nat}
    (h : (p.captures host).map Prod.fst = List.range' first count) (hhost : host < first) :
    ∀ e ∈ p.captures host, e.2 < e.1 := by
  induction p generalizing host first count with
  | empty | char c | set ranges | any => nofun
  | seq left right ihl ihr | alt left right ihl ihr =>
    rw [captures, List.map_append, eq_comm, List.range'_eq_append_iff] at h
    obtain ⟨k, -, hleft, hright⟩ := h
    intro e he
    rcases List.mem_append.1 he with he | he
    · exact ihl hleft hhost e he
    · exact ihr hright (by omega) e he
  | repeated body q ih => exact ih h hhost
  | group index body ih =>
    rw [captures, List.map_cons, eq_comm, List.range'_eq_cons_iff] at h
    obtain ⟨rfl, -, hbody⟩ := h
    exact List.forall_mem_cons.2 ⟨hhost, ih hbody (Nat.lt_succ_self first)⟩

end Pattern

/-- The groups of the patterns read so far. -/
def Branches.captures (host : Nat) (b : Branches) : List (Nat × Nat) :=
  (b.items ++ b.done).reverse.flatMap (Pattern.captures host)

/-- The item that has been begun and may still be repeated, if there is one. -/
def ReaderMode.pending : ReaderMode → List Pattern
  | .atom p | .counter p _ | .repeated p _ _ => [p]
  | .item | .escape _ | .paren _ | .parenMark _ | .bracket _ => []

namespace Branches

variable {host : Nat} {b : Branches}

theorem captures_push (p : Pattern) :
    (b.push p).captures host = b.captures host ++ p.captures host := by
  simp [captures, push]

theorem captures_current :
    b.current.captures host = b.items.reverse.flatMap (Pattern.captures host) :=
  Pattern.captures_seqAll _

theorem captures_bar : b.bar.captures host = b.captures host := by
  unfold captures bar
  simp [captures_current]

theorem captures_pattern : b.pattern.captures host = b.captures host := by
  unfold pattern captures
  rw [Pattern.captures_altAll]
  simp [captures_current]

end Branches

namespace Reader

/-- The innermost capturing group among the open ones. -/
def around (groups : List OpenGroup) : Nat := (groups.findSome? (·.capture)).getD 0

/-- The groups that have been read around the innermost open group, with those that are open. -/
def openCaptures : List OpenGroup → List (Nat × Nat)
  | [] => []
  | g :: outer =>
    openCaptures outer ++ g.around.captures (around outer) ++
      g.capture.toList.map fun index => (index, around outer)

/-- The groups of everything completed so far. -/
def completed (r : Reader) : List (Nat × Nat) :=
  openCaptures r.groups ++ r.branches.captures r.enclosing

/-- The groups of everything read so far. -/
def captures (r : Reader) : List (Nat × Nat) :=
  r.completed ++ r.mode.pending.flatMap (Pattern.captures r.enclosing)

/-- The groups read so far have the numbers from one on, and the table says what is around
them. -/
structure Numbered (r : Reader) : Prop where
  indices : r.captures.map Prod.fst = List.range' 1 r.captures.length
  hosts : r.parents.toList = 0 :: r.captures.map Prod.snd

variable {r r' : Reader} {limits : Limits} {p : Pattern} {c : Char}

/-- Whatever reads no group and opens none leaves the numbering as it is. -/
theorem Numbered.congr (h : r.Numbered) (hcaptures : r'.captures = r.captures)
    (hparents : r'.parents = r.parents) : r'.Numbered := by
  refine ⟨?_, ?_⟩
  · rw [hcaptures]
    exact h.indices
  · rw [hcaptures, hparents]
    exact h.hosts

theorem numbered_initial : initial.Numbered := ⟨rfl, rfl⟩

theorem captures_enter (r : Reader) (mode : ReaderMode) :
    (r.enter mode).captures = r.completed ++ mode.pending.flatMap (Pattern.captures r.enclosing) :=
  rfl

theorem captures_push (r : Reader) (p : Pattern) :
    (r.push p).captures = r.completed ++ p.captures r.enclosing := by
  have hpush : (r.push p).captures =
      openCaptures r.groups ++ (r.branches.push p).captures r.enclosing ++ [] := rfl
  rw [hpush, Branches.captures_push, List.append_nil, ← List.append_assoc]
  rfl

/-- Where no item has been begun, everything is complete. -/
theorem captures_of_idle (h : r.mode.pending = []) : r.captures = r.completed := by
  rw [captures, h, List.flatMap_nil, List.append_nil]

theorem captures_of_pending (h : r.mode.pending = [p]) :
    r.captures = r.completed ++ p.captures r.enclosing := by
  rw [captures, h, List.flatMap_singleton]

theorem Numbered.enter (h : r.Numbered) {mode : ReaderMode}
    (hmode : mode.pending = r.mode.pending) : (r.enter mode).Numbered := by
  refine h.congr ?_ rfl
  rw [captures_enter, hmode]
  rfl

/-- An item without groups may be begun. -/
theorem Numbered.begin (h : r.Numbered) (hidle : r.mode.pending = []) {mode : ReaderMode}
    (hmode : mode.pending.flatMap (Pattern.captures r.enclosing) = []) :
    (r.enter mode).Numbered := by
  refine h.congr ?_ rfl
  rw [captures_enter, hmode, List.append_nil, captures_of_idle hidle]

theorem Numbered.push (h : r.Numbered) (hmode : r.mode.pending = [p]) {item : Pattern}
    (hitem : item.captures r.enclosing = p.captures r.enclosing) : (r.push item).Numbered := by
  refine h.congr ?_ rfl
  rw [captures_push, hitem, captures_of_pending hmode]

theorem Numbered.openGroup (h : r.Numbered) (hidle : r.mode.pending = []) (start : Nat) :
    (r.openGroup start none).Numbered := by
  refine h.congr ?_ rfl
  rw [captures_of_idle hidle]
  have hopen : (r.openGroup start none).captures =
      openCaptures r.groups ++ r.branches.captures r.enclosing ++ [] ++ [] ++ [] := rfl
  rw [hopen, List.append_nil, List.append_nil, List.append_nil]
  rfl

/-- A group that opens gets the next number. -/
theorem Numbered.openCapture (h : r.Numbered) (hidle : r.mode.pending = []) (start : Nat) :
    (r.openCapture start).Numbered := by
  have hcaptures : (r.openCapture start).captures =
      r.captures ++ [(r.parents.size, r.enclosing)] := by
    rw [captures_of_idle hidle]
    have hopen : (r.openCapture start).captures =
        r.completed ++ [(r.parents.size, r.enclosing)] ++ [] ++ [] := rfl
    rw [hopen, List.append_nil, List.append_nil]
  have hsize : r.parents.size = 1 + r.captures.length := by
    rw [← Array.length_toList, h.hosts, List.length_cons, List.length_map, Nat.add_comm]
  refine ⟨?_, ?_⟩
  · rw [hcaptures, List.map_append, h.indices, List.length_append, List.length_singleton,
      List.range'_concat, hsize, Nat.one_mul]
    rfl
  · have hparents : (r.openCapture start).parents = r.parents.push r.enclosing := rfl
    rw [hcaptures, hparents, Array.toList_push, h.hosts, List.map_append]
    rfl

/-- The characters of a broken counter are items without groups. -/
theorem completed_foldl_push (r : Reader) (cs : List Char) :
    (cs.foldl (fun r c => r.push (.char c)) r).completed = r.completed := by
  induction cs generalizing r with
  | nil => rfl
  | cons c cs ih =>
    have hpush := captures_push r (.char c)
    rw [captures_of_idle rfl, Pattern.captures, List.append_nil] at hpush
    exact (ih (r.push (.char c))).trans hpush

theorem Numbered.breakCounter (h : r.Numbered) (hmode : r.mode.pending = [p]) (k : Counter) :
    (r.breakCounter p k).Numbered := by
  have hcompleted := completed_foldl_push (r.push p) k.earlier.reverse
  refine h.congr ?_ (foldl_push_frame (r.push p) k.earlier.reverse).1
  unfold Reader.breakCounter
  rw [captures_enter, hcompleted, captures_of_pending hmode, ← captures_push,
    captures_of_idle (r := r.push p) rfl]
  exact List.append_nil _

theorem Numbered.settle (h : r.Numbered) : r.settle.Numbered ∧ r.settle.mode.pending = [] := by
  unfold Reader.settle
  split
  next p heq => exact ⟨h.push (congrArg ReaderMode.pending heq) rfl, rfl⟩
  next p k heq =>
    have hbroken := h.breakCounter (congrArg ReaderMode.pending heq) k
    exact ⟨hbroken.push rfl rfl, rfl⟩
  next p min max heq => exact ⟨h.push (congrArg ReaderMode.pending heq) rfl, rfl⟩
  next hatom hcounter hrepeated =>
    refine ⟨h, ?_⟩
    cases hmode : r.mode with
    | atom p => exact absurd hmode (hatom p)
    | counter p k => exact absurd hmode (hcounter p k)
    | repeated p min max => exact absurd hmode (hrepeated p min max)
    | item | escape start | paren start | parenMark start | bracket b => rfl

/-- A group that is closed is an item with the groups that were read in it. -/
theorem captures_close (g : OpenGroup) (outer : List OpenGroup) (body : Pattern) :
    (g.close body).captures (around outer) =
      (g.capture.toList.map fun index => (index, around outer)) ++
        body.captures (around (g :: outer)) := by
  unfold OpenGroup.close around
  cases hcapture : g.capture with
  | none => simp [hcapture]
  | some index => simp [hcapture, Pattern.captures]

theorem Numbered.readItem (h : r.Numbered) (hidle : r.mode.pending = [])
    (hread : r.readItem limits c = .ok r') : r'.Numbered := by
  unfold Reader.readItem at hread
  split at hread
  · split at hread
    · cases hread
    · cases hread
      exact h.enter hidle.symm
  · split at hread
    next => cases hread
    next g outer hgroups =>
      cases hread
      refine h.congr ?_ rfl
      rw [captures_of_idle hidle, completed, enclosing, hgroups]
      show openCaptures outer ++ g.around.captures (around outer) ++
          [g.close r.branches.pattern].flatMap (Pattern.captures (around outer)) =
        openCaptures (g :: outer) ++ r.branches.captures (around (g :: outer))
      rw [List.flatMap_singleton, captures_close, Branches.captures_pattern, openCaptures]
      simp only [List.append_assoc]
  · cases hread
    refine h.congr ?_ rfl
    show openCaptures r.groups ++ r.branches.bar.captures r.enclosing ++ _ = _
    rw [Branches.captures_bar]
    rfl
  · cases hread
    exact h.begin hidle rfl
  · cases hread
    exact h.begin hidle rfl
  · cases hread
    exact h.begin hidle rfl
  · cases hread
  · cases hread
  · cases hread
  · cases hread
    exact h.begin hidle rfl

theorem Numbered.readMark (h : r.Numbered) (hmode : r.mode.pending = [p])
    (hread : r.readMark limits p c = .ok r') : r'.Numbered := by
  unfold Reader.readMark at hread
  split at hread
  · cases hread
    exact h.enter hmode.symm
  · cases hread
    exact h.enter hmode.symm
  · cases hread
    exact h.enter hmode.symm
  · cases hread
    exact h.enter hmode.symm
  · exact (h.push hmode rfl).readItem rfl hread

/-- **Every character keeps the numbering.** -/
theorem Numbered.take (h : r.Numbered) (hread : r.take limits c = .ok r') : r'.Numbered := by
  unfold Reader.take at hread
  split at hread
  next heq => exact h.readItem (congrArg ReaderMode.pending heq) hread
  next p heq => exact h.readMark (congrArg ReaderMode.pending heq) hread
  next p k heq =>
    have hmode := congrArg ReaderMode.pending heq
    split at hread
    · cases hread
      exact h.enter hmode.symm
    · unfold Reader.repeatCounted at hread
      split at hread
      · cases hread
      · split at hread
        · cases hread
        · cases hread
          exact h.enter hmode.symm
    · exact (h.breakCounter hmode k).readMark rfl hread
  next p min max heq =>
    split at hread
    · cases hread
      exact h.push (congrArg ReaderMode.pending heq) rfl
    · obtain ⟨hsettled, hidle⟩ := h.settle
      exact hsettled.readItem hidle hread
  next start heq =>
    have hidle := congrArg ReaderMode.pending heq
    split at hread
    · cases hread
      exact h.begin hidle rfl
    · cases hread
      exact h.begin hidle rfl
  next start heq =>
    have hidle := congrArg ReaderMode.pending heq
    split at hread
    · cases hread
      exact h.enter hidle.symm
    · exact (h.openCapture hidle start).readItem rfl hread
  next start heq =>
    split at hread
    · cases hread
      exact h.openGroup (congrArg ReaderMode.pending heq) start
    · cases hread
  next b heq =>
    have hidle := congrArg ReaderMode.pending heq
    obtain ⟨next, -, hread⟩ := bind_eq_ok.1 hread
    cases next with
    | more b =>
      cases hread
      exact h.enter hidle.symm
    | closed ranges =>
      cases hread
      exact h.begin hidle rfl

theorem Numbered.step (h : r.Numbered) (hread : r.step limits c = .ok r') : r'.Numbered := by
  obtain ⟨next, htake, hread⟩ := bind_eq_ok.1 hread
  cases hread
  exact (h.take htake).congr rfl rfl

theorem Numbered.run (h : r.Numbered) {text : List Char} (hread : r.run limits text = .ok r') :
    r'.Numbered :=
  foldlM_keeps (fun _ _ _ hr hstep => hr.step hstep) h hread

end Reader

/-- The groups are numbered from one on in the order in which they open, and the table of parents
says which group is around each. -/
structure NumberedPattern.Numbered (n : NumberedPattern) : Prop where
  indices : (n.pattern.captures 0).map Prod.fst = List.range' 1 n.groupCount
  hosts : n.parents.toList = 0 :: (n.pattern.captures 0).map Prod.snd

theorem Reader.Numbered.finish {r : Reader} (h : r.Numbered) {n : NumberedPattern}
    (hread : r.finish = .ok n) : n.Numbered := by
  unfold Reader.finish at hread
  split at hread
  · cases hread
  · cases hread
  · cases hread
  · cases hread
  · split at hread
    next hgroups =>
      cases hread
      obtain ⟨hsettled, hidle⟩ := h.settle
      obtain ⟨hparents, hframe⟩ := Reader.settle_frame r
      -- no group is open, so everything read stands in the outermost branches
      have hcaptures : r.settle.captures = r.settle.branches.pattern.captures 0 := by
        rw [Reader.captures_of_idle hidle, Reader.completed, Reader.enclosing, hframe, hgroups,
          Branches.captures_pattern]
        rfl
      have hhosts := hsettled.hosts
      rw [hcaptures, hparents] at hhosts
      refine ⟨?_, hhosts⟩
      have hcount : r.parents.size - 1 = (r.settle.branches.pattern.captures 0).length := by
        rw [← Array.length_toList, hhosts, List.length_cons, List.length_map, Nat.add_sub_cancel]
      have hindices := hsettled.indices
      rw [hcaptures, ← hcount] at hindices
      exact hindices
    next => cases hread

/-- Every group of a pattern has the group around it as its parent, and a larger number than
that, where `host` is the group around the pattern. -/
def Pattern.Hosted (parents : Array Nat) (host : Nat) (p : Pattern) : Prop :=
  ∀ e ∈ p.captures host, parents[e.1]? = some e.2 ∧ e.2 < e.1

namespace NumberedPattern

variable {n : NumberedPattern}

/-- **What is read is numbered in preorder.** -/
theorem read_numbered {limits : Limits} {text : String} (h : read limits text = .ok n) :
    n.Numbered := by
  obtain ⟨r, hrun, hfinish⟩ := read_eq_ok.1 h
  exact (Reader.numbered_initial.run hrun).finish hfinish

/-- The table of parents lists the groups in the order of their numbers. -/
theorem Numbered.getElem?_parents (h : n.Numbered) (i : Nat) :
    n.parents[i + 1]? = ((n.pattern.captures 0)[i]?).map Prod.snd := by
  rw [← Array.getElem?_toList, h.hosts, List.getElem?_cons_succ, List.getElem?_map]

theorem Numbered.length_captures (h : n.Numbered) :
    (n.pattern.captures 0).length = n.groupCount := by
  rw [← List.length_map Prod.fst, h.indices, List.length_range']

/-- The table of parents is known from the pattern. -/
theorem Numbered.eq_of_hosts (h : n.Numbered) {n' : NumberedPattern}
    (hhosts : n'.parents.toList = 0 :: (n'.pattern.captures 0).map Prod.snd)
    (hpattern : n.pattern = n'.pattern) : n = n' := by
  obtain ⟨p, parents⟩ := n
  obtain ⟨p', parents'⟩ := n'
  obtain rfl : p = p' := hpattern
  have hparents : parents.toList = parents'.toList := h.hosts.trans hhosts.symm
  rw [Array.toList_inj.1 hparents]

/-- The parent of every group is the group around it. -/
theorem Numbered.hosted (h : n.Numbered) : n.pattern.Hosted n.parents 0 := by
  intro e he
  refine ⟨?_, Pattern.host_lt h.indices Nat.zero_lt_one e he⟩
  obtain ⟨i, hi, rfl⟩ := List.mem_iff_getElem.1 he
  have hindex := congrArg (·[i]?) h.indices
  simp only [List.getElem?_map, List.getElem?_eq_getElem hi, Option.map_some] at hindex
  rw [List.getElem?_range' (by rw [← h.length_captures]; exact hi), Option.some_inj] at hindex
  rw [hindex, Nat.one_mul, Nat.add_comm, h.getElem?_parents, List.getElem?_eq_getElem hi]
  rfl

/-- Every group but the outermost one has a parent with a smaller number. -/
theorem Numbered.parent_lt (h : n.Numbered) {g : Nat} (hg : 0 < g) (hlt : g < n.parents.size) :
    ∃ host, n.parents[g]? = some host ∧ host < g := by
  obtain ⟨i, rfl⟩ := Nat.exists_eq_succ_of_ne_zero hg.ne'
  have hi : i < (n.pattern.captures 0).length := by
    rw [h.length_captures]
    have hcount : n.groupCount = n.parents.size - 1 := rfl
    omega
  have hindex := congrArg (·[i]?) h.indices
  simp only [List.getElem?_map, List.getElem?_eq_getElem hi, Option.map_some] at hindex
  rw [List.getElem?_range' (by rw [← h.length_captures]; exact hi), Option.some_inj] at hindex
  obtain ⟨hparent, hless⟩ := h.hosted _ (List.getElem_mem hi)
  rw [hindex, Nat.one_mul, Nat.add_comm] at hparent hless
  exact ⟨_, hparent, hless⟩

end NumberedPattern

end Submatch
