import Mathlib.Data.List.Forall2
import Submatch.Proofs.Register.Execution
import Submatch.Proofs.Register.HistoryLog

/-!
# The identity of histories

Histories are told apart by their numbers alone. Whatever is done with them, what is held keeps
to one log of all histories that have been made (`Tracks`): an instruction and a program keep to
it (`apply_grows`, `execute_grows`), so an operation does (`step_tracks`) and any run of them
(`run_tracks`). Hence two histories that are held have the same number if and only if both are
copies of what was made in one birth, and then they are alike in everything (`run_identified`).
-/

namespace Submatch

/-- A source of numbers and the log of what was made with them, all of it before a birth. -/
structure Logged (log : List (History × Birth)) (ids : IdSource) (now : Birth) : Prop where
  recorded : Recorded log
  next : ids.next = log.length % IdSource.capacity
  before : ∀ entry ∈ log, entry.2.Before now

/-- Everything in a register file stems from the lineages that are known of it. -/
structure FileStems (log : List (History × Birth)) (file : RegisterFile)
    (lineages : FileLineages) : Prop where
  balanced : file.slots.IsBalanced
  slots : List.Forall₂ (Stems log) file.slots.toList lineages.slots
  unset : Stems log file.unset lineages.unset

/-- Some histories are added to a log with their births, and a file and the source of numbers
keep to what it is then. -/
structure Grows (log : List (History × Birth)) (made : List History) (births : List Birth)
    (after : RegisterFile × IdSource) (lineages : FileLineages) (now : Birth) : Prop where
  length_eq : made.length = births.length
  logged : Logged (log ++ made.zip births) after.2 now
  stems : FileStems (log ++ made.zip births) after.1 lineages

/-- Everything that is held stems from the lineages that are known of it. The log pairs the
histories that have been made with the births that there were. -/
structure Tracks (w : Holdings) (o : Origins) : Prop where
  length_eq : w.made.length = o.births.length
  logged : Logged (w.made.zip o.births) w.ids o.next
  handles : List.Forall₂ (Stems (w.made.zip o.births)) w.handles o.handles
  files : List.Forall₂ (FileStems (w.made.zip o.births)) w.files o.files

variable {log later : List (History × Birth)} {ids : IdSource} {now : Birth} {h : History}
  {l : Lineage} {file : RegisterFile} {lineages : FileLineages} {w : Holdings} {o : Origins}

/-- Elements of related lists are related. -/
theorem rel_getElem? {α β : Type} {R : α → β → Prop} {as : List α} {bs : List β}
    (h : List.Forall₂ R as bs) (i : Nat) : Option.Rel R as[i]? bs[i]? := by
  induction h generalizing i with
  | nil => exact .none
  | cons hab _ ih =>
    cases i with
    | zero => exact .some hab
    | succ i => exact ih i

/-- Lists stay related where related elements take the place of others. -/
theorem rel_set {α β : Type} {R : α → β → Prop} {as : List α} {bs : List β}
    (h : List.Forall₂ R as bs) (i : Nat) {a : α} {b : β} (hab : R a b) :
    List.Forall₂ R (as.set i a) (bs.set i b) := by
  induction h generalizing i with
  | nil => exact .nil
  | cons hcd hrest ih =>
    cases i with
    | zero => exact .cons hab hrest
    | succ i => exact .cons hcd (ih i)

theorem rel_replicate {α β : Type} {R : α → β → Prop} {a : α} {b : β} (hab : R a b) (n : Nat) :
    List.Forall₂ R (.replicate n a) (.replicate n b) := by
  induction n with
  | zero => exact .nil
  | succ n ih => exact .cons hab ih

namespace Logged

/-- A history is made with the next number. -/
theorem make (hl : Logged log ids now) (hid : h.id = ids.next)
    (hparent : ∀ k, h.parent? = some k → ∃ c, (k, c) ∈ log) :
    Logged (log ++ [(h, now)]) ids.advance now.next where
  recorded := .snoc hl.recorded (hid.trans hl.next) hl.before hparent
  next := by
    rw [IdSource.advance, hl.next, Nat.mod_add_mod, List.length_append, List.length_singleton]
  before := List.forall_mem_append.2
    ⟨fun entry hentry => (hl.before entry hentry).trans now.before_next,
      List.forall_mem_singleton.2 now.before_next⟩

theorem mono (hl : Logged log ids now) {b : Birth} (hb : now.Before b) : Logged log ids b :=
  ⟨hl.recorded, hl.next, fun entry hentry => (hl.before entry hentry).trans hb⟩

/-- A new root. -/
theorem newUnset (hl : Logged log ids now) :
    Logged (log ++ [((History.newUnset ids).1, now)]) (History.newUnset ids).2 now.next ∧
      Stems (log ++ [((History.newUnset ids).1, now)]) (History.newUnset ids).1 [now] := by
  refine ⟨hl.make rfl fun k hk => ?_, .unset ?_⟩
  · cases hk
  · exact List.mem_append_right _ (List.mem_singleton_self _)

/-- A new history on top of one that stems from a lineage. -/
theorem newChild (hl : Logged log ids now) (hs : Stems log h l) (position : Nat) :
    let made := h.newChild position ids
    Logged (log ++ [(made.1, now)]) made.2 now.next ∧
      Stems (log ++ [(made.1, now)]) made.1 (now :: l) := by
  obtain ⟨b, -, hb⟩ := hs.exists_mem
  refine ⟨hl.make rfl fun k hk => ?_, .child ?_ (hs.mono (List.subset_append_left ..))⟩
  · cases hk
    exact ⟨b, hb⟩
  · exact List.mem_append_right _ (List.mem_singleton_self _)

end Logged

namespace FileStems

theorem mono (hf : FileStems log file lineages) (hsub : log ⊆ later) :
    FileStems later file lineages :=
  ⟨hf.balanced, hf.slots.imp fun _ _ => Stems.mono hsub, hf.unset.mono hsub⟩

/-- What a register holds stems from the lineage that is known of it. -/
theorem get (hf : FileStems log file lineages) (register : Nat) :
    Option.Rel (Stems log) (file.get register).toOption lineages.slots[register]? := by
  have hrel := rel_getElem? hf.slots register
  unfold RegisterFile.get
  rw [BalancedArray.get_eq hf.balanced]
  generalize file.slots.toList[register]? = held at hrel ⊢
  cases held <;> exact hrel

/-- A register is given another history and another lineage. -/
theorem put (hf : FileStems log file lineages) (hs : Stems log h l) (target : Nat) :
    Option.Rel (FileStems log) (file.put target h).toOption (lineages.put target l) := by
  -- There are as many lineages as registers, so both refuse the same targets.
  have hsize : file.slots.size = lineages.slots.length := by
    rw [← hf.balanced.length_toList, hf.slots.length_eq]
  unfold FileLineages.put
  by_cases htarget : target < lineages.slots.length
  · obtain ⟨slots, hput, hbalanced, -, hlist⟩ :=
      RegisterFile.exists_put hf.balanced (hsize ▸ htarget) h
    rw [if_pos htarget, hput]
    exact .some ⟨hbalanced, hlist ▸ rel_set hf.slots target hs, hf.unset⟩
  · have hset := BalancedArray.set_eq_error hf.balanced (by omega : file.slots.size ≤ target) h
    unfold RegisterFile.put
    rw [if_neg htarget, hset]
    exact .none

/-- In a fresh file everything stems from one root. -/
theorem fresh {root : History} (hs : Stems log root l) (size : Nat) :
    FileStems log ⟨.replicate size root, root⟩ ⟨.replicate size l, l⟩ where
  balanced := BalancedArray.isBalanced_replicate size root
  slots := by
    rw [BalancedArray.toList_replicate]
    exact rel_replicate hs size
  unset := hs

end FileStems

/-- What an instruction does last: it puts a history in its target. -/
theorem put_grows (made : List History) (births : List Birth) (hlen : made.length = births.length)
    (hl : Logged (log ++ made.zip births) ids now) (hf : FileStems log file lineages)
    (hs : Stems (log ++ made.zip births) h l) {i : Instruction} {target : Nat}
    (hmade : ∀ after : RegisterFile, after.get target = .ok h → i.made after = .ok made) :
    Option.Rel (fun after lineages' => ∃ made, i.made after.1 = .ok made ∧
        Grows log made births after lineages' now)
      (do return (← file.put target h, ids) : Except Fault (RegisterFile × IdSource)).toOption
      (lineages.put target l) := by
  have hput := (hf.mono (List.subset_append_left log (made.zip births))).put hs target
  rw [toOption_bind]
  obtain ⟨hfile, hlineages⟩ | ⟨file', lineages', hfile, hlineages, hstems⟩ := rel_cases hput
  · rw [hfile, hlineages]
    exact .none
  · have hget := RegisterFile.get_put hf.balanced (toOption_eq_some.1 hfile)
    rw [hfile, hlineages]
    exact .some ⟨made, hmade file' hget, hlen, hl, hstems⟩

/-- **One instruction.** It can be executed if the lineages after it exist. The log grows by the
history that it makes, if it makes one. -/
theorem apply_grows (hl : Logged log ids now) (hf : FileStems log file lineages)
    (position : Nat) (i : Instruction) :
    Option.Rel (fun after lineages' => ∃ made, i.made after.1 = .ok made ∧
        Grows log made (i.births now) after lineages' now.next)
      (RegisterFile.apply position (file, ids) i).toOption (lineages.apply now i) := by
  have hkept : Logged (log ++ [].zip []) ids now.next :=
    (List.append_nil log).symm ▸ hl.mono now.before_next
  -- Copying and closing move what is in the log already; the other two make one history.
  cases i with
  | copy source target =>
    simp only [RegisterFile.apply, toOption_bind (file.get source)]
    refine rel_bind (hf.get source) fun h l hs => ?_
    exact put_grows [] [] rfl hkept hf ((List.append_nil log).symm ▸ hs) fun _ _ => rfl
  | set target =>
    obtain ⟨hmade, hs⟩ := hl.newChild hf.unset position
    refine put_grows [_] [now] rfl hmade hf hs fun after hget => ?_
    rw [Instruction.made, hget]
    rfl
  | branch source target =>
    simp only [RegisterFile.apply, toOption_bind (file.get source)]
    refine rel_bind (hf.get source) fun h l hs => ?_
    obtain ⟨hmade, hs⟩ := hl.newChild hs position
    refine put_grows [_] [now] rfl hmade hf hs fun after hget => ?_
    rw [Instruction.made, hget]
    rfl
  | close target =>
    exact put_grows [] [] rfl hkept hf ((List.append_nil log).symm ▸ hf.unset) fun _ _ => rfl

theorem Grows.trans {made later : List History} {births next : List Birth}
    {after last : RegisterFile × IdSource} {lineages' : FileLineages} {b c : Birth}
    (h : Grows log made births after lineages b)
    (hnext : Grows (log ++ made.zip births) later next last lineages' c) :
    Grows log (made ++ later) (births ++ next) last lineages' c := by
  have hlog : log ++ made.zip births ++ later.zip next =
      log ++ (made ++ later).zip (births ++ next) := by
    rw [List.zip_append h.length_eq, List.append_assoc]
  refine ⟨?_, hlog ▸ hnext.logged, hlog ▸ hnext.stems⟩
  rw [List.length_append, List.length_append, h.length_eq, hnext.length_eq]

/-- **A program.** It can be executed if the lineages after it exist. The log grows by what it
makes. -/
theorem execute_grows (hl : Logged log ids now) (hf : FileStems log file lineages)
    (position : Nat) (program : List Instruction) :
    (∃ fault, RegisterFile.made position (file, ids) program = .error fault) ∧
        FileLineages.execute now lineages program = none ∨
      ∃ made after lineages' now', RegisterFile.made position (file, ids) program = .ok made ∧
        file.execute program position ids = .ok after ∧
        FileLineages.execute now lineages program = some lineages' ∧
        now'.operation = now.operation ∧
        Grows log made (now.ofProgram program) after lineages' now' := by
  -- The rest of the program goes on from the log that its first instruction leaves.
  induction program generalizing log ids now file lineages with
  | nil =>
    have hlog : log ++ [].zip [] = log := List.append_nil log
    exact .inr ⟨[], (file, ids), lineages, now, rfl, rfl, rfl, rfl, rfl, hlog.symm ▸ hl,
      hlog.symm ▸ hf⟩
  | cons i rest ih =>
    unfold RegisterFile.execute at ih ⊢
    rw [RegisterFile.made, FileLineages.execute, Birth.ofProgram, List.foldlM_cons]
    obtain ⟨happly, hlineages⟩ | ⟨⟨file₁, ids₁⟩, lineages₁, happly, hlineages, made, hmade,
      hgrows⟩ := rel_cases (apply_grows hl hf position i)
    · obtain ⟨fault, hfault⟩ := toOption_eq_none.1 happly
      rw [hfault, hlineages]
      exact .inl ⟨⟨fault, rfl⟩, rfl⟩
    · rw [toOption_eq_some.1 happly, hlineages]
      obtain ⟨⟨fault, hfault⟩, hnone⟩ | ⟨later, last, lineages', now', hlater, hexec, hsome, hop,
        hlast⟩ := ih hgrows.logged hgrows.stems
      · refine .inl ⟨⟨fault, ?_⟩, hnone⟩
        simp only [bind, Except.bind, hmade, hfault]
      · refine .inr ⟨made ++ later, last, lineages', now', ?_, hexec, hsome, hop,
          hgrows.trans hlast⟩
        simp only [bind, Except.bind, pure, Except.pure, hmade, hlater]

namespace Tracks

theorem empty : Tracks .empty .empty where
  length_eq := rfl
  logged := ⟨.nil, rfl, fun _ hentry => absurd hentry List.not_mem_nil⟩
  handles := .nil
  files := .nil

/-- At every place there is a history that stems from the lineage that is known of it. -/
theorem at? (ht : Tracks w o) (place : History.Place) :
    Option.Rel (Stems (w.made.zip o.births)) (w.at? place) (o.at? place) := by
  induction place with
  | handle index => exact rel_getElem? ht.handles index
  | register file register =>
    exact rel_bind (rel_getElem? ht.files file) fun _ _ hf => hf.get register
  | unset file => exact rel_bind (rel_getElem? ht.files file) fun _ _ hf => .some hf.unset
  | parent child ih => exact rel_bind ih fun _ _ hs => hs.parent

theorem zip_append (ht : Tracks w o) (made : List History) (births : List Birth) :
    (w.made ++ made).zip (o.births ++ births) = w.made.zip o.births ++ made.zip births :=
  List.zip_append ht.length_eq

/-- An operation makes some histories in some births. -/
theorem grow (ht : Tracks w o) (made : List History) (births : List Birth) {ids : IdSource}
    {now : Birth} (hlen : made.length = births.length)
    (hl : Logged (w.made.zip o.births ++ made.zip births) ids now)
    (hop : now.operation = o.operations) :
    Tracks ⟨w.handles, w.files, w.made ++ made, ids⟩
      ⟨o.handles, o.files, o.births ++ births, o.operations + 1⟩ := by
  -- The log only grows, so what stems from it still does.
  have hlog := ht.zip_append made births
  have hsub : w.made.zip o.births ⊆ (w.made ++ made).zip (o.births ++ births) :=
    hlog ▸ List.subset_append_left ..
  exact {
    length_eq := by rw [List.length_append, List.length_append, ht.length_eq, hlen]
    logged := hlog ▸ hl.mono (.inl (hop ▸ Nat.lt_succ_self _))
    handles := ht.handles.imp fun _ _ => Stems.mono hsub
    files := ht.files.imp fun _ _ hf => hf.mono hsub }

/-- An operation makes nothing. -/
theorem pass (ht : Tracks w o) : Tracks w { o with operations := o.operations + 1 } :=
  { ht with logged := ht.logged.mono (.inl (Nat.lt_succ_self _)) }

/-- One more history is held by itself. -/
theorem hold (ht : Tracks w o) (hs : Stems (w.made.zip o.births) h l) :
    Tracks { w with handles := w.handles ++ [h] } { o with handles := o.handles ++ [l] } :=
  { ht with handles := List.rel_append ht.handles (.cons hs .nil) }

/-- There is one more file. -/
theorem keep (ht : Tracks w o) (hf : FileStems (w.made.zip o.births) file lineages) :
    Tracks { w with files := w.files ++ [file] } { o with files := o.files ++ [lineages] } :=
  { ht with files := List.rel_append ht.files (.cons hf .nil) }

end Tracks

/-- **One operation.** It can be carried out if the lineages after it exist, and what is held
then keeps to the log. -/
theorem step_tracks (ht : Tracks w o) (operation : Operation) :
    Option.Rel Tracks (w.step operation) (o.step operation) := by
  -- Where something is made, the log grows first; then the new history or file is added, which
  -- stems from the log as it is by then.
  cases operation with
  | unset =>
    obtain ⟨hl, hs⟩ := ht.logged.newUnset
    refine .some ((ht.grow [_] [o.next] rfl hl rfl).hold ?_)
    exact (ht.zip_append [_] [o.next]).symm ▸ hs
  | child base position =>
    refine rel_bind (ht.at? base) fun parent l hparent => ?_
    obtain ⟨hl, hs⟩ := ht.logged.newChild hparent position
    refine .some ((ht.grow [_] [o.next] rfl hl rfl).hold ?_)
    exact (ht.zip_append [_] [o.next]).symm ▸ hs
  | copy source =>
    exact rel_bind (ht.at? source) fun h l hs => .some (ht.pass.hold hs)
  | file size =>
    obtain ⟨hl, hs⟩ := ht.logged.newUnset
    refine .some ((ht.grow [_] [o.next] rfl hl rfl).keep ?_)
    exact (ht.zip_append [_] [o.next]).symm ▸ .fresh hs size
  | execute file program position =>
    refine rel_bind (rel_getElem? ht.files file) fun base lineages hf => ?_
    obtain ⟨⟨fault, hfault⟩, hnone⟩ | ⟨made, after, lineages', now, hmade, hexec, hsome, hop,
      hgrows⟩ := execute_grows ht.logged hf position program
    · rw [hfault, hnone]
      exact .none
    · rw [hmade, hexec, hsome]
      refine .some ((ht.grow made _ hgrows.length_eq hgrows.logged hop).keep ?_)
      exact (ht.zip_append made _).symm ▸ hgrows.stems

/-- **A run.** The operations can be carried out if the lineages after them exist, and what is
held then keeps to the log. -/
theorem run_tracks (operations : List Operation) :
    Option.Rel Tracks (Holdings.run operations) (Origins.run operations) :=
  foldlM_rel (fun _ _ operation ht => step_tracks ht operation) operations .empty

/-- The numbers of the histories that have been made identify them. -/
structure Holdings.Identified (w : Holdings) (o : Origins) : Prop where
  /-- Histories are numbered as they are made, so none gets the number of an earlier one. -/
  numbers : w.made.map History.id = List.range w.made.length
  /-- No other number has been handed out. -/
  next : w.ids.next = w.made.length % IdSource.capacity
  /-- Numbers get smaller from a history to its parent, down to a root. -/
  descends : ∀ h ∈ w.made, h.Descends
  /-- An enumeration is over after one more step than the number says, and has the whole chain. -/
  enumerate_eq : ∀ h ∈ w.made, History.enumerate (h.id + 1) (some h) = some h.entries
  /-- Every history was made in a birth of its own. -/
  births : o.births.length = w.made.length ∧ o.births.Nodup
  /-- What a place holds was made in the birth that is known of the place. -/
  made_at : ∀ place h, w.at? place = some h →
    ∃ b, o.birth? place = some b ∧ (h, b) ∈ w.made.zip o.births
  /-- What two places hold has the same number if and only if copying has brought both from one
  birth to where they are. -/
  same_iff : ∀ p q h k, w.at? p = some h → w.at? q = some k →
    (h.same k = true ↔ o.birth? p = o.birth? q)
  /-- Then it has the same positions and the same parents, too. -/
  eq_of_same : ∀ p q h k, w.at? p = some h → w.at? q = some k → h.same k = true → h = k

/-- What a place holds is in the log with the birth that is known of the place. -/
theorem Tracks.made_at (ht : Tracks w o) {place : History.Place} (hh : w.at? place = some h) :
    ∃ b, o.birth? place = some b ∧ (h, b) ∈ w.made.zip o.births := by
  obtain ⟨hnone, -⟩ | ⟨h', l, hh', hl, hs⟩ := rel_cases (ht.at? place)
  · cases hh.symm.trans hnone
  · obtain rfl := Option.some.inj (hh.symm.trans hh')
    obtain ⟨b, hb, hmem⟩ := hs.exists_mem
    refine ⟨b, ?_, hmem⟩
    rw [Origins.birth?, hl]
    exact hb

/-- **What the log tells.** As long as there are numbers enough, they identify the histories. -/
theorem Tracks.identified (ht : Tracks w o) (hfew : w.made.length ≤ IdSource.capacity) :
    w.Identified o := by
  have hlog := ht.logged.recorded
  have hmade : (w.made.zip o.births).map Prod.fst = w.made :=
    List.map_fst_zip (Nat.le_of_eq ht.length_eq)
  have hbirths : (w.made.zip o.births).map Prod.snd = o.births :=
    List.map_snd_zip (Nat.le_of_eq ht.length_eq.symm)
  have hlen : (w.made.zip o.births).length = w.made.length := by
    rw [← List.length_map Prod.fst, hmade]
  have hfew' : (w.made.zip o.births).length ≤ IdSource.capacity := hlen.symm ▸ hfew
  have hnumbers : w.made.map History.id = List.range w.made.length :=
    calc w.made.map History.id
        = ((w.made.zip o.births).map Prod.fst).map History.id := by rw [hmade]
      _ = (w.made.zip o.births).map fun entry => entry.1.id := List.map_map
      _ = List.range w.made.length := by rw [hlog.ids hfew', hlen]
  have hdescends : ∀ h ∈ w.made, h.Descends := fun h hh => by
    obtain ⟨entry, hentry, rfl⟩ := List.mem_map.1 (hmade.symm ▸ hh)
    exact hlog.descends hfew' entry hentry
  have heq : ∀ p q h k, w.at? p = some h → w.at? q = some k → h.same k = true →
      h = k ∧ o.birth? p = o.birth? q := by
    intro p q h k hp hq hsame
    obtain ⟨b, hb, hbmem⟩ := ht.made_at hp
    obtain ⟨c, hc, hcmem⟩ := ht.made_at hq
    obtain ⟨hhk, hbc⟩ := hlog.eq_of_id_eq hfew' hbmem hcmem (beq_iff_eq.1 hsame)
    exact ⟨hhk, by rw [hb, hc, hbc]⟩
  exact {
    numbers := hnumbers
    next := hlen ▸ ht.logged.next
    descends := hdescends
    enumerate_eq := fun h hh => (hdescends h hh).enumerate_eq (Nat.lt_succ_self _)
    births := ⟨ht.length_eq.symm, hbirths ▸ hlog.nodup_births⟩
    made_at := fun _ _ => ht.made_at
    same_iff := fun p q h k hp hq => by
      refine ⟨fun hsame => (heq p q h k hp hq hsame).2, fun hbirth => ?_⟩
      obtain ⟨b, hb, hbmem⟩ := ht.made_at hp
      obtain ⟨c, hc, hcmem⟩ := ht.made_at hq
      obtain rfl : b = c := Option.some.inj (hb.symm.trans (hbirth.trans hc))
      -- One birth is one entry of the log, so the histories do not just have the same number.
      rw [hlog.eq_of_birth_eq hbmem hcmem]
      exact beq_self_eq_true _
    eq_of_same := fun p q h k hp hq hsame => (heq p q h k hp hq hsame).1 }

namespace Holdings

/-- **Numbers are identities.** Let histories be made and extended, copied, and put in the
registers of any number of files by programs, in any order, with numbers from one source. The
operations can be carried out if and only if the places and registers that they name exist. As
long as there are not more histories than numbers, numbers identify the histories that are held:
two of them have the same number if and only if they are copies of one history, and then they
have the same chain. -/
theorem run_identified (operations : List Operation) :
    ((run operations).isSome ↔ (Origins.run operations).isSome) ∧
      ∀ w o, run operations = some w → Origins.run operations = some o →
        w.made.length ≤ IdSource.capacity → w.Identified o := by
  obtain ⟨hrun, horigins⟩ | ⟨w, o, hrun, horigins, ht⟩ := rel_cases (run_tracks operations)
  · rw [hrun, horigins]
    exact ⟨Iff.rfl, fun w o hw => by cases hw⟩
  · rw [hrun, horigins]
    refine ⟨Iff.rfl, fun w' o' hw ho hfew => ?_⟩
    cases hw
    cases ho
    exact ht.identified hfew

/-- Two histories of the same positions are made one after the other; a program makes one that
it overwrites and that is held as a parent only, which then is extended. -/
theorem run_identified_equal_contents :
    let operations : List Operation :=
      [.unset, .child (.handle 0) 7, .child (.handle 0) 7, .copy (.handle 1), .file 3,
        .execute 0 [.set 0, .branch 0 1, .copy 1 2, .set 0] 4, .execute 0 [.set 0] 4,
        .child (.parent (.register 1 2)) 9]
    ∃ w o, run operations = some w ∧ Origins.run operations = some o ∧
      w.made.length ≤ IdSource.capacity ∧ w.Identified o ∧
      w.made.map (fun h => (h.id, h.positions)) = [(0, []), (1, [7]), (2, [7]), (3, []), (4, [4]),
        (5, [4, 4]), (6, [4]), (7, [4]), (8, [9, 4])] ∧
      o.birth? (.handle 1) ≠ o.birth? (.handle 2) ∧
      o.birth? (.register 1 1) = o.birth? (.register 1 2) := by
  intro operations
  obtain ⟨w, hrun, hmade⟩ := Option.map_eq_some_iff.1
    (show (run operations).map (fun w => w.made.map fun h => (h.id, h.positions)) =
      some [(0, []), (1, [7]), (2, [7]), (3, []), (4, [4]), (5, [4, 4]), (6, [4]), (7, [4]),
        (8, [9, 4])] by decide +kernel)
  have horigins : Origins.run operations = some ((Origins.run operations).get rfl) := rfl
  have hlen : w.made.length = 9 := by
    rw [← List.length_map, hmade]
    rfl
  have hfew : w.made.length ≤ IdSource.capacity := by
    rw [hlen]
    decide
  exact ⟨w, _, hrun, horigins, hfew, (run_identified operations).2 w _ hrun horigins hfew, hmade,
    by decide, rfl⟩

end Holdings

end Submatch
