import Submatch.Dfa.Frontier
import Submatch.Proofs.Fault
import Submatch.Proofs.Register.ParallelMoves

/-!
# What the program of a transition does

`Content.value` is what a content stands for in terms of the registers before. The program of
a transition gives every working register of the new frontier the value of its content
(`read_execute_program`), however the moves are ordered. It empties the registers that are no
longer in use (`read_execute_stale`) and leaves the output bank alone (`tags_le_target`).
-/

namespace Submatch

/-- What a cell holds for its tag: nothing before the tag is passed. -/
def PlainRegisters.cell (slots : PlainRegisters) (layout : Layout) : Option Nat → List Nat
  | some r => slots.read (layout.tags + r)
  | none => []

namespace Content

/-- The working register on which the content is built. -/
def register? : Content → Option Nat
  | inherited source _ => some source
  | recorded _ => none

/-- The positions that the content stands for. -/
def value (layout : Layout) (slots : PlainRegisters) (position : Nat) : Content → List Nat
  | inherited source times => List.replicate times position ++ slots.read (layout.tags + source)
  | recorded more => List.replicate (more + 1) position

/-- Where the content comes from in the register file. -/
def placed (layout : Layout) : Content → MoveSource
  | inherited source 0 => .kept (layout.tags + source)
  | inherited source (_ + 1) => .extended (layout.tags + source)
  | recorded _ => .fresh

variable {layout : Layout} {slots : PlainRegisters} {position : Nat}

theorem source_eq_ok {content : Content} (h : ∀ r ∈ content.register?, r < layout.working) :
    content.source layout = .ok (content.placed layout) := by
  cases content with
  | recorded more => rfl
  | inherited source times =>
    have hs : layout.register source = .ok (layout.tags + source) :=
      Layout.register_eq_ok (h source rfl)
    cases times with
    | zero | succ => simp only [Content.source, hs]; rfl

/-- Where a content comes from lies where the layout has it. -/
theorem eq_placed_of_source {content : Content} {source : MoveSource}
    (h : content.source layout = .ok source) : source = content.placed layout := by
  cases content with
  | recorded more => exact (Except.ok.inj h).symm
  | inherited r times =>
    cases times with
    | zero | succ =>
      obtain ⟨place, hplace, hsource⟩ := bind_eq_ok.1 h
      obtain rfl := Layout.eq_of_register_eq_ok hplace
      exact (Except.ok.inj hsource).symm

/-- A move makes the first recording, and the rest are repeats. -/
theorem repeats_placed (content : Content) :
    List.replicate content.repeats position ++ (content.placed layout).value slots position =
      content.value layout slots position := by
  cases content with
  | inherited source times =>
    cases times with
    | zero => rfl
    | succ n =>
      show List.replicate n position ++ position :: slots.read (layout.tags + source) = _
      rw [value, List.replicate_succ', List.append_assoc]
      rfl
  | recorded more =>
    show List.replicate more position ++ [position] = _
    rw [value, List.replicate_succ']

/-- What a thread holds for a tag: the position as often as it has passed the tag, on top of
what it held before. -/
theorem value_of? (cell : Option Nat) (times : Nat) :
    (Content.of? cell times).elim [] (value layout slots position) =
      List.replicate times position ++ slots.cell layout cell := by
  cases cell with
  | some r => rfl
  | none =>
    cases times with
    | zero => rfl
    | succ n => exact (List.append_nil _).symm

/-- A thread holds nothing for a tag only if it held nothing before and does not pass it. -/
theorem of?_eq_none {cell : Option Nat} {times : Nat} :
    Content.of? cell times = none ↔ cell = none ∧ times = 0 := by
  cases cell <;> cases times <;> simp [Content.of?]

end Content

namespace Frontier

variable {layout : Layout} {slots : PlainRegisters} {position previous : Nat}
  {values : List Content}

/-- The moves of a program, each with its place in the file. -/
def placedMoves (layout : Layout) (values : List Content) : List Move :=
  values.zipIdx.map fun v => ⟨layout.tags + v.2, v.1.placed layout⟩

/-- The repeated recordings of a program, each with its place in the file. -/
def placedRepeats (layout : Layout) (values : List (Content × Nat)) : List Instruction :=
  values.flatMap fun v =>
    List.replicate v.1.repeats (.branch (layout.tags + v.2) (layout.tags + v.2))

/-- The releases of a program, each with its place in the file. -/
def placedReleases (layout : Layout) (first stop : Nat) : List Instruction :=
  (List.range' first (stop - first)).map fun r => .close (layout.tags + r)

/-- A program with all places in the file. -/
def placedProgram (layout : Layout) (values : List Content) (previous : Nat) : List Instruction :=
  sequentialize layout.scratch (placedMoves layout values) ++ placedRepeats layout values.zipIdx ++
    placedReleases layout values.length previous

theorem lt_of_mem_zipIdx {v : Content × Nat} (h : v ∈ values.zipIdx) :
    v.2 < values.length ∧ v.1 ∈ values := by
  have hget : values[v.2]? = some v.1 := List.mk_mem_zipIdx_iff_getElem?.1 h
  exact ⟨(List.getElem?_eq_some_iff.1 hget).1, List.mem_of_getElem? hget⟩

theorem program_eq_ok (hv : values.length ≤ layout.working) (hp : previous ≤ layout.working)
    (hs : ∀ content ∈ values, ∀ r ∈ content.register?, r < layout.working) :
    program layout values previous = .ok (placedProgram layout values previous) := by
  have hregister : ∀ v ∈ values.zipIdx, layout.register v.2 = .ok (layout.tags + v.2) :=
    fun v hmem => Layout.register_eq_ok (Nat.lt_of_lt_of_le (lt_of_mem_zipIdx hmem).1 hv)
  have hmoves : moves layout values = .ok (placedMoves layout values) := by
    refine mapM_ok fun v hmem => ?_
    obtain ⟨content, r⟩ := v
    have hr := hregister _ hmem
    simp only at hr
    simp only [hr, Content.source_eq_ok (hs _ (lt_of_mem_zipIdx hmem).2)]
    rfl
  have hrepeats : repeats layout values = .ok (placedRepeats layout values.zipIdx) := by
    unfold repeats
    rw [mapM_ok (g := fun v : Content × Nat => List.replicate v.1.repeats
      (.branch (layout.tags + v.2) (layout.tags + v.2)))]
    · rfl
    · intro v hmem
      obtain ⟨content, r⟩ := v
      have hr := hregister _ hmem
      simp only at hr
      simp only [hr]
      rfl
  have hreleases : releases layout values.length previous =
      .ok (placedReleases layout values.length previous) := by
    refine mapM_ok fun r hmem => ?_
    have hlt := (List.mem_range'_1.1 hmem).2
    rw [Layout.register_eq_ok (by omega)]
    rfl
  unfold program
  rw [hmoves, hrepeats, hreleases]
  rfl

theorem nodup_targets (layout : Layout) (values : List Content) :
    ((placedMoves layout values).map Move.target).Nodup := by
  have hsnd : (placedMoves layout values).map Move.target =
      (values.zipIdx.map Prod.snd).map (layout.tags + ·) := by
    unfold placedMoves
    rw [List.map_map, List.map_map]
    rfl
  rw [hsnd, List.zipIdx_map_snd]
  exact List.pairwise_map.2 (List.Pairwise.imp (fun hne heq => hne (by omega)) List.nodup_range')

/-- A register that records the position a number of times. -/
theorem read_execute_branch (slots : PlainRegisters) {t : Nat} (h : t < slots.length)
    (times x : Nat) :
    (slots.execute (List.replicate times (.branch t t)) position).read x =
      if x = t then List.replicate times position ++ slots.read t else slots.read x := by
  induction times generalizing slots with
  | zero =>
    rw [List.replicate_zero, PlainRegisters.execute_nil, List.replicate_zero, List.nil_append]
    split
    next hx => rw [hx]
    next => rfl
  | succ times ih =>
    rw [List.replicate_succ, PlainRegisters.execute_cons, ih _ (by simpa using h)]
    have happly : Instruction.applyPlain position slots (.branch t t) =
        slots.set t (position :: slots.read t) := rfl
    rw [happly, PlainRegisters.read_set_self slots h, PlainRegisters.read_set slots h,
      List.replicate_succ', List.append_assoc]
    split <;> rfl

/-- The repeated recordings reach the registers that repeat, and no others. -/
theorem read_execute_repeats {vs : List (Content × Nat)} (hd : (vs.map Prod.snd).Nodup)
    (hsize : ∀ v ∈ vs, layout.tags + v.2 < slots.length) :
    (∀ v ∈ vs, (slots.execute (placedRepeats layout vs) position).read (layout.tags + v.2) =
      List.replicate v.1.repeats position ++ slots.read (layout.tags + v.2)) ∧
    ∀ x, (∀ v ∈ vs, x ≠ layout.tags + v.2) →
      (slots.execute (placedRepeats layout vs) position).read x = slots.read x := by
  induction vs generalizing slots with
  | nil => exact ⟨nofun, fun x _ => rfl⟩
  | cons v vs ih =>
    obtain ⟨hv, hvs⟩ := List.nodup_cons.1 hd
    obtain ⟨hlt, hrest⟩ := List.forall_mem_cons.1 hsize
    have hne : ∀ w ∈ vs, w.2 ≠ v.2 := fun w hw heq => hv (heq ▸ List.mem_map_of_mem hw)
    have happend : slots.execute (placedRepeats layout (v :: vs)) position =
        PlainRegisters.execute (slots.execute (List.replicate v.1.repeats
          (.branch (layout.tags + v.2) (layout.tags + v.2))) position)
          (placedRepeats layout vs) position :=
      PlainRegisters.execute_append ..
    obtain ⟨hin, hout⟩ := @ih (slots.execute (List.replicate v.1.repeats
      (.branch (layout.tags + v.2) (layout.tags + v.2))) position) hvs (by simpa using hrest)
    rw [happend]
    refine ⟨List.forall_mem_cons.2 ⟨?_, fun w hw => ?_⟩, fun x hx => ?_⟩
    · rw [hout _ fun w hw heq => hne w hw (by omega), read_execute_branch slots hlt, if_pos rfl]
    · rw [hin w hw, read_execute_branch slots hlt, if_neg fun heq => hne w hw (by omega)]
    · obtain ⟨hxv, hxvs⟩ := List.forall_mem_cons.1 hx
      rw [hout x hxvs, read_execute_branch slots hlt, if_neg hxv]

theorem read_execute_closes (slots : PlainRegisters) (rs : List Nat) (x : Nat) :
    (slots.execute (rs.map Instruction.close) position).read x =
      if x ∈ rs then [] else slots.read x := by
  induction rs generalizing slots with
  | nil => rfl
  | cons r rs ih =>
    have hclose : (Instruction.close r).applyPlain position slots = slots.set r [] := rfl
    rw [List.map_cons, PlainRegisters.execute_cons, ih, hclose]
    by_cases hx : x ∈ rs
    · rw [if_pos hx, if_pos (List.mem_cons_of_mem r hx)]
    · by_cases hr : x = r
      · rw [if_neg hx, hr, if_pos List.mem_cons_self, PlainRegisters.read_set_nil]
      · rw [if_neg hx, if_neg fun hmem => (List.mem_cons.1 hmem).elim hr hx,
          PlainRegisters.read_set_of_ne slots hr]

/-- The releases empty the registers from `first` up to `stop`, and no others. -/
theorem read_execute_releases (slots : PlainRegisters) (first stop x : Nat) :
    (slots.execute (placedReleases layout first stop) position).read x =
      if layout.tags + first ≤ x ∧ x < layout.tags + stop then [] else slots.read x := by
  have hcloses : placedReleases layout first stop =
      ((List.range' first (stop - first)).map (layout.tags + ·)).map Instruction.close := by
    rw [List.map_map]
    rfl
  have hmem : x ∈ (List.range' first (stop - first)).map (layout.tags + ·) ↔
      layout.tags + first ≤ x ∧ x < layout.tags + stop := by
    rw [List.mem_map]
    constructor
    · rintro ⟨r, hr, rfl⟩
      have := List.mem_range'_1.1 hr
      omega
    · intro hx
      exact ⟨x - layout.tags, List.mem_range'_1.2 (by omega), by omega⟩
  rw [hcloses, read_execute_closes]
  exact if_congr hmem rfl rfl

theorem within_placedRepeats {vs : List (Content × Nat)} {size : Nat}
    (h : ∀ v ∈ vs, layout.tags + v.2 < size) :
    ∀ i ∈ placedRepeats layout vs, i.Within size := by
  intro i hi
  obtain ⟨v, hv, hi⟩ := List.mem_flatMap.1 hi
  rw [List.eq_of_mem_replicate hi]
  exact ⟨h v hv, h v hv⟩

theorem within_placedReleases {first stop size : Nat} (h : layout.tags + stop ≤ size) :
    ∀ i ∈ placedReleases layout first stop, i.Within size := by
  intro i hi
  obtain ⟨r, hr, rfl⟩ := List.mem_map.1 hi
  have hrange := List.mem_range'_1.1 hr
  show layout.tags + r < size
  omega

theorem target_lt (hv : values.length ≤ layout.working) :
    ∀ m ∈ placedMoves layout values, m.target < layout.tags + layout.working := by
  intro m hm
  obtain ⟨v, hmem, rfl⟩ := List.mem_map.1 hm
  have hlt := (lt_of_mem_zipIdx hmem).1
  show layout.tags + v.2 < layout.tags + layout.working
  omega

theorem source_lt (hs : ∀ content ∈ values, ∀ r ∈ content.register?, r < layout.working) :
    ∀ m ∈ placedMoves layout values, ∀ r ∈ m.source.register?,
      r < layout.tags + layout.working := by
  intro m hm r hr
  obtain ⟨⟨content, n⟩, hmem, rfl⟩ := List.mem_map.1 hm
  have hc := hs content (lt_of_mem_zipIdx hmem).2
  cases content with
  | recorded more => cases hr
  | inherited source times =>
    have hlt := hc source rfl
    cases times with
    | zero | succ =>
      cases hr
      omega

theorem within_placedProgram (hv : values.length ≤ layout.working)
    (hp : previous ≤ layout.working)
    (hs : ∀ content ∈ values, ∀ r ∈ content.register?, r < layout.working) :
    ∀ i ∈ placedProgram layout values previous, i.Within layout.slots := by
  have hslots : layout.slots = layout.tags + layout.working + 1 := rfl
  have hscratch : layout.scratch = layout.tags + layout.working := rfl
  intro i hi
  unfold placedProgram at hi
  rw [List.mem_append, List.mem_append] at hi
  rcases hi with (hi | hi) | hi
  · refine within_sequentialize (by omega) (fun m hm => ?_) (fun m hm r hr => ?_) i hi
    · have := target_lt hv m hm
      omega
    · have := source_lt hs m hm r hr
      omega
  · refine within_placedRepeats (fun v hmem => ?_) i hi
    have := (lt_of_mem_zipIdx hmem).1
    omega
  · exact within_placedReleases (by omega) i hi

/-- A program writes no output register. -/
theorem tags_le_target : ∀ i ∈ placedProgram layout values previous, layout.tags ≤ i.target := by
  intro i hi
  unfold placedProgram at hi
  rw [List.mem_append, List.mem_append] at hi
  rcases hi with (hi | hi) | hi
  · rcases (serves_sequentialize i hi).target_eq with htarget | htarget
    · rw [htarget]
      exact Nat.le_add_right ..
    · obtain ⟨m, hm, heq⟩ := List.mem_map.1 htarget
      obtain ⟨v, -, rfl⟩ := List.mem_map.1 hm
      rw [← heq]
      exact Nat.le_add_right ..
  · obtain ⟨v, -, hi⟩ := List.mem_flatMap.1 hi
    rw [List.eq_of_mem_replicate hi]
    exact Nat.le_add_right ..
  · obtain ⟨r, -, rfl⟩ := List.mem_map.1 hi
    exact Nat.le_add_right ..

/-- The registers behind those of the values, which were in use before, are empty. -/
theorem read_execute_stale {r : Nat} (hr : values.length ≤ r) (hp : r < previous) :
    (slots.execute (placedProgram layout values previous) position).read (layout.tags + r) =
      [] := by
  unfold placedProgram
  rw [PlainRegisters.execute_append, read_execute_releases, if_pos (by omega)]

/-- **Every register gets its value.** The moves bring what a register has before, and the repeats
complete it; the releases are of later registers. -/
theorem read_execute_program (hv : values.length ≤ layout.working)
    (hlen : slots.length = layout.slots) {r : Nat} {content : Content}
    (hr : values[r]? = some content) :
    (slots.execute (placedProgram layout values previous) position).read (layout.tags + r) =
      content.value layout slots position := by
  have hslots : layout.slots = layout.tags + layout.working + 1 := rfl
  have hscratch : layout.scratch = layout.tags + layout.working := rfl
  have hmem : (content, r) ∈ values.zipIdx := List.mk_mem_zipIdx_iff_getElem?.2 hr
  have hlt := (lt_of_mem_zipIdx hmem).1
  -- the scratch register lies behind the working bank
  have hfree : layout.scratch ∉ (placedMoves layout values).map Move.target := by
    intro hin
    obtain ⟨m, hm, heq⟩ := List.mem_map.1 hin
    have := target_lt hv m hm
    omega
  have hperforms := @sequentialize_performs layout.scratch position
    (placedMoves layout values) slots (nodup_targets layout values) hfree (by omega)
    (fun m hm => by have := target_lt hv m hm; omega)
  have hmove := hperforms.target _ (List.mem_map_of_mem hmem)
  have hnodup : (values.zipIdx.map Prod.snd).Nodup := by
    rw [List.zipIdx_map_snd]
    exact List.nodup_range'
  unfold placedProgram
  rw [PlainRegisters.execute_append, PlainRegisters.execute_append,
    read_execute_releases, if_neg (by omega),
    (read_execute_repeats hnodup fun v hmem' => ?_).1 _ hmem, hmove, Content.repeats_placed]
  have := (lt_of_mem_zipIdx hmem').1
  rw [PlainRegisters.length_execute]
  omega

end Frontier

end Submatch
