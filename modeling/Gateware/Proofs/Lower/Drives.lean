import Gateware.Proofs.Lower.Free

/-! # What a lowered block drives

Lowering leaves out the elements of a target where its index cannot point, the last one excepted. So
it may take signals away from what a block drives, and a settled block no longer resets them. It
takes none away if every index of a target can reach all positions but the last.
-/
namespace Gateware

/-! ## Assignments -/

mutual
/-- The targets and sources of all assignments, in the order of the text. -/
def Statement.assignments : Statement → List (Value × Value)
  | .assign target source => [(target, source)]
  | .branch _ taken otherwise => Block.assignments taken ++ Block.otherwiseAssignments otherwise
  | .switch _ cases => Case.assignments cases

def Block.assignments : List Statement → List (Value × Value)
  | [] => []
  | s :: rest => s.assignments ++ Block.assignments rest

def Block.otherwiseAssignments : Option (List Statement) → List (Value × Value)
  | none => []
  | some body => Block.assignments body

def Case.assignments : List Case → List (Value × Value)
  | [] => []
  | ⟨_, body⟩ :: rest => Block.assignments body ++ Case.assignments rest
end

theorem Block.assignments_eq (block : Block) :
    Block.assignments block = block.flatMap Statement.assignments :=
  flatMap_of_cons rfl (fun _ _ => rfl) block

theorem Case.assignments_eq (cases : List Case) :
    Case.assignments cases = cases.flatMap fun c => Block.assignments c.body :=
  flatMap_of_cons rfl (fun ⟨_, _⟩ _ => rfl) cases

theorem Block.every_assignments {P : Value → Value → Prop} {block : Block}
    (h : ∀ s ∈ block, ∀ a ∈ s.assignments, P a.1 a.2) :
    ∀ a ∈ Block.assignments block, P a.1 a.2 := by
  intro a ha
  rw [Block.assignments_eq] at ha
  obtain ⟨s, hs, ha⟩ := List.mem_flatMap.mp ha
  exact h s hs a ha

theorem Statement.Every.assignments {P : Value → Value → Prop} {Q : Value → Prop} {s : Statement}
    (h : s.Every P Q) : ∀ a ∈ s.assignments, P a.1 a.2 := by
  induction s with
  | assign target source =>
    intro a ha
    rw [List.mem_singleton.mp ha]
    exact h
  | branch condition taken otherwise iht iho =>
    intro a ha
    rcases List.mem_append.mp ha with ha | ha
    · exact Block.every_assignments (fun s hs => iht s hs (Block.every_iff.mp h.2.1 s hs)) a ha
    · cases otherwise with
      | none => cases ha
      | some body =>
        exact Block.every_assignments
          (fun s hs => iho body rfl s hs (Block.every_iff.mp h.2.2 s hs)) a ha
  | switch selector cases ih =>
    intro a ha
    rw [Statement.assignments, Case.assignments_eq] at ha
    obtain ⟨c, hc, ha⟩ := List.mem_flatMap.mp ha
    exact Block.every_assignments
      (fun s hs => ih c hc s hs (Block.every_iff.mp (Case.every_iff.mp h.2 c hc) s hs)) a ha

theorem Block.FullTargets.assignments {block : Block} (h : Block.FullTargets block) :
    ∀ a ∈ Block.assignments block, a.1.FullTarget :=
  Block.every_assignments (P := fun target _ => target.FullTarget)
    fun s hs => Statement.Every.assignments (Block.every_iff.mp h s hs)

section Walks

variable {α : Type} {f : Statement → List α}

theorem Block.flatMap_assignments {block : Block}
    (h : ∀ s ∈ block, f s = s.assignments.flatMap fun a => f (.assign a.1 a.2)) :
    block.flatMap f = (Block.assignments block).flatMap fun a => f (.assign a.1 a.2) := by
  rw [Block.assignments_eq, List.flatMap_assoc]
  exact List.flatMap_congr h

/-- What joins its results over the bodies of a statement joins them over its assignments. -/
theorem Statement.flatMap_assignments
    (branch : ∀ condition taken otherwise, f (.branch condition taken otherwise) =
      taken.flatMap f ++ (otherwise.getD []).flatMap f)
    (switch : ∀ selector cases, f (.switch selector cases) =
      cases.flatMap fun c => c.body.flatMap f) (s : Statement) :
    f s = s.assignments.flatMap fun a => f (.assign a.1 a.2) := by
  induction s with
  | assign target source => simp [Statement.assignments]
  | branch condition taken otherwise iht iho =>
    rw [branch, Statement.assignments, List.flatMap_append, Block.flatMap_assignments iht]
    cases otherwise with
    | none => rfl
    | some body => rw [Option.getD_some, Block.flatMap_assignments (iho body rfl)]; rfl
  | switch selector cases ih =>
    rw [switch, Statement.assignments, Case.assignments_eq, List.flatMap_assoc]
    exact List.flatMap_congr fun c hc => Block.flatMap_assignments (ih c hc)

end Walks

theorem Statement.targets_assignments (s : Statement) :
    s.targets = s.assignments.flatMap fun a => a.1.targets := by
  refine Statement.flatMap_assignments (f := Statement.targets) ?_ ?_ s
  · intro condition taken otherwise
    cases otherwise <;> simp [Statement.targets, Block.targets_eq, Block.otherwiseTargets]
  · intro selector cases
    simp [Statement.targets, Case.targets_eq, Block.targets_eq]

theorem Statement.lower_targets_assignments (s : Statement) :
    s.lower.targets = s.assignments.flatMap fun a => (lowerAssign a.1 a.2).targets := by
  refine Statement.flatMap_assignments (f := fun s => s.lower.targets) ?_ ?_ s
  · intro condition taken otherwise
    cases otherwise <;> simp [Statement.lower, Statement.targets, Block.lower_eq_map,
      Block.targets_eq, Block.lowerOtherwise, Block.otherwiseTargets, List.flatMap_map]
  · intro selector cases
    simp [Statement.lower, Statement.targets, Case.lower_eq_map, Case.targets_eq,
      Block.lower_eq_map, Block.targets_eq, List.flatMap_map, Case.body]

/-! ## What a target reaches -/

/-- A target can write the signal. In each selection the signal stands in the last element, or in
one at a position that the index can reach once it is lowered. -/
inductive Value.Reaches (x : Signal) : Value → Prop
  | signal : Value.Reaches x (.signal x)
  | slice {v : Value} {start stop : Nat} (h : v.Reaches x) : Value.Reaches x (.slice v start stop)
  | concat {v : Value} {parts : List Value} (hv : v ∈ parts) (h : v.Reaches x) :
    Value.Reaches x (.concat parts)
  | select {v index : Value} {row : Row} {i : Nat} (hv : row[i]? = some (.value v))
    (hi : index.lowerReads.shape.reaches i = true ∨ i + 1 = row.length) (h : v.Reaches x) :
    Value.Reaches x (.select row index)

section

variable {x : Signal} {source : Value}

namespace Value

theorem reaches_signal {s : Signal} : (Value.signal s).Reaches x ↔ x = s :=
  ⟨fun | .signal => rfl, fun h => h ▸ .signal⟩

theorem reaches_slice {v : Value} {start stop : Nat} :
    (Value.slice v start stop).Reaches x ↔ v.Reaches x :=
  ⟨fun | .slice h => h, .slice⟩

theorem reaches_concat {parts : List Value} :
    (Value.concat parts).Reaches x ↔ ∃ v ∈ parts, v.Reaches x :=
  ⟨fun | .concat hv h => ⟨_, hv, h⟩, fun ⟨_, hv, h⟩ => .concat hv h⟩

theorem reaches_select {row : Row} {index : Value} :
    (Value.select row index).Reaches x ↔ ∃ i v, row[i]? = some (.value v) ∧
      (index.lowerReads.shape.reaches i = true ∨ i + 1 = row.length) ∧ v.Reaches x :=
  ⟨fun | .select hv hi h => ⟨_, _, hv, hi, h⟩, fun ⟨_, _, hv, hi, h⟩ => .select hv hi h⟩

/-- A target reaches only signals that it mentions. -/
theorem Reaches.mem_targets {t : Value} (h : t.Reaches x) : x ∈ t.targets := by
  induction h with
  | signal => exact List.mem_singleton.mpr rfl
  | slice _ ih => exact ih
  | concat hv _ ih =>
    rw [Value.targets, Value.allTargets_eq]
    exact List.mem_flatMap_of_mem hv ih
  | select hv _ _ ih =>
    rw [Value.targets, Row.targets_eq]
    exact List.mem_flatMap_of_mem (Row.mem_leaves (List.mem_of_getElem? hv)) ih

end Value

/-! ## Splitting -/

theorem mem_targets_caseChain {index : Value} {arms : List (Nat × Statement)} {last : Statement} :
    x ∈ (caseChain index arms last).targets ↔
      (∃ arm ∈ arms, index.shape.reaches arm.1 = true ∧ x ∈ arm.2.targets) ∨ x ∈ last.targets := by
  unfold caseChain
  split
  · rename_i hnone
    have hreach : ∀ arm ∈ arms, ¬ index.shape.reaches arm.1 = true :=
      List.filter_eq_nil_iff.mp hnone
    constructor
    · exact Or.inr
    · rintro (⟨arm, harm, hr, -⟩ | hlast)
      · exact absurd hr (hreach arm harm)
      · exact hlast
  · simp [Statement.targets, Case.targets_eq, Block.targets, Case.body, and_assoc]

/-- The arms of a row and its last statement mention what the statements for the elements mention,
except where an arm is not taken. -/
theorem Row.mem_targets_splitFrom {plug : Value → Value} {done : Value → Statement} {row : Row}
    (hne : row ≠ []) (hflat : row.flat = true) (reach : Nat → Prop) (position : Nat) :
    ∃ arms last, Row.splitFrom source plug done position (row.map Element.lowerIndices) =
        some (arms, last) ∧
      ((∃ arm ∈ arms, reach arm.1 ∧ x ∈ arm.2.targets) ∨ x ∈ last.targets ↔
        ∃ i v, row[i]? = some (.value v) ∧ (reach (position + i) ∨ i + 1 = row.length) ∧
          x ∈ (Value.split source plug done v.lowerIndices).targets) := by
  induction row generalizing position with
  | nil => exact absurd rfl hne
  | cons e es ih =>
    obtain ⟨he, hes⟩ := Bool.and_eq_true_iff.mp hflat
    cases e with
    | row _ => cases he
    | value v =>
      rw [List.map_cons, Element.lowerIndices, Row.splitFrom]
      by_cases hes0 : es = []
      · subst hes0
        refine ⟨[], _, rfl, ?_⟩
        rw [← Nat.or_exists_add_one]
        simp
      · obtain ⟨arms, last, hsplit, hmem⟩ := ih hes0 hes (position + 1)
        rw [hsplit]
        refine ⟨_, _, rfl, ?_⟩
        rw [← Nat.or_exists_add_one, List.exists_mem_cons_iff, or_assoc, hmem]
        simp [hes0, Nat.add_assoc, Nat.add_comm 1]

/-- Splitting the target keeps the signal exactly if the target reaches it, where `done` may add it
to every part. -/
def Value.SplitKeeps (x : Signal) (t : Value) : Prop :=
  ∀ (source : Value) (plug : Value → Value) (done : Value → Statement) (added : Prop),
    (∀ t', x ∈ (done t').targets ↔ added ∨ x ∈ t'.targets) →
      (x ∈ (Value.split source plug done t.lowerIndices).targets ↔ added ∨ t.Reaches x)

theorem Value.SplitKeeps.parts {vs : List Value} (h : ∀ v ∈ vs, v.SplitKeeps x)
    (plug : List Value → Value) (done : List Value → Statement) (added : Prop)
    (hdone : ∀ ws : List Value, x ∈ (done ws).targets ↔ added ∨ ∃ w ∈ ws, x ∈ w.targets) :
    x ∈ (Value.splitParts source plug done (vs.map Value.lowerIndices)).targets ↔
      added ∨ ∃ v ∈ vs, v.Reaches x := by
  induction vs generalizing plug done added with
  | nil =>
    rw [List.map_nil, Value.splitParts, hdone]
    simp
  | cons v vs ih =>
    rw [List.map_cons, Value.splitParts]
    -- The parts after the first are in every statement that the first part is split into.
    rw [h v List.mem_cons_self _ _ _ (added ∨ ∃ u ∈ vs, u.Reaches x)]
    · rw [List.exists_mem_cons_iff, or_assoc, or_comm (a := v.Reaches x)]
    · intro w
      rw [ih (fun u hu => h u (List.mem_cons_of_mem _ hu)) _ _ (added ∨ x ∈ w.targets),
        or_right_comm]
      intro ws
      rw [hdone, List.exists_mem_cons_iff, or_assoc]

theorem Value.SplitKeeps.select {row : Row} {index : Value} (hne : row ≠ [])
    (hflat : row.flat = true) (h : ∀ v, .value v ∈ row → v.SplitKeeps x) :
    (Value.select row index).SplitKeeps x := by
  intro source plug done added hdone
  obtain ⟨arms, last, hsplit, hmem⟩ := Row.mem_targets_splitFrom hne hflat
    (fun i => index.lowerReads.shape.reaches i = true) 0
  rw [Value.lowerIndices, Row.lowerIndices_eq_map, Value.split, hsplit, mem_targets_caseChain, hmem,
    Value.reaches_select]
  have hkeeps : ∀ {i : Nat} {v : Value}, row[i]? = some (.value v) →
      (x ∈ (Value.split source plug done v.lowerIndices).targets ↔ added ∨ v.Reaches x) :=
    fun hv => h _ (List.mem_of_getElem? hv) source plug done added hdone
  constructor
  · rintro ⟨i, v, hv, hi, hx⟩
    rw [Nat.zero_add] at hi
    rcases (hkeeps hv).mp hx with hadded | hreach
    · exact Or.inl hadded
    · exact Or.inr ⟨i, v, hv, hi, hreach⟩
  · rintro (hadded | ⟨i, v, hv, hi, hreach⟩)
    · -- What `done` adds is at least in the statement for the last element.
      have hlast : row.length - 1 < row.length := Nat.sub_one_lt (mt List.length_eq_zero_iff.mp hne)
      obtain ⟨v, hv⟩ := Row.flat_value hflat (List.getElem_mem hlast)
      have hget : row[row.length - 1]? = some (.value v) := by rw [List.getElem?_eq_getElem hlast, hv]
      exact ⟨_, v, hget, Or.inr (Nat.sub_add_cancel (Nat.one_le_of_lt hlast)),
        (hkeeps hget).mpr (Or.inl hadded)⟩
    · refine ⟨i, v, hv, ?_, (hkeeps hv).mpr (Or.inr hreach)⟩
      rwa [Nat.zero_add]

theorem Value.FullTarget.splitKeeps {t : Value} (h : t.FullTarget) : t.SplitKeeps x := by
  obtain ⟨⟨hassign, hcomplete⟩, hfilled⟩ := h
  have hflat := (Value.checkComplete_iff t).mp hcomplete
  clear hcomplete
  induction t with
  | const c | op c d _ | repl c d _ => cases hassign
  | signal s =>
    intro source plug done added hdone
    refine (hdone (.signal s)).trans (or_congr_right ?_)
    rw [Value.reaches_signal, Value.targets, List.mem_singleton]
  | clock d | reset d =>
    intro source plug done added hdone
    refine (hdone _).trans (or_congr_right ?_)
    exact ⟨nofun, nofun⟩
  | slice v start stop ih =>
    intro source plug done added hdone
    rw [Value.lowerIndices, Value.split, Value.reaches_slice]
    exact ih hfilled hassign hflat _ _ _ _ fun t' => hdone _
  | concat vs ih =>
    intro source plug done added hdone
    rw [Value.lowerIndices, Value.lowerAllIndices_eq_map, Value.split, Value.reaches_concat]
    refine Value.SplitKeeps.parts (fun v hv => ?_) _ _ _ fun ws => ?_
    · exact ih v hv (Value.allEveryRow_iff.mp hfilled v hv)
        (Value.allAssignable_iff.mp hassign v hv) (Value.allEveryRow_iff.mp hflat v hv)
    · rw [hdone, Value.targets, Value.allTargets_eq, List.mem_flatMap]
  | select row index ih _ =>
    simp only [Value.everyRow, Bool.and_eq_true] at hfilled hflat
    have hne : row ≠ [] := by
      rintro rfl
      cases hfilled.1.1
    refine Value.SplitKeeps.select hne hflat.1.1 fun v hv => ?_
    have hleaf := Row.mem_leaves hv
    exact ih v hleaf (Row.everyRow_leaves hfilled.1.2 v hleaf)
      (Row.assignable_leaves hassign v hleaf) (Row.everyRow_leaves hflat.1.2 v hleaf)

theorem mem_targets_lowerAssign {target : Value} (h : target.FullTarget) :
    x ∈ (lowerAssign target source).targets ↔ target.Reaches x := by
  have hkeeps := h.splitKeeps (x := x) source.lowerReads id (fun t => .assign t source.lowerReads)
    False fun t => (or_iff_right not_false).symm
  exact hkeeps.trans (or_iff_right not_false)

end

/-! ## Indices that reach their rows -/

mutual
/-- Every index of a target, once lowered, reaches all positions of its row but the last. -/
def Value.spans : Value → Bool
  | .select row index =>
    (List.range (row.length - 1)).all index.lowerReads.shape.reaches && Row.spans row
  | .slice value _ _ => value.spans
  | .concat parts => Value.allSpan parts
  | _ => true

def Value.allSpan : List Value → Bool
  | [] => true
  | v :: vs => v.spans && Value.allSpan vs

def Row.spans : List Element → Bool
  | [] => true
  | e :: es => Element.spans e && Row.spans es

def Element.spans : Element → Bool
  | .value v => v.spans
  | .row elements => Row.spans elements
end

theorem Value.allSpan_iff {vs : List Value} :
    Value.allSpan vs = true ↔ ∀ v ∈ vs, v.spans = true :=
  all_of_cons rfl fun _ _ => rfl

theorem Row.spans_leaves {row : Row} (h : Row.spans row = true) :
    ∀ v ∈ Row.leaves row, v.spans = true :=
  Row.all_leaves Row.spans Element.spans (fun _ _ => rfl) (fun _ => rfl) (fun _ h => h) row h

theorem Row.leaves_of_flat {row : Row} (hflat : row.flat = true) {v : Value}
    (h : v ∈ Row.leaves row) : .value v ∈ row := by
  induction row with
  | nil => cases h
  | cons e es ih =>
    obtain ⟨he, hes⟩ := Bool.and_eq_true_iff.mp hflat
    cases e with
    | row _ => cases he
    | value u =>
      rcases List.mem_cons.mp h with rfl | h
      · exact List.mem_cons_self
      · exact List.mem_cons_of_mem _ (ih hes h)

theorem Value.reaches_of_spans {t : Value} {x : Signal} (hflat : t.everyRow Row.flat = true)
    (hspans : t.spans = true) (h : x ∈ t.targets) : t.Reaches x := by
  induction t with
  | const c | clock c | reset c | op c d _ | repl c d _ => cases h
  | signal s => exact Value.reaches_signal.mpr (List.mem_singleton.mp h)
  | slice v start stop ih => exact .slice (ih hflat hspans h)
  | concat vs ih =>
    rw [Value.targets, Value.allTargets_eq] at h
    obtain ⟨v, hv, h⟩ := List.mem_flatMap.mp h
    exact .concat hv (ih v hv (Value.allEveryRow_iff.mp hflat v hv)
      (Value.allSpan_iff.mp hspans v hv) h)
  | select row index ih _ =>
    simp only [Value.everyRow, Bool.and_eq_true] at hflat
    simp only [Value.spans, Bool.and_eq_true, List.all_eq_true, List.mem_range] at hspans
    rw [Value.targets, Row.targets_eq] at h
    obtain ⟨v, hv, h⟩ := List.mem_flatMap.mp h
    have hreach := ih v hv (Row.everyRow_leaves hflat.1.2 v hv) (Row.spans_leaves hspans.2 v hv) h
    obtain ⟨i, hi⟩ := List.mem_iff_getElem?.mp (Row.leaves_of_flat hflat.1.1 hv)
    have hlt : i < row.length := (List.getElem?_eq_some_iff.mp hi).1
    refine .select hi ?_ hreach
    by_cases hlast : i + 1 = row.length
    · exact Or.inr hlast
    · exact Or.inl (hspans.1 i (by omega))

/-! ## Blocks -/

theorem Block.drives_assignments {block : Block} {i : Nat} :
    Block.Drives block i ↔ ∃ a ∈ Block.assignments block, ∃ x ∈ a.1.targets, x.id = i := by
  have htargets : Block.targets block = (Block.assignments block).flatMap fun a => a.1.targets := by
    rw [Block.targets_eq]
    exact Block.flatMap_assignments fun s _ => s.targets_assignments
  rw [Block.drives_iff, htargets]
  simp only [List.mem_flatMap]
  constructor
  · rintro ⟨x, ⟨a, ha, hx⟩, hi⟩
    exact ⟨a, ha, x, hx, hi⟩
  · rintro ⟨a, ha, x, hx, hi⟩
    exact ⟨x, ⟨a, ha, hx⟩, hi⟩

theorem Block.lower_drives_assignments {block : Block} (h : Block.FullTargets block) {i : Nat} :
    Block.Drives (Block.lower block) i ↔
      ∃ a ∈ Block.assignments block, ∃ x, a.1.Reaches x ∧ x.id = i := by
  have htargets : Block.targets (Block.lower block) =
      (Block.assignments block).flatMap fun a => (lowerAssign a.1 a.2).targets := by
    rw [Block.targets_eq, Block.lower_eq_map, List.flatMap_map]
    exact Block.flatMap_assignments (f := fun s => s.lower.targets)
      fun s _ => s.lower_targets_assignments
  rw [Block.drives_iff, htargets]
  simp only [List.mem_flatMap]
  constructor
  · rintro ⟨x, ⟨a, ha, hx⟩, hi⟩
    exact ⟨a, ha, x, (mem_targets_lowerAssign (h.assignments a ha)).mp hx, hi⟩
  · rintro ⟨a, ha, x, hx, hi⟩
    exact ⟨x, ⟨a, ha, (mem_targets_lowerAssign (h.assignments a ha)).mpr hx⟩, hi⟩

/-- A lowered block drives the signals that the targets of the block reach, and no others: these are
some of the signals that the block drives, and all of them if every index of a target reaches all
positions of its row but the last. -/
theorem Block.lower_drives_reached {block : Block} (h : Block.FullTargets block) :
    (∀ i, Block.Drives (Block.lower block) i ↔
      ∃ a ∈ Block.assignments block, ∃ x, a.1.Reaches x ∧ x.id = i) ∧
    (∀ i, Block.Drives (Block.lower block) i → Block.Drives block i) ∧
    ((∀ a ∈ Block.assignments block, a.1.spans = true) →
      ∀ i, Block.Drives (Block.lower block) i ↔ Block.Drives block i) := by
  have hsubset : ∀ i, Block.Drives (Block.lower block) i → Block.Drives block i := by
    intro i hi
    obtain ⟨a, ha, x, hx, hid⟩ := (Block.lower_drives_assignments h).mp hi
    exact Block.drives_assignments.mpr ⟨a, ha, x, hx.mem_targets, hid⟩
  refine ⟨fun i => Block.lower_drives_assignments h, hsubset, fun hspans i => ⟨hsubset i, ?_⟩⟩
  intro hi
  obtain ⟨a, ha, x, hx, hid⟩ := Block.drives_assignments.mp hi
  have hflat := (Value.checkComplete_iff a.1).mp (h.assignments a ha).1.2
  exact (Block.lower_drives_assignments h).mpr
    ⟨a, ha, x, Value.reaches_of_spans hflat (hspans a ha) hx, hid⟩

/-- A bit goes to an element of a row whose first element is selected from another row. -/
def nestedTargets : Block :=
  let bit (i : Nat) (name : String) : Element := .value (.signal (.named i name 1))
  let inner := Value.select [bit 0 "a", bit 1 "b"] (.signal (.named 5 "j" 1))
  [.branch (.signal (.named 7 "k" 1))
    [.assign (.select [.value inner, bit 2 "c", bit 3 "d"] (.signal (.named 6 "i" 2)))
      (.signal (.named 7 "k" 1))] none]

theorem Block.lower_drives_reached_nested :
    Block.FullTargets nestedTargets ∧
      (∀ a ∈ Block.assignments nestedTargets, a.1.spans = true) ∧
      ∀ i, Block.Drives (Block.lower nestedTargets) i ↔ Block.Drives nestedTargets i := by
  have hfull : Block.FullTargets nestedTargets :=
    ⟨⟨trivial, ⟨⟨⟨rfl, rfl⟩, rfl⟩, trivial⟩, trivial⟩, trivial⟩
  have hspans : ∀ a ∈ Block.assignments nestedTargets, a.1.spans = true := by decide
  exact ⟨hfull, hspans, (Block.lower_drives_reached hfull).2.2 hspans⟩

/-- One bit goes to one of four signals, but the index can only point to the first two. -/
def narrowIndex : Block :=
  let bit (i : Nat) (name : String) : Element := .value (.signal (.named i name 1))
  [.assign (.select [bit 0 "a", bit 1 "b", bit 2 "c", bit 3 "d"] (.signal (.named 4 "i" 1)))
    (.int 1)]

/-- The third signal is driven before lowering and not after: it settles at its reset value, and
then keeps the value it has. -/
theorem Block.lower_drives_fewer :
    let input := State.empty.set (.named 2 "c" 1) 1
    Block.FullTargets narrowIndex ∧
      Block.Drives narrowIndex 2 ∧ ¬ Block.Drives (Block.lower narrowIndex) 2 ∧
      (Block.settle narrowIndex input).map (·.get (.named 2 "c" 1)) = .ok 0 ∧
      (Block.settle (Block.lower narrowIndex) input).map (·.get (.named 2 "c" 1)) = .ok 1 :=
  ⟨⟨⟨⟨rfl, rfl⟩, rfl⟩, trivial⟩, by decide, by decide, rfl, rfl⟩

end Gateware
