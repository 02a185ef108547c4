import Gateware.Proofs.Lower.Write

/-! # Lowering leaves no selections

What is read has no selections once it is lowered, whatever it was. A target has none if it is a
complete place over rows with elements. Lowering something without selections changes nothing and
counts nothing.
-/
namespace Gateware

/-! ## Values that are read -/

theorem Row.mem_entriesFrom {position : Nat} {row : Row} {entry : Nat × Value}
    (h : entry ∈ Row.entriesFrom position row) : .value entry.2 ∈ row := by
  induction row generalizing position with
  | nil => cases h
  | cons e es ih =>
    cases e with
    | value v =>
      rcases List.mem_cons.mp h with rfl | h
      · exact List.mem_cons_self
      · exact List.mem_cons_of_mem _ (ih h)
    | row _ => exact List.mem_cons_of_mem _ (ih h)

theorem muxChain_selects {index : Value} {entries : List (Nat × Value)}
    (hi : index.selects = false) (he : ∀ entry ∈ entries, entry.2.selects = false) :
    (muxChain index entries).selects = false := by
  fun_induction muxChain index entries with
  | case1 => rfl
  | case2 position last => exact he _ List.mem_cons_self
  | case3 position v next rest hreach ih =>
    have hv := he _ List.mem_cons_self
    have hrest := ih fun entry h => he entry (List.mem_cons_of_mem _ h)
    simp [Value.selects, Value.anySelects, Value.int, hi, hrest, hv]
  | case4 position v next rest hreach ih =>
    exact ih fun entry h => he entry (List.mem_cons_of_mem _ h)

/-- A value that is read has no selections once it is lowered. -/
theorem Value.lowerReads_selects (v : Value) : v.lowerReads.selects = false := by
  induction v with
  | const c | signal c | clock c | reset c => rfl
  | op o vs ih =>
    rw [Value.lowerReads_op]
    exact Value.anySelects_eq_false.mpr (by simpa using ih)
  | slice v start stop ih => exact ih
  | concat vs ih =>
    rw [Value.lowerReads_concat]
    exact Value.anySelects_eq_false.mpr (by simpa using ih)
  | repl v count ih => exact ih
  | select row index ihr ihi =>
    rw [Value.lowerReads_select]
    refine muxChain_selects ihi fun entry he => ?_
    obtain ⟨v, hv, hentry⟩ := Row.mem_lowerReads (Row.mem_entriesFrom he)
    exact hentry ▸ ihr v (Row.mem_leaves hv)

theorem Value.lowerReads_of_selects {v : Value} (h : v.selects = false) : v.lowerReads = v := by
  induction v with
  | const c | signal c | clock c | reset c => rfl
  | op o vs ih =>
    have hvs := Value.anySelects_eq_false.mp h
    rw [Value.lowerReads_op, List.map_congr_left fun v hv => ih v hv (hvs v hv), List.map_id']
  | slice v start stop ih => exact congrArg (Value.slice · start stop) (ih h)
  | concat vs ih =>
    have hvs := Value.anySelects_eq_false.mp h
    rw [Value.lowerReads_concat, List.map_congr_left fun v hv => ih v hv (hvs v hv), List.map_id']
  | repl v count ih => exact congrArg (Value.repl · count) (ih h)
  | select row index _ _ => cases h

theorem Value.selectCount_of_selects {v : Value} (h : v.selects = false) : v.selectCount = 0 := by
  induction v with
  | const c | signal c | clock c | reset c => rfl
  | op o vs ih =>
    exact zero_of_cons rfl (fun _ _ => rfl) fun v hv =>
      ih v hv (Value.anySelects_eq_false.mp h v hv)
  | slice v start stop ih => exact ih h
  | concat vs ih =>
    exact zero_of_cons rfl (fun _ _ => rfl) fun v hv =>
      ih v hv (Value.anySelects_eq_false.mp h v hv)
  | repl v count ih => exact ih h
  | select row index _ _ => cases h

/-! ## Targets -/

theorem Value.indexCount_of_selects {v : Value} (h : v.selects = false) : v.indexCount = 0 := by
  induction v with
  | const c | signal c | clock c | reset c | op c d _ | repl c d _ => rfl
  | slice v start stop ih => exact ih h
  | concat vs ih =>
    exact zero_of_cons rfl (fun _ _ => rfl) fun v hv =>
      ih v hv (Value.anySelects_eq_false.mp h v hv)
  | select row index _ _ => cases h

theorem Value.splitCounts_eq {vs : List Value} (h : ∀ v ∈ vs, ∀ after, v.splitCount after = after)
    (after : Nat) : Value.splitCounts after vs = after := by
  induction vs with
  | nil => rfl
  | cons v vs ih =>
    rw [Value.splitCounts, h v List.mem_cons_self, ih fun u hu => h u (List.mem_cons_of_mem _ hu)]

theorem Value.splitCount_of_selects {v : Value} (h : v.selects = false) (after : Nat) :
    v.splitCount after = after := by
  induction v generalizing after with
  | const c | signal c | clock c | reset c | op c d _ | repl c d _ => rfl
  | slice v start stop ih => exact ih h after
  | concat vs ih =>
    exact Value.splitCounts_eq (fun v hv => ih v hv (Value.anySelects_eq_false.mp h v hv)) after
  | select row index _ _ => cases h

/-- A complete target over rows with elements. -/
def Value.FullTarget (v : Value) : Prop := v.IsTarget ∧ v.everyRow Row.filled = true

def Statement.SelectFree : Statement → Prop :=
  Statement.Every (fun target source => target.selects = false ∧ source.selects = false)
    (fun guard => guard.selects = false)

def Block.SelectFree : Block → Prop :=
  Block.Every (fun target source => target.selects = false ∧ source.selects = false)
    (fun guard => guard.selects = false)

/-- Every target is a place without selections, and nothing that is read has one. -/
def Statement.Plain : Statement → Prop :=
  Statement.Every
    (fun target source => (target.selects = false ∧ target.assignable = true) ∧
      source.selects = false)
    (fun guard => guard.selects = false)

def Block.Plain : Block → Prop :=
  Block.Every
    (fun target source => (target.selects = false ∧ target.assignable = true) ∧
      source.selects = false)
    (fun guard => guard.selects = false)

theorem Statement.Plain.selectFree {s : Statement} (h : s.Plain) : s.SelectFree :=
  h.combine h (fun _ _ h _ => ⟨h.1.1, h.2⟩) fun _ h _ => h

theorem Block.Plain.selectFree {block : Block} (h : Block.Plain block) : Block.SelectFree block :=
  h.combine h (fun _ _ h _ => ⟨h.1.1, h.2⟩) fun _ h _ => h

theorem caseChain_plain {index : Value} (hi : index.selects = false)
    {arms : List (Nat × Statement)} {last : Statement}
    (harms : ∀ arm ∈ arms, arm.2.Plain) (hlast : last.Plain) :
    (caseChain index arms last).Plain := by
  unfold caseChain
  split
  · exact hlast
  · refine ⟨hi, Case.every_iff.mpr fun c hc => ?_⟩
    rcases List.mem_append.mp hc with hc | hc
    · obtain ⟨arm, harm, rfl⟩ := List.mem_map.mp hc
      exact ⟨harms arm (List.mem_of_mem_filter harm), trivial⟩
    · obtain rfl := List.mem_singleton.mp hc
      exact ⟨hlast, trivial⟩

/-- Splitting the target leaves plain statements if it ends with some for every plain place. -/
def Value.SplitsPlain (t source : Value) : Prop :=
  ∀ (plug : Value → Value) (done : Value → Statement),
    (∀ t', t'.selects = false → t'.assignable = true → (done t').Plain) →
      (Value.split source plug done t.lowerIndices).Plain

theorem Value.splitParts_plain {source : Value} {vs : List Value}
    (h : ∀ v ∈ vs, v.SplitsPlain source) (plug : List Value → Value)
    (done : List Value → Statement)
    (hdone : ∀ ws : List Value, (∀ w ∈ ws, w.selects = false) → (∀ w ∈ ws, w.assignable = true) →
      (done ws).Plain) :
    (Value.splitParts source plug done (vs.map Value.lowerIndices)).Plain := by
  induction vs generalizing plug done with
  | nil => exact hdone [] nofun nofun
  | cons v vs ih =>
    rw [List.map_cons, Value.splitParts]
    refine h v List.mem_cons_self _ _ fun t' hfree hplace => ?_
    refine ih (fun u hu => h u (List.mem_cons_of_mem _ hu)) _ _ fun ws hws hplaces => ?_
    exact hdone _ (List.forall_mem_cons.mpr ⟨hfree, hws⟩)
      (List.forall_mem_cons.mpr ⟨hplace, hplaces⟩)

theorem Row.splitFrom_plain {source : Value} {plug : Value → Value}
    {done : Value → Statement} {row : Row} (hne : row ≠ []) (hflat : row.flat = true)
    (h : ∀ v, .value v ∈ row → (Value.split source plug done v.lowerIndices).Plain)
    (position : Nat) :
    ∃ arms last, Row.splitFrom source plug done position (row.map Element.lowerIndices) =
      some (arms, last) ∧ (∀ arm ∈ arms, arm.2.Plain) ∧ last.Plain := by
  induction row generalizing position with
  | nil => exact absurd rfl hne
  | cons e es ih =>
    obtain ⟨he, hes⟩ := Bool.and_eq_true_iff.mp hflat
    cases e with
    | row _ => cases he
    | value v =>
      have hv := h v List.mem_cons_self
      rw [List.map_cons, Element.lowerIndices, Row.splitFrom]
      by_cases hes0 : es = []
      · subst hes0
        exact ⟨[], _, rfl, by simp, hv⟩
      · obtain ⟨arms, last, hsplit, harms, hlast⟩ :=
          ih hes0 hes (fun u hu => h u (List.mem_cons_of_mem _ hu)) (position + 1)
        rw [hsplit]
        exact ⟨_, _, rfl, List.forall_mem_cons.mpr ⟨hv, harms⟩, hlast⟩

theorem Value.FullTarget.splitsPlain {t source : Value} (h : t.FullTarget) :
    t.SplitsPlain source := by
  obtain ⟨⟨hassign, hcomplete⟩, hfilled⟩ := h
  have hflat := (Value.checkComplete_iff t).mp hcomplete
  clear hcomplete
  induction t with
  | const c | op c d _ | repl c d _ => cases hassign
  | signal s | clock d | reset d => exact fun plug done hdone => hdone _ rfl rfl
  | slice v start stop ih =>
    exact fun plug done hdone => ih hfilled hassign hflat _ _ fun t' hfree hplace =>
      hdone _ hfree hplace
  | concat vs ih =>
    intro plug done hdone
    rw [Value.lowerIndices, Value.lowerAllIndices_eq_map, Value.split]
    refine Value.splitParts_plain (fun v hv => ?_) _ _ fun ws hws hplaces =>
      hdone _ (Value.anySelects_eq_false.mpr hws) (Value.allAssignable_iff.mpr hplaces)
    exact ih v hv (Value.allEveryRow_iff.mp hfilled v hv) (Value.allAssignable_iff.mp hassign v hv)
      (Value.allEveryRow_iff.mp hflat v hv)
  | select row index ih _ =>
    intro plug done hdone
    simp only [Value.everyRow, Bool.and_eq_true] at hfilled hflat
    have hne : row ≠ [] := by
      rintro rfl
      cases hfilled.1.1
    obtain ⟨arms, last, hsplit, harms, hlast⟩ := Row.splitFrom_plain hne hflat.1.1
      (fun v hv => ih v (Row.mem_leaves hv) (Row.everyRow_leaves hfilled.1.2 v (Row.mem_leaves hv))
        (Row.assignable_leaves hassign v (Row.mem_leaves hv))
        (Row.everyRow_leaves hflat.1.2 v (Row.mem_leaves hv)) plug done hdone) 0
    rw [Value.lowerIndices, Row.lowerIndices_eq_map, Value.split, hsplit]
    exact caseChain_plain (Value.lowerReads_selects index) harms hlast

/-! ## Statements -/

theorem lowerAssign_plain {target : Value} (h : target.FullTarget) (source : Value) :
    (lowerAssign target source).Plain :=
  h.splitsPlain _ _ fun _ hfree hplace => ⟨⟨hfree, hplace⟩, Value.lowerReads_selects source⟩

def Block.FullTargets : Block → Prop :=
  Block.Every (fun target _ => target.FullTarget) (fun _ => True)

theorem Block.plain_lower_of {block : Block} (h : ∀ s ∈ block, s.lower.Plain) :
    Block.Plain (Block.lower block) := by
  rw [Block.lower_eq_map]
  exact Block.every_iff.mpr (List.forall_mem_map.mpr h)

theorem Statement.lower_plain {s : Statement}
    (h : s.Every (fun target _ => target.FullTarget) fun _ => True) : s.lower.Plain := by
  induction s with
  | assign target source => exact lowerAssign_plain h source
  | branch condition taken otherwise iht iho =>
    refine ⟨Value.lowerReads_selects condition,
      Block.plain_lower_of fun s hs => iht s hs (Block.every_iff.mp h.2.1 s hs), ?_⟩
    cases otherwise with
    | none => trivial
    | some body =>
      exact Block.plain_lower_of fun s hs => iho body rfl s hs (Block.every_iff.mp h.2.2 s hs)
  | switch selector cases ih =>
    refine ⟨Value.lowerReads_selects selector, Case.every_iff.mpr fun c hc => ?_⟩
    rw [Case.lower_eq_map] at hc
    obtain ⟨given, hg, rfl⟩ := List.mem_map.mp hc
    exact Block.plain_lower_of fun s hs =>
      ih given hg s hs (Block.every_iff.mp (Case.every_iff.mp h.2 given hg) s hs)

/-- A block whose targets are complete and over rows with elements is plain once it is lowered. -/
theorem Block.lower_plain {block : Block} (h : Block.FullTargets block) :
    Block.Plain (Block.lower block) :=
  Block.plain_lower_of fun s hs => Statement.lower_plain (Block.every_iff.mp h s hs)

theorem Block.lower_selectFree {block : Block} (h : Block.FullTargets block) :
    Block.SelectFree (Block.lower block) :=
  (Block.lower_plain h).selectFree

/-! ## Lowering again -/

theorem lowerAssign_of_selects {target source : Value} (ht : target.selects = false)
    (hs : source.selects = false) :
    lowerAssign target source = .assign target source ∧ assignCount target source = {} := by
  constructor
  · rw [lowerAssign, splitAssign, Value.lowerIndices_of_selects ht, Value.lowerReads_of_selects hs,
      Value.split_of_selects ht]
  · rw [assignCount, Value.lowerIndices_of_selects ht, Value.splitCount_of_selects ht,
      Value.selectCount_of_selects hs, Value.indexCount_of_selects ht]

/-- Lowering the statement changes and counts nothing. -/
def Statement.Lowered (s : Statement) : Prop := s.lower = s ∧ s.lowerCount = {}

theorem Block.lower_of_lowered {block : Block} (h : ∀ s ∈ block, s.Lowered) :
    Block.lower block = block ∧ Block.lowerCount block = {} := by
  induction block with
  | nil => exact ⟨rfl, rfl⟩
  | cons s rest ih =>
    obtain ⟨hs, hcount⟩ := h s List.mem_cons_self
    obtain ⟨hrest, hrestCount⟩ := ih fun t ht => h t (List.mem_cons_of_mem _ ht)
    exact ⟨by rw [Block.lower, hs, hrest], by rw [Block.lowerCount, hcount, hrestCount]; rfl⟩

theorem Case.lower_of_lowered {cases : List Case} (h : ∀ c ∈ cases, ∀ s ∈ c.body, s.Lowered) :
    Case.lower cases = cases ∧ Case.lowerCount cases = {} := by
  induction cases with
  | nil => exact ⟨rfl, rfl⟩
  | cons c rest ih =>
    obtain ⟨patterns, body⟩ := c
    obtain ⟨hbody, hcount⟩ := Block.lower_of_lowered (h _ List.mem_cons_self)
    obtain ⟨hrest, hrestCount⟩ := ih fun d hd => h d (List.mem_cons_of_mem _ hd)
    simp only [Case.body] at hbody hcount
    exact ⟨by rw [Case.lower, hbody, hrest], by rw [Case.lowerCount, hcount, hrestCount]; rfl⟩

theorem Statement.SelectFree.lowered {s : Statement} (h : s.SelectFree) : s.Lowered := by
  induction s with
  | assign target source => exact lowerAssign_of_selects h.1 h.2
  | branch condition taken otherwise iht iho =>
    obtain ⟨htaken, hcount⟩ := Block.lower_of_lowered
      fun s hs => iht s hs (Block.every_iff.mp h.2.1 s hs)
    have hotherwise : Block.lowerOtherwise otherwise = otherwise ∧
        Block.otherwiseCount otherwise = {} := by
      cases otherwise with
      | none => exact ⟨rfl, rfl⟩
      | some body =>
        obtain ⟨hbody, hbodyCount⟩ := Block.lower_of_lowered
          fun s hs => iho body rfl s hs (Block.every_iff.mp h.2.2 s hs)
        exact ⟨congrArg some hbody, hbodyCount⟩
    constructor
    · rw [Statement.lower, Value.lowerReads_of_selects h.1, htaken, hotherwise.1]
    · rw [Statement.lowerCount, Value.selectCount_of_selects h.1, hcount, hotherwise.2]
      rfl
  | switch selector cases ih =>
    obtain ⟨hcases, hcount⟩ := Case.lower_of_lowered fun c hc s hs =>
      ih c hc s hs (Block.every_iff.mp (Case.every_iff.mp h.2 c hc) s hs)
    constructor
    · rw [Statement.lower, Value.lowerReads_of_selects h.1, hcases]
    · rw [Statement.lowerCount, Value.selectCount_of_selects h.1, hcount]
      rfl

/-- Lowering a block without selections changes and counts nothing. -/
theorem Block.SelectFree.lowered {block : Block} (h : Block.SelectFree block) :
    Block.lower block = block ∧ Block.lowerCount block = {} :=
  Block.lower_of_lowered fun s hs => Statement.SelectFree.lowered (Block.every_iff.mp h s hs)

end Gateware
