import Gateware.Proofs.Made

/-! # The shape of a lowered selection

A chain of multiplexers has the common shape of the elements that the index can reach. The selection
it stands for has a shape of its own, made from all elements of the row, with a bit more for a
signed one and none for an unsigned one beside it. Lowering keeps the shape of a value if the two
agree at every selection inside it, and of a single selection only if they do.
-/
namespace Gateware

/-! ## The values inside a value -/

def Value.children : Value → List Value
  | .const _ | .signal _ | .clock _ | .reset _ => []
  | .op _ operands => operands
  | .slice value _ _ => [value]
  | .concat parts => parts
  | .repl value _ => [value]
  | .select row index => Row.leaves row ++ [index]

mutual
/-- A value and all values inside it, elements that are not selected and indices among them. -/
def Value.parts : Value → List Value
  | .const c => [.const c]
  | .signal s => [.signal s]
  | .clock domain => [.clock domain]
  | .reset domain => [.reset domain]
  | .op op operands => .op op operands :: Value.allParts operands
  | .slice value start stop => .slice value start stop :: value.parts
  | .concat parts => .concat parts :: Value.allParts parts
  | .repl value count => .repl value count :: value.parts
  | .select row index => .select row index :: (Row.parts row ++ index.parts)

def Value.allParts : List Value → List Value
  | [] => []
  | v :: vs => v.parts ++ Value.allParts vs

def Row.parts : List Element → List Value
  | [] => []
  | e :: es => Element.parts e ++ Row.parts es

def Element.parts : Element → List Value
  | .value v => v.parts
  | .row elements => Row.parts elements
end

theorem Value.allParts_eq (vs : List Value) : Value.allParts vs = vs.flatMap Value.parts :=
  flatMap_of_cons rfl (fun _ _ => rfl) vs

theorem Row.parts_eq (row : Row) : Row.parts row = (Row.leaves row).flatMap Value.parts :=
  Row.walk_eq Row.parts Element.parts rfl (fun _ _ => rfl) (fun _ => rfl) (fun _ => rfl) row

theorem Value.parts_eq (v : Value) : v.parts = v :: v.children.flatMap Value.parts := by
  cases v <;> simp [Value.parts, Value.children, Value.allParts_eq, Row.parts_eq]

theorem Value.forall_parts {P : Value → Prop} {v : Value} :
    (∀ u ∈ v.parts, P u) ↔ P v ∧ ∀ w ∈ v.children, ∀ u ∈ w.parts, P u := by
  rw [Value.parts_eq]
  simp only [List.forall_mem_cons, List.mem_flatMap]
  exact and_congr_right fun _ => ⟨fun h w hw u hu => h u ⟨w, hw, hu⟩,
    fun h u ⟨w, hw, hu⟩ => h w hw u hu⟩

/-- What a value has whenever its children have it, all values have. -/
theorem Value.byChildren {P : Value → Prop}
    (step : ∀ v : Value, (∀ w ∈ v.children, P w) → P v) (v : Value) : P v := by
  induction v with
  | const c | signal c | clock c | reset c => exact step _ nofun
  | op o vs ih | concat vs ih => exact step _ ih
  | slice v start stop ih | repl v count ih => exact step _ (List.forall_mem_singleton.mpr ih)
  | select row index ihr ihi =>
    exact step _ (List.forall_mem_append.mpr ⟨ihr, List.forall_mem_singleton.mpr ihi⟩)

theorem Value.everyRow_children {check : Row → Bool} {v : Value} (h : v.everyRow check = true) :
    ∀ w ∈ v.children, w.everyRow check = true := by
  cases v with
  | const c | signal c | clock c | reset c => exact nofun
  | op o vs | concat vs => exact Value.allEveryRow_iff.mp h
  | slice v start stop | repl v count => exact List.forall_mem_singleton.mpr h
  | select row index =>
    simp only [Value.everyRow, Bool.and_eq_true] at h
    exact List.forall_mem_append.mpr
      ⟨Row.everyRow_leaves h.1.2, List.forall_mem_singleton.mpr h.2⟩

/-! ## The common shape of several -/

namespace Shape

/-- The width of a signed shape that holds the numbers of this one. -/
def signedWidth (s : Shape) : Nat := if s.signed then s.width else clampWidth (s.width + 1)

/-- The narrowest shape that holds the numbers of all of these. -/
def common (shapes : List Shape) : Shape :=
  if shapes.any Shape.signed then ofSigned ((shapes.map signedWidth).foldr max 0)
  else ofUnsigned ((shapes.map Shape.width).foldr max 0)

/-- The members of a list that an index of this shape can pick, if it picks the last one wherever
the list has ended. The first of them has the given position. -/
def reachedFrom (s : Shape) (position : Nat) (members : List Shape) : List Shape :=
  ((members.zipIdx position).filter fun member =>
    s.reaches member.2 || member.2 + 1 == position + members.length).map Prod.fst

def reached (s : Shape) (members : List Shape) : List Shape := s.reachedFrom 0 members

theorem clampWidth_max (a b : Nat) : clampWidth (max a b) = max (clampWidth a) (clampWidth b) := by
  simp only [clampWidth]
  omega

/-- Without signs the bit for the sign can be added at the end. -/
theorem signedWidth_max {shapes : List Shape} (hne : shapes ≠ [])
    (h : shapes.any Shape.signed = false) :
    (shapes.map signedWidth).foldr max 0 =
      clampWidth ((shapes.map Shape.width).foldr max 0 + 1) := by
  induction shapes with
  | nil => exact absurd rfl hne
  | cons s rest ih =>
    obtain ⟨hs, hrest⟩ := Bool.or_eq_false_iff.mp h
    have hhead : s.signedWidth = clampWidth (s.width + 1) := by simp [signedWidth, hs]
    cases rest with
    | nil => simp [hhead]
    | cons t ts =>
      have hmax := ih (List.cons_ne_nil _ _) hrest
      rw [List.map_cons, List.foldr_cons, hhead, hmax, ← clampWidth_max]
      congr 1
      simp only [List.map_cons, List.foldr_cons]
      omega

theorem common_singleton (s : Shape) : common [s] = s := by
  cases s with
  | mk width signed => cases signed <;> simp [common, signedWidth, ofSigned, ofUnsigned]

/-- The common shape is what multiplexers one after the other come to. -/
theorem common_cons (s : Shape) {shapes : List Shape} (hne : shapes ≠ []) :
    common (s :: shapes) = s.unify (common shapes) := by
  cases hs : s.signed <;> cases hany : shapes.any Shape.signed
  · simp [common, unify, hs, hany, ofUnsigned]
  · simp [common, unify, hs, hany, ofSigned, signedWidth]
  -- the rest is unified without signs first and gets its bit for the sign afterwards
  · simp [common, unify, hs, hany, ofSigned, ofUnsigned, signedWidth_max hne hany, signedWidth]
  · simp [common, unify, hs, hany, ofSigned, signedWidth]

theorem reachedFrom_singleton (s t : Shape) (position : Nat) :
    s.reachedFrom position [t] = [t] := by
  simp [reachedFrom]

theorem reachedFrom_cons (s t u : Shape) (position : Nat) (rest : List Shape) :
    s.reachedFrom position (t :: u :: rest) =
      if s.reaches position then t :: s.reachedFrom (position + 1) (u :: rest)
      else s.reachedFrom (position + 1) (u :: rest) := by
  have hlength : position + (t :: u :: rest).length = position + 1 + (u :: rest).length := by
    simp only [List.length_cons]
    omega
  have hlast : (position + 1 == position + 1 + (u :: rest).length) = false := by simp
  rw [reachedFrom, hlength, List.zipIdx_cons, List.filter_cons, hlast, Bool.or_false]
  split <;> rfl

theorem mem_of_mem_reachedFrom {s t : Shape} {position : Nat} {members : List Shape}
    (h : t ∈ s.reachedFrom position members) : t ∈ members := by
  obtain ⟨member, hmember, rfl⟩ := List.mem_map.mp h
  exact List.fst_mem_of_mem_zipIdx (List.mem_filter.mp hmember).1

theorem reachedFrom_ne_nil (s : Shape) {members : List Shape} (hne : members ≠ [])
    (position : Nat) : s.reachedFrom position members ≠ [] := by
  induction members generalizing position with
  | nil => exact absurd rfl hne
  | cons t rest ih =>
    cases rest with
    | nil => simp [reachedFrom_singleton]
    | cons u rest =>
      rw [reachedFrom_cons]
      split
      · exact List.cons_ne_nil _ _
      · exact ih (List.cons_ne_nil _ _) _

end Shape

/-! ## Lowering -/

/-- A chain has the common shape of the elements that the index can reach. -/
theorem muxChain_shape {index : Value} {row : Row} (hne : row ≠ []) (hflat : row.flat = true)
    (position : Nat) :
    (muxChain index (Row.entriesFrom position row)).shape =
      Shape.common (index.shape.reachedFrom position (row.map Element.shape)) := by
  induction row generalizing position with
  | nil => exact absurd rfl hne
  | cons e es ih =>
    obtain ⟨he, hes⟩ := Bool.and_eq_true_iff.mp hflat
    cases e with
    | row _ => cases he
    | value v =>
      cases es with
      | nil =>
        rw [List.map_singleton, Shape.reachedFrom_singleton, Shape.common_singleton]
        rfl
      | cons f fs =>
        cases f with
        | row _ => cases hes
        | value u =>
          have hrest := ih (List.cons_ne_nil _ _) hes (position + 1)
          rw [muxChain_cons, List.map_cons, List.map_cons, Shape.reachedFrom_cons,
            ← List.map_cons]
          split
          · rw [Shape.common_cons _ (Shape.reachedFrom_ne_nil _ (by simp) _), ← hrest]
            rfl
          · exact hrest

/-- The value is no selection, or it is one whose shape is the common shape of the elements that its
index can reach. -/
def Value.Tight : Value → Prop
  | .select row index =>
    Row.shape row = Shape.common (index.shape.reached (row.map Element.shape))
  | _ => True

instance : DecidablePred Value.Tight := fun v =>
  match v with
  | .select _ _ => inferInstanceAs (Decidable (_ = _))
  | .const _ | .signal _ | .clock _ | .reset _ | .op _ _ | .slice _ _ _ | .concat _ | .repl _ _ =>
    .isTrue trivial

def Value.KeepsShape (v : Value) : Prop := v.lowerReads.shape = v.shape

theorem Value.shapes_lowerReads {vs : List Value} (h : ∀ v ∈ vs, v.KeepsShape) :
    Value.shapes (vs.map Value.lowerReads) = Value.shapes vs := by
  induction vs with
  | nil => rfl
  | cons v vs ih =>
    obtain ⟨hv, hvs⟩ := List.forall_mem_cons.mp h
    rw [List.map_cons, Value.shapes, Value.shapes, hv, ih hvs]

theorem Value.totalWidth_lowerReads {vs : List Value} (h : ∀ v ∈ vs, v.KeepsShape) :
    Value.totalWidth (vs.map Value.lowerReads) = Value.totalWidth vs := by
  induction vs with
  | nil => rfl
  | cons v vs ih =>
    obtain ⟨hv, hvs⟩ := List.forall_mem_cons.mp h
    rw [List.map_cons, Value.totalWidth, Value.totalWidth, hv, ih hvs]

theorem Value.lowerReads_select_shape {row : Row} {index : Value}
    (hwhole : (Value.select row index).Whole)
    (hrow : ∀ u ∈ Row.leaves row, u.KeepsShape) (hindex : index.KeepsShape) :
    (Value.select row index).lowerReads.shape =
      Shape.common (index.shape.reached (row.map Element.shape)) := by
  simp only [Value.Whole, Value.everyRow, Bool.and_eq_true] at hwhole
  obtain ⟨⟨⟨hfilled, hflat⟩, -⟩, -⟩ := hwhole
  have hne : row.lowerReads ≠ [] := by
    intro hnil
    rw [List.map_eq_nil_iff.mp hnil] at hfilled
    cases hfilled
  have hshapes : row.lowerReads.map Element.shape = row.map Element.shape := by
    rw [Row.lowerReads, List.map_map]
    refine List.map_congr_left fun e he => ?_
    cases e with
    | value u => exact hrow u (Row.mem_leaves he)
    | row _ => cases List.all_eq_true.mp hflat _ he
  rw [Value.lowerReads_select, Row.entries, muxChain_shape hne (Row.lowerReads_flat hflat),
    hshapes, hindex]
  rfl

/-- Where its children keep their shapes, a value keeps its own exactly if it is tight. -/
theorem Value.keepsShape_iff {v : Value} (hwhole : v.Whole)
    (h : ∀ w ∈ v.children, w.KeepsShape) : v.KeepsShape ↔ v.Tight := by
  cases v with
  | const c | signal c | clock c | reset c | slice c d e => exact iff_of_true rfl trivial
  | op o vs =>
    have hvs : ∀ v ∈ vs, v.KeepsShape := h
    refine iff_of_true ?_ trivial
    rw [Value.KeepsShape, Value.lowerReads_op, Value.shape, Value.shape,
      Value.shapes_lowerReads hvs]
  | concat vs =>
    have hvs : ∀ v ∈ vs, v.KeepsShape := h
    refine iff_of_true ?_ trivial
    rw [Value.KeepsShape, Value.lowerReads_concat, Value.shape, Value.shape,
      Value.totalWidth_lowerReads hvs]
  | repl v count =>
    have hv : v.KeepsShape := h v (List.mem_singleton_self v)
    refine iff_of_true ?_ trivial
    change Shape.ofUnsigned (clampWidth (v.lowerReads.shape.width * count)) = _
    rw [hv, Value.shape]
  | select row index =>
    obtain ⟨hrow, hindex⟩ := List.forall_mem_append.mp h
    rw [Value.KeepsShape, Value.lowerReads_select_shape hwhole hrow
      (hindex index (List.mem_singleton_self index))]
    exact eq_comm

theorem Value.keepsShape_of_tight {v : Value} (hwhole : v.Whole) (h : ∀ u ∈ v.parts, u.Tight) :
    v.KeepsShape := by
  induction v using Value.byChildren with
  | step v ih =>
    obtain ⟨hv, hchildren⟩ := Value.forall_parts.mp h
    refine (Value.keepsShape_iff hwhole fun w hw => ?_).mpr hv
    exact ih w hw (Value.everyRow_children hwhole w hw) (hchildren w hw)

/-- Lowering a complete value from the checked constructors keeps its shape if every selection in it
is tight. One that is not changes it, unless something inside it has changed its shape already. -/
theorem Value.lowerReads_shape {v : Value} (made : v.Made) (complete : v.checkComplete = .ok ()) :
    ((∀ u ∈ v.parts, u.Tight) → v.lowerReads.shape = v.shape) ∧
      ((∀ w ∈ v.children, w.lowerReads.shape = w.shape) →
        (v.lowerReads.shape = v.shape ↔ v.Tight)) :=
  have hwhole := made.whole complete
  ⟨Value.keepsShape_of_tight hwhole, Value.keepsShape_iff hwhole⟩

/-- A signed and an unsigned value under an index that is selected itself: one bit reaches the first
two and the last of four. -/
def mixedAccess : Value :=
  let a := Value.signal { id := 0, shape := .ofSigned 4 }
  let b := Value.signal (.named 1 "b" 4)
  let i := Value.signal (.named 2 "i" 2)
  let j := Value.signal (.named 3 "j" 1)
  .select [.value a, .value b] (.select [.value i, .value i, .value j, .value i] j)

theorem Value.lowerReads_shape_mixed :
    mixedAccess.Made ∧ mixedAccess.checkComplete = .ok () ∧ (∀ u ∈ mixedAccess.parts, u.Tight) ∧
      mixedAccess.lowerReads.shape = mixedAccess.shape ∧
      (∀ w ∈ mixedAccess.children, w.lowerReads.shape = w.shape) ∧ mixedAccess.Tight := by
  have made : mixedAccess.Made := by
    refine Value.Made.ofRow ?_ (Value.Made.ofRow ?_ (.signal _) rfl) rfl
    · simp [Row.leaves, Element.leaves, Value.Made.signal]
    · simp [Row.leaves, Element.leaves, Value.Made.signal]
  have complete : mixedAccess.checkComplete = .ok () := rfl
  have tight : ∀ u ∈ mixedAccess.parts, u.Tight := by decide
  have children : ∀ w ∈ mixedAccess.children, w.lowerReads.shape = w.shape := by decide
  obtain ⟨hkeeps, hexact⟩ := Value.lowerReads_shape made complete
  exact ⟨made, complete, tight, hkeeps tight, children, (hexact children).mp (hkeeps tight)⟩

/-- A row of one signed value; its selection has a bit more than the value. -/
def signedAccess : Value :=
  .select [.value (.signal { id := 0, shape := .ofSigned 4 })] (.signal (.named 1 "i" 1))

/-- A row whose only wide element stands where an index of one bit does not reach. -/
def shortIndexAccess : Value :=
  let a := Value.signal (.named 0 "a" 1)
  .select [.value a, .value a, .value (.signal (.named 1 "b" 8)), .value a]
    (.signal (.named 2 "i" 1))

/-- Both lose bits, and a slice that the checks allow becomes one that they refuse. -/
theorem Value.lowerReads_loses_bits :
    (signedAccess.Made ∧ signedAccess.checkComplete = .ok () ∧
      signedAccess.shape = .ofSigned 5 ∧ signedAccess.lowerReads.shape = .ofSigned 4) ∧
    (shortIndexAccess.Made ∧ shortIndexAccess.checkComplete = .ok () ∧
      shortIndexAccess.shape = .ofUnsigned 8 ∧ shortIndexAccess.lowerReads.shape = .ofUnsigned 1) ∧
    (∃ top, signedAccess.bits 4 5 = .ok top ∧ top.lowerReads = .slice signedAccess.lowerReads 4 5 ∧
      ∃ e, signedAccess.lowerReads.bits 4 5 = .error e) := by
  refine ⟨⟨Value.Made.ofRow ?_ (.signal _) rfl, rfl, by decide, by decide⟩,
    ⟨Value.Made.ofRow ?_ (.signal _) rfl, rfl, by decide, by decide⟩, _, rfl, rfl, _, rfl⟩
  · simp [Row.leaves, Element.leaves, Value.Made.signal]
  · simp [Row.leaves, Element.leaves, Value.Made.signal]

end Gateware
