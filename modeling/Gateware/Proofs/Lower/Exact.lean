import Gateware.Proofs.Lower.Meaning
import Gateware.Proofs.Lower.Shape

/-! # Lowered reads succeed

A chain of multiplexers evaluates all elements that the index can reach, a selection only the one it
picks. Where every value inside the selection has bits, the chain has bits too, so that the two
agree without a condition on the lowered side.
-/
namespace Gateware

section

variable {st : State}

/-! ## The chain -/

/-- A position that an index with bits reaches is narrow enough to be compared with it. -/
theorem Value.int_hasBits {index : Value} (hindex : index.HasBits st) {position : Nat}
    (hreach : index.shape.reaches position = true) : (Value.int position).HasBits st := by
  obtain ⟨bits, hbits⟩ := hindex
  have hwidth : index.shape.width ≤ evalLimit := (Value.eval_fits hbits).1
  refine ⟨position, Value.eval_int.mpr ⟨Bits.needed_le (by decide) ?_, rfl⟩⟩
  refine ((Shape.reaches_iff hwidth position).mp hreach).trans_le ?_
  refine Nat.pow_le_pow_right Nat.two_pos ?_
  split <;> omega

theorem Value.isAt_hasBits {index : Value} (hindex : index.HasBits st) {position : Nat}
    (hreach : index.shape.reaches position = true) :
    (Value.op .eq [index, .int position]).HasBits st := by
  obtain ⟨n, hn⟩ := hindex.number
  obtain ⟨m, hm⟩ := (Value.int_hasBits hindex hreach).number
  have hns : Value.evalAll st [index, .int position] = .ok [n, m] := by
    simp only [Value.evalAll_cons_eq_ok, Value.evalAll_nil_eq_ok]
    exact ⟨n, hn, _, ⟨m, hm, _, rfl, rfl⟩, rfl⟩
  have hfits : (Value.op .eq [index, .int position]).width ≤ evalLimit := by
    change 1 ≤ evalLimit
    decide
  exact ⟨_, Value.eval_op_eq_ok.mpr ⟨hfits, _, hns, _, rfl, rfl⟩⟩

theorem Value.choose_hasBits {guard v rest : Value} {width : Nat} (hwidth : width ≤ evalLimit)
    (hguard : guard.HasBits st) (hv : v.HasBits st) (hrest : rest.HasBits st)
    (hvs : v.shape = .ofUnsigned width) (hrs : rest.shape = .ofUnsigned width) :
    (Value.op .mux [guard, v, rest]).HasBits st := by
  obtain ⟨g, hg⟩ := hguard.number
  obtain ⟨low, hlow⟩ := hv.number
  obtain ⟨high, hhigh⟩ := hrest.number
  have hns : Value.evalAll st [guard, v, rest] = .ok [g, low, high] := by
    simp only [Value.evalAll_cons_eq_ok, Value.evalAll_nil_eq_ok]
    exact ⟨g, hg, _, ⟨low, hlow, _, ⟨high, hhigh, _, rfl, rfl⟩, rfl⟩, rfl⟩
  have hfits : (Value.op .mux [guard, v, rest]).width ≤ evalLimit := by
    simpa [Value.width, Value.shape, Value.shapes, Op.resultShape, Shape.unify, hvs, hrs,
      Shape.ofUnsigned] using hwidth
  exact ⟨_, Value.eval_op_eq_ok.mpr ⟨hfits, _, hns, _, rfl, rfl⟩⟩

/-- A chain over values of one unsigned width has bits if the index and all the values do. -/
theorem muxChain_hasBits {index : Value} (hindex : index.HasBits st) {width : Nat}
    (hwidth : width ≤ evalLimit) {row : Row} (hne : row ≠ []) (hflat : row.flat = true)
    (hrow : ∀ u, .value u ∈ row → u.HasBits st ∧ u.shape = .ofUnsigned width) (position : Nat) :
    (muxChain index (Row.entriesFrom position row)).HasBits st := by
  induction row generalizing position with
  | nil => exact absurd rfl hne
  | cons e es ih =>
    obtain ⟨he, hes⟩ := Bool.and_eq_true_iff.mp hflat
    cases e with
    | row _ => cases he
    | value v =>
      obtain ⟨hv, hvs⟩ := hrow v List.mem_cons_self
      cases es with
      | nil => exact hv
      | cons f fs =>
        cases f with
        | row _ => cases hes
        | value u =>
          have hothers := fun w hw => hrow w (List.mem_cons_of_mem _ hw)
          have hrest := ih (List.cons_ne_nil _ _) hes hothers (position + 1)
          rw [muxChain_cons]
          split
          · rename_i hreach
            obtain ⟨n, hn⟩ := hindex.number
            obtain ⟨high, hhigh⟩ := hrest
            -- the shape of the rest is known only now that the rest has bits
            have hrs := (muxChain_eval hn (List.cons_ne_nil _ _) hes
              (fun w hw _ _ => (hothers w hw).2) hhigh).1
            exact Value.choose_hasBits hwidth (Value.isAt_hasBits hindex hreach) hv
              ⟨high, hhigh⟩ hvs hrs
          · exact hrest

/-! ## Whole values -/

theorem Value.lowerReads_select_hasBits {row : Row} {index : Value} (hrow : row.regular = true)
    (hv : (Value.select row index).HasBits st)
    (hfollows : ∀ u ∈ Row.leaves row, u.Follows st u.lowerReads)
    (hleaves : ∀ u ∈ Row.leaves row, u.lowerReads.HasBits st)
    (hindex : index.lowerReads.HasBits st) : (Value.select row index).lowerReads.HasBits st := by
  obtain ⟨hne, hflat, width, hwidth⟩ := Row.regular_shape hrow
  have hfits : width ≤ evalLimit := by
    obtain ⟨bits, hbits⟩ := hv
    have hle := (Value.eval_fits hbits).1
    rw [Value.width, Value.shape, Row.shape_uniform hne hwidth] at hle
    change min width widthLimit ≤ evalLimit at hle
    have : evalLimit < widthLimit := by decide
    omega
  have helements : ∀ u, .value u ∈ row.lowerReads →
      u.HasBits st ∧ u.shape = .ofUnsigned width := by
    intro u hu
    obtain ⟨w, hw, rfl⟩ := Row.mem_lowerReads hu
    have hmem := Row.mem_leaves hw
    obtain ⟨bits, hbits⟩ := hleaves w hmem
    exact ⟨⟨bits, hbits⟩, ((hfollows w hmem) bits hbits).1.trans (hwidth _ hw)⟩
  rw [Value.lowerReads_select]
  exact muxChain_hasBits hindex hfits (by simpa [Row.lowerReads] using hne)
    (Row.lowerReads_flat hflat) helements 0

/-- A value with bits has them once it is lowered if its children have. -/
theorem Value.lowerReads_hasBits_step {v : Value} (hrows : v.everyRow Row.regular = true)
    (hv : v.HasBits st) (h : ∀ w ∈ v.children, w.lowerReads.HasBits st) :
    v.lowerReads.HasBits st := by
  have hfollows : ∀ w ∈ v.children, w.Follows st w.lowerReads :=
    fun w hw => Value.lowerReads_follows (Value.everyRow_children hrows w hw)
  obtain ⟨bits, hbits⟩ := hv
  cases v with
  | const c | signal c | clock c | reset c => exact ⟨bits, hbits⟩
  | op o vs =>
    obtain ⟨ns', hns'⟩ := Value.evalAll_of_hasBits (List.forall_mem_map.mpr h)
    have hvs : ∀ v ∈ vs, v.Follows st v.lowerReads := hfollows
    obtain ⟨hshapes, hsame⟩ := Value.evalAll_follows hvs hns'
    obtain ⟨hfits, ns, hns, n, hn, -⟩ := Value.eval_op_eq_ok.mp hbits
    obtain rfl := hsame ns hns
    have hwidth : (Value.op o (vs.map Value.lowerReads)).width = (Value.op o vs).width := by
      simp only [Value.width, Value.shape, hshapes]
    rw [Value.lowerReads_op]
    exact ⟨_, Value.eval_op_eq_ok.mpr ⟨hwidth.trans_le hfits, ns, hns', n, hn, rfl⟩⟩
  | slice v start stop =>
    obtain ⟨inner, hinner⟩ := h v (List.mem_singleton_self v)
    obtain ⟨hfits, -⟩ := Value.eval_slice_eq_ok.mp hbits
    exact ⟨_, Value.eval_slice_eq_ok.mpr ⟨hfits, inner, hinner, rfl⟩⟩
  | concat vs =>
    obtain ⟨inner, hinner⟩ := Value.evalParts_of_hasBits (List.forall_mem_map.mpr h)
    obtain ⟨htotal, -⟩ := Value.evalParts_follows hfollows hinner
    obtain ⟨hfits, -⟩ := Value.eval_concat_eq_ok.mp hbits
    rw [Value.lowerReads_concat]
    exact ⟨_, Value.eval_concat_eq_ok.mpr ⟨htotal.trans_le hfits, inner, hinner, rfl⟩⟩
  | repl v count =>
    obtain ⟨inner, hinner⟩ := h v (List.mem_singleton_self v)
    obtain ⟨hshape, -⟩ := hfollows v (List.mem_singleton_self v) inner hinner
    obtain ⟨hfits, -⟩ := Value.eval_repl_eq_ok.mp hbits
    have hwidth : (Value.repl v.lowerReads count).width = (Value.repl v count).width := by
      simp only [Value.width, Value.shape, hshape]
    exact ⟨_, Value.eval_repl_eq_ok.mpr ⟨hwidth.trans_le hfits, inner, hinner, rfl⟩⟩
  | select row index =>
    obtain ⟨hleaves, hindex⟩ := List.forall_mem_append.mp h
    have hrow : Row.regular row = true :=
      (Bool.and_eq_true_iff.mp (Bool.and_eq_true_iff.mp hrows).1).1
    exact Value.lowerReads_select_hasBits hrow ⟨bits, hbits⟩
      (List.forall_mem_append.mp hfollows).1 hleaves (hindex index (List.mem_singleton_self index))

theorem Value.lowerReads_hasBits {v : Value} (hrows : v.everyRow Row.regular = true)
    (h : ∀ u ∈ v.parts, u.HasBits st) : v.lowerReads.HasBits st := by
  induction v using Value.byChildren with
  | step v ih =>
    obtain ⟨hv, hchildren⟩ := Value.forall_parts.mp h
    exact Value.lowerReads_hasBits_step hrows hv
      fun w hw => ih w hw (Value.everyRow_children hrows w hw) (hchildren w hw)

end

/-! ## Rows of one unsigned width -/

theorem Shape.common_uniform {width : Nat} {shapes : List Shape} (hne : shapes ≠ [])
    (h : ∀ s ∈ shapes, s = .ofUnsigned width) : Shape.common shapes = .ofUnsigned width := by
  induction shapes with
  | nil => exact absurd rfl hne
  | cons s rest ih =>
    obtain ⟨hs, hrest⟩ := List.forall_mem_cons.mp h
    by_cases hnil : rest = []
    · rw [hnil, Shape.common_singleton, hs]
    · rw [Shape.common_cons s hnil, ih hnil hrest, hs]
      simp [Shape.unify, Shape.ofUnsigned]

theorem Value.tight_of_regular {row : Row} (hrow : row.regular = true)
    (hsized : ∀ u ∈ Row.leaves row, u.width ≤ widthLimit) (index : Value) :
    (Value.select row index).Tight := by
  obtain ⟨hne, hflat, width, hwidth⟩ := Row.regular_shape hrow
  have hclamp : clampWidth width = width := by
    obtain ⟨e, he⟩ := List.exists_mem_of_ne_nil row hne
    cases e with
    | row _ => exact absurd (List.all_eq_true.mp hflat _ he) nofun
    | value u =>
      have hle := hsized u (Row.mem_leaves he)
      have hu : u.shape = .ofUnsigned width := hwidth _ he
      rw [Value.width, hu] at hle
      exact Nat.min_eq_left hle
  have hreached : ∀ s ∈ index.shape.reached (row.map Element.shape), s = .ofUnsigned width := by
    intro s hs
    obtain ⟨e, he, rfl⟩ := List.mem_map.mp (Shape.mem_of_mem_reachedFrom hs)
    exact hwidth e he
  have hcommon := Shape.common_uniform
    (Shape.reachedFrom_ne_nil _ (List.map_eq_nil_iff.not.mpr hne) _) hreached
  change Row.shape row = Shape.common (index.shape.reached (row.map Element.shape))
  rw [Row.shape_uniform hne hwidth, hclamp, Shape.reached, hcommon]

theorem Value.parts_tight {v : Value} (hrows : v.everyRow Row.regular = true)
    (hsized : ∀ u ∈ v.parts, u.width ≤ widthLimit) : ∀ u ∈ v.parts, u.Tight := by
  induction v using Value.byChildren with
  | step v ih =>
    obtain ⟨-, hchildren⟩ := Value.forall_parts.mp hsized
    refine Value.forall_parts.mpr ⟨?_, fun w hw =>
      ih w hw (Value.everyRow_children hrows w hw) (hchildren w hw)⟩
    cases v with
    | select row index =>
      have hrow : Row.regular row = true :=
        (Bool.and_eq_true_iff.mp (Bool.and_eq_true_iff.mp hrows).1).1
      refine Value.tight_of_regular hrow (fun u hu => ?_) index
      exact (Value.forall_parts.mp (hchildren u (List.mem_append_left _ hu))).1
    | _ => trivial

/-- Lowering a complete value over filled rows of unsigned elements of one width each leaves no
selection and keeps the shape, if the values inside it are no wider than a width can count. In every
state in which all of them have bits, the elements that are not selected too, the lowered value has
exactly the bits of the value. -/
theorem Value.lowerReads_exact {v : Value} (complete : v.checkComplete = .ok ())
    (filled : v.everyRow Row.filled = true) (uniform : v.everyRow Row.uniform = true)
    (sized : ∀ u ∈ v.parts, u.width ≤ widthLimit) :
    v.lowerReads.selects = false ∧ v.lowerReads.shape = v.shape ∧
      ∀ st : State, (∀ u ∈ v.parts, ∃ bits, u.eval st = .ok bits) →
        ∃ bits, v.eval st = .ok bits ∧ v.lowerReads.eval st = .ok bits := by
  have hrows := Value.everyRow_regular complete filled uniform
  have hwhole : v.Whole :=
    Value.whole_iff.mpr ⟨filled, (Value.checkComplete_iff v).mp complete⟩
  refine ⟨Value.lowerReads_selects v,
    Value.keepsShape_of_tight hwhole (Value.parts_tight hrows sized), fun st h => ?_⟩
  obtain ⟨bits, hbits⟩ := (Value.forall_parts.mp h).1
  obtain ⟨bits', hbits'⟩ := Value.lowerReads_hasBits hrows h
  obtain rfl := (Value.lowerReads_follows hrows bits' hbits').2 bits hbits
  exact ⟨bits, hbits, hbits'⟩

/-- A sum with a selection whose second element and index are selections again. -/
def nestedAccess : Value :=
  let a := Value.signal (.named 0 "a" 4)
  let b := Value.signal (.named 1 "b" 4)
  let i := Value.signal { id := 2, shape := .ofSigned 2 }
  .op .add [.select [.value a, .value (.select [.value b, .value a] i), .value a]
    (.select [.value b, .value a] i), b]

/-- The inner index is negative and picks the last element, which is an index past the end. -/
def nestedState : State :=
  ((State.empty.setBits (.named 0 "a" 4) 5).setBits (.named 1 "b" 4) 9).set
    { id := 2, shape := .ofSigned 2 } (-1)

theorem Value.lowerReads_exact_nested :
    nestedAccess.checkComplete = .ok () ∧ nestedAccess.everyRow Row.filled = true ∧
      nestedAccess.everyRow Row.uniform = true ∧
      (∀ u ∈ nestedAccess.parts, u.width ≤ widthLimit) ∧
      (∀ u ∈ nestedAccess.parts, ∃ bits, u.eval nestedState = .ok bits) ∧
      nestedAccess.lowerReads.selects = false ∧
      nestedAccess.lowerReads.shape = nestedAccess.shape ∧
      nestedAccess.eval nestedState = .ok 14 ∧
      nestedAccess.lowerReads.eval nestedState = .ok 14 := by
  have complete : nestedAccess.checkComplete = .ok () := rfl
  have filled : nestedAccess.everyRow Row.filled = true := rfl
  have uniform : nestedAccess.everyRow Row.uniform = true := rfl
  have sized : ∀ u ∈ nestedAccess.parts, u.width ≤ widthLimit := by decide
  have hparts : ∀ u ∈ nestedAccess.parts, ∃ bits, u.eval nestedState = .ok bits := by
    intro u hu
    fin_cases hu <;> exact ⟨_, rfl⟩
  obtain ⟨hfree, hshape, heval⟩ := Value.lowerReads_exact complete filled uniform sized
  obtain ⟨bits, hbits, hlowered⟩ := heval nestedState hparts
  have hvalue : nestedAccess.eval nestedState = .ok 14 := rfl
  obtain rfl : 14 = bits := Except.ok.inj (hvalue.symm.trans hbits)
  exact ⟨complete, filled, uniform, sized, hparts, hfree, hshape, hbits, hlowered⟩

end Gateware
