import Gateware.Proofs.Accepted
import Gateware.Proofs.Eval.Range
import Gateware.Proofs.Induction

/-! # A chain of multiplexers means the selected element

Reading a value without its selections gives the same bits. The argument goes through `Follows`: a
lowered value that has a meaning has the shape of the value it stands for, and its meaning wherever
that has one.
-/
namespace Gateware

/-! ## Places -/

theorem Row.place_zero (row : Row) : row.place 0 = 0 := by
  simp [Row.place]

/-- Past the first of several elements a place is one further than in the rest of the row. -/
theorem Row.place_cons (e f : Element) (es : Row) {n : Int} (hn : n ≠ 0) :
    Row.place (e :: f :: es) n = Row.place (f :: es) (n - 1) + 1 := by
  unfold Row.place
  simp only [List.length_cons]
  by_cases h : 0 ≤ n
  · have h1 : 0 ≤ n - 1 := by omega
    simp only [h, h1, if_true]
    omega
  · have h1 : ¬ 0 ≤ n - 1 := by omega
    simp only [h, h1, if_false]
    omega

section

variable {st : State}

/-! ## One multiplexer -/

/-- The narrowest constant of a position has its digits. -/
theorem Value.eval_int {position bits : Nat} :
    (Value.int position).eval st = .ok bits ↔
      Bits.needed position false ≤ evalLimit ∧ bits = position := by
  have hpos := Bits.lt_two_pow_needed position
  rw [Value.int, Value.eval_const_eq_ok]
  refine and_congr_right fun hw => ?_
  have hword : Bits.needed position false ≤ wordBits := Nat.le_trans hw (by decide)
  have hbits : (Const.minimal position).bits = position := by
    change Bits.truncate (Bits.ofInt position) (Bits.needed position false) = position
    rw [Bits.ofInt_natCast (hpos.trans_le (Nat.pow_le_pow_right Nat.two_pos hword)),
      Bits.truncate_of_lt hword hpos]
  have hcut : Bits.truncate position (Const.minimal position).shape.width = position :=
    Bits.truncate_of_lt hword hpos
  rw [hbits, hcut]
  exact eq_comm

/-- It stands for the position. -/
theorem Value.number_int {position : Nat} {n : Int}
    (h : (Value.int position).number st = .ok n) : n = position := by
  obtain ⟨bits, hb, rfl⟩ := Value.number_eq_ok.mp h
  obtain ⟨hw, hlt⟩ := Value.eval_fits hb
  obtain ⟨-, rfl⟩ := Value.eval_int.mp hb
  have hsigned : (Value.int bits).shape.signed = false := by
    simp [Value.int, Value.shape, Const.minimal, Const.wrap]
  exact Shape.read_unsigned hsigned hw hlt

/-- A comparison with a position is one bit that tells whether the index is there. -/
theorem Value.number_isAt {index : Value} {position : Nat} {n m : Int}
    (hn : index.number st = .ok n)
    (h : (Value.op .eq [index, .int position]).number st = .ok m) :
    m ≠ 0 ↔ n = position := by
  obtain ⟨bits, hb, rfl⟩ := Value.number_eq_ok.mp h
  obtain ⟨hw, hlt⟩ := Value.eval_fits hb
  obtain ⟨-, ns, hns, r, hr, rfl⟩ := Value.eval_op_eq_ok.mp hb
  simp only [Value.evalAll_cons_eq_ok, Value.evalAll_nil_eq_ok] at hns
  obtain ⟨a, ha, _, ⟨c, hc, _, rfl, rfl⟩, rfl⟩ := hns
  obtain rfl : n = a := Except.ok.inj (hn.symm.trans ha)
  obtain rfl := Value.number_int hc
  rw [Shape.read_unsigned rfl hw hlt]
  simp only [Op.compute, Option.some.injEq] at hr
  subst hr
  by_cases he : n = position
  · have hone : Bits.truncate (Bits.ofInt (truth true)) 1 = 1 := by decide
    simp [he, Value.width, Value.shape, Op.resultShape, Shape.ofUnsigned, hone]
  · have hzero : Bits.truncate (Bits.ofInt (truth false)) 1 = 0 := by decide
    simp [he, beq_false_of_ne he, Value.width, Value.shape, Op.resultShape, Shape.ofUnsigned, hzero]

/-- The number of an unsigned value, put back into bits, gives its bits. -/
theorem Value.truncate_read {v : Value} {width bits : Nat} (hs : v.shape = .ofUnsigned width)
    (h : v.eval st = .ok bits) : Bits.truncate (Bits.ofInt (v.shape.read bits)) width = bits := by
  have hwidth : v.width = width := by simp [Value.width, hs, Shape.ofUnsigned]
  have hback := Value.eval_of_number (Value.number_eq_ok.mpr ⟨bits, h, rfl⟩)
  rw [h, Except.ok.injEq, hwidth] at hback
  exact hback.symm

/-- A multiplexer on a comparison has the bits of the input that the index chooses. -/
theorem Value.eval_choose {index v rest : Value} {position width bits low high : Nat} {n : Int}
    (hn : index.number st = .ok n) (hv : v.eval st = .ok low) (hr : rest.eval st = .ok high)
    (hvs : v.shape = .ofUnsigned width) (hrs : rest.shape = .ofUnsigned width)
    (h : (Value.op .mux [.op .eq [index, .int position], v, rest]).eval st = .ok bits) :
    bits = if n = position then low else high := by
  obtain ⟨-, ns, hns, r, hc, rfl⟩ := Value.eval_op_eq_ok.mp h
  simp only [Value.evalAll_cons_eq_ok, Value.evalAll_nil_eq_ok] at hns
  obtain ⟨g, hg, _, ⟨x, hx, _, ⟨y, hy, _, rfl, rfl⟩, rfl⟩, rfl⟩ := hns
  have hguard := Value.number_isAt hn hg
  have hx' : x = v.shape.read low :=
    Except.ok.inj (hx.symm.trans (Value.number_eq_ok.mpr ⟨low, hv, rfl⟩))
  have hy' : y = rest.shape.read high :=
    Except.ok.inj (hy.symm.trans (Value.number_eq_ok.mpr ⟨high, hr, rfl⟩))
  have hwidth : (Value.op .mux [.op .eq [index, .int position], v, rest]).width = width := by
    simp [Value.width, Value.shape, Value.shapes, Op.resultShape, Shape.unify, hvs, hrs,
      Shape.ofUnsigned]
  simp only [Op.compute, Option.some.injEq] at hc
  subst hc
  rw [hwidth]
  by_cases he : n = position
  · rw [if_neg (hguard.mpr he), if_pos he]
    exact hx' ▸ Value.truncate_read hvs hv
  · rw [if_pos (not_not.mp fun h => he (hguard.mp h)), if_neg he]
    exact hy' ▸ Value.truncate_read hrs hr

/-! ## The chain -/

theorem muxChain_cons (index v u : Value) (position : Nat) (es : Row) :
    muxChain index (Row.entriesFrom position (.value v :: .value u :: es)) =
      if index.shape.reaches position then
        .op .mux [.op .eq [index, .int position], v,
          muxChain index (Row.entriesFrom (position + 1) (.value u :: es))]
      else muxChain index (Row.entriesFrom (position + 1) (.value u :: es)) := rfl

/-- A chain over values of one unsigned width is of that width and has the bits of the value in the
place of the index, counted from the first position of the chain. -/
theorem muxChain_eval {index : Value} {n : Int} (hn : index.number st = .ok n) {width : Nat}
    {row : Row} (hne : row ≠ []) (hflat : row.flat = true)
    (hshape : ∀ u, .value u ∈ row → ∀ b, u.eval st = .ok b → u.shape = .ofUnsigned width)
    {position bits : Nat}
    (h : (muxChain index (Row.entriesFrom position row)).eval st = .ok bits) :
    (muxChain index (Row.entriesFrom position row)).shape = .ofUnsigned width ∧
      ∃ u, row[row.place (n - position)]? = some (.value u) ∧ u.eval st = .ok bits := by
  induction row generalizing position bits with
  | nil => exact absurd rfl hne
  | cons e es ih =>
    obtain ⟨he, hes⟩ := Bool.and_eq_true_iff.mp hflat
    cases e with
    | row _ => cases he
    | value v =>
      have hv := hshape v List.mem_cons_self
      cases es with
      | nil => exact ⟨hv bits h, v, by simp [Row.place], h⟩
      | cons f fs =>
        cases f with
        | row _ => cases hes
        | value u =>
          have hrest := fun w hw => hshape w (List.mem_cons_of_mem _ hw)
          have hnext : n - position ≠ 0 → Row.place (.value v :: .value u :: fs) (n - position) =
              Row.place (.value u :: fs) (n - (position + 1 : Nat)) + 1 := by
            intro h0
            rw [Row.place_cons _ _ _ h0]
            congr 2
            push_cast
            ring
          rw [muxChain_cons] at h ⊢
          by_cases hr : index.shape.reaches position = true
          · rw [if_pos hr] at h ⊢
            obtain ⟨-, ns, hns, _, -, -⟩ := Value.eval_op_eq_ok.mp h
            simp only [Value.evalAll_cons_eq_ok, Value.evalAll_nil_eq_ok] at hns
            obtain ⟨_, -, _, ⟨x, hx, _, ⟨y, hy, -⟩, -⟩, -⟩ := hns
            obtain ⟨low, hlow, -⟩ := Value.number_eq_ok.mp hx
            obtain ⟨high, hhigh, -⟩ := Value.number_eq_ok.mp hy
            obtain ⟨hs, w, hw, hwbits⟩ := ih (List.cons_ne_nil _ _) hes hrest hhigh
            have hbits := Value.eval_choose hn hlow hhigh (hv low hlow) hs h
            refine ⟨by simp [Value.shape, Value.shapes, Op.resultShape, Shape.unify, hv low hlow,
              hs, Shape.ofUnsigned], ?_⟩
            by_cases h0 : n = position
            · rw [if_pos h0] at hbits
              exact ⟨v, by simp [h0, Row.place_zero], hbits ▸ hlow⟩
            · rw [if_neg h0] at hbits
              rw [hnext (sub_ne_zero.mpr h0), List.getElem?_cons_succ]
              exact ⟨w, hw, hbits ▸ hwbits⟩
          · rw [if_neg hr] at h ⊢
            have h0 : n ≠ position := by
              intro h0
              obtain ⟨b, hb, hbn⟩ := Value.number_eq_ok.mp hn
              obtain ⟨hw, hlt⟩ := Value.eval_fits hb
              exact hr (Shape.reaches_of_read hw hlt (hbn.trans h0))
            obtain ⟨hs, w, hw, hwbits⟩ := ih (List.cons_ne_nil _ _) hes hrest h
            rw [hnext (sub_ne_zero.mpr h0), List.getElem?_cons_succ]
            exact ⟨hs, w, hw, hwbits⟩

/-- The same for a whole row. Over a single value the index is not compared, so that it may have no
meaning; any number then leads to that value. -/
theorem muxChain_entries_eval {index : Value} {width : Nat} {row : Row} (hne : row ≠ [])
    (hflat : row.flat = true)
    (hshape : ∀ u, .value u ∈ row → ∀ b, u.eval st = .ok b → u.shape = .ofUnsigned width)
    {bits : Nat} (h : (muxChain index (Row.entries row)).eval st = .ok bits) :
    (muxChain index (Row.entries row)).shape = .ofUnsigned width ∧
      ∀ n, (∀ m, index.number st = .ok m → n = m) →
        ∃ u, row[row.place n]? = some (.value u) ∧ u.eval st = .ok bits := by
  have hmany : ∀ n, index.number st = .ok n → (muxChain index (Row.entries row)).shape =
      .ofUnsigned width ∧ ∃ u, row[row.place n]? = some (.value u) ∧ u.eval st = .ok bits := by
    intro n hn
    have hm := muxChain_eval hn hne hflat hshape h
    rw [Nat.cast_zero, sub_zero] at hm
    exact hm
  cases row with
  | nil => exact absurd rfl hne
  | cons e es =>
    obtain ⟨he, hes⟩ := Bool.and_eq_true_iff.mp hflat
    cases e with
    | row _ => cases he
    | value v =>
      cases es with
      | nil =>
        refine ⟨hshape v List.mem_cons_self bits h, fun n _ => ⟨v, ?_, h⟩⟩
        simp [Row.place]
      | cons f fs =>
        cases f with
        | row _ => cases hes
        | value u =>
          have hguard := h
          rw [Row.entries, muxChain_cons, if_pos (Shape.reaches_zero _)] at hguard
          obtain ⟨-, ns, hns, _, -, -⟩ := Value.eval_op_eq_ok.mp hguard
          obtain ⟨g, hg, -⟩ := Value.evalAll_cons_eq_ok.mp hns
          obtain ⟨b, hb, -⟩ := Value.number_eq_ok.mp hg
          obtain ⟨-, ms, hms, _, -, -⟩ := Value.eval_op_eq_ok.mp hb
          obtain ⟨m, hm, -⟩ := Value.evalAll_cons_eq_ok.mp hms
          refine ⟨(hmany m hm).1, fun n hn => ?_⟩
          rw [hn m hm]
          exact (hmany m hm).2

/-! ## Whole values -/

/-- Where `v'` has a meaning it has the shape of `v`, and the bits of `v` if that has some. -/
def Value.Follows (st : State) (v v' : Value) : Prop :=
  ∀ bits', v'.eval st = .ok bits' →
    v'.shape = v.shape ∧ ∀ bits, v.eval st = .ok bits → bits = bits'

theorem Value.Follows.refl (v : Value) : v.Follows st v :=
  fun _ h' => ⟨rfl, fun _ h => Except.ok.inj (h.symm.trans h')⟩

theorem Value.Follows.number {v v' : Value} (hf : v.Follows st v') {n n' : Int}
    (h : v.number st = .ok n) (h' : v'.number st = .ok n') : n = n' := by
  obtain ⟨b, hb, rfl⟩ := Value.number_eq_ok.mp h
  obtain ⟨b', hb', rfl⟩ := Value.number_eq_ok.mp h'
  obtain ⟨hs, he⟩ := hf b' hb'
  rw [hs, he b hb]

/-- A row that has elements, all of them values, unsigned and of one width. -/
def Row.regular (row : Row) : Bool := row.filled && row.flat && row.uniform

theorem Row.regular_shape {row : Row} (h : row.regular = true) :
    row ≠ [] ∧ row.flat = true ∧ ∃ width, ∀ e ∈ row, e.shape = .ofUnsigned width := by
  simp only [Row.regular, Bool.and_eq_true] at h
  obtain ⟨⟨hfilled, hflat⟩, huniform⟩ := h
  refine ⟨?_, hflat, Row.uniform_shape huniform⟩
  rintro rfl
  cases hfilled

theorem Value.rebuildAll_eq_map (f : Value → Value) (vs : List Value) :
    Value.rebuildAll f vs = vs.map (Value.rebuild f) :=
  map_of_cons rfl (fun _ _ => rfl) vs

theorem Row.rebuild_eq_map (f : Value → Value) (row : Row) :
    Row.rebuild f row = row.map (Element.rebuild f) :=
  map_of_cons rfl (fun _ _ => rfl) row

def Row.lowerReads (row : Row) : Row := row.map (Element.rebuild Value.lowerSelect)

theorem Value.lowerReads_op (o : Op) (vs : List Value) :
    (Value.op o vs).lowerReads = .op o (vs.map Value.lowerReads) := by
  simp only [Value.lowerReads, Value.rebuild, Value.lowerSelect, Value.rebuildAll_eq_map]
  rfl

theorem Value.lowerReads_concat (vs : List Value) :
    (Value.concat vs).lowerReads = .concat (vs.map Value.lowerReads) := by
  simp only [Value.lowerReads, Value.rebuild, Value.lowerSelect, Value.rebuildAll_eq_map]
  rfl

theorem Value.lowerReads_select (row : Row) (index : Value) :
    (Value.select row index).lowerReads =
      muxChain index.lowerReads (Row.entries row.lowerReads) := by
  simp only [Value.lowerReads, Value.rebuild, Value.lowerSelect, Row.rebuild_eq_map]
  rfl

theorem Row.mem_lowerReads {row : Row} {u : Value} (h : .value u ∈ row.lowerReads) :
    ∃ v, .value v ∈ row ∧ u = v.lowerReads := by
  obtain ⟨e, he, h⟩ := List.mem_map.mp h
  cases e with
  | value v =>
    cases h
    exact ⟨v, he, rfl⟩
  | row es => cases h

theorem Row.lowerReads_flat {row : Row} (h : row.flat = true) : row.lowerReads.flat = true := by
  simp only [Row.flat, Row.lowerReads, List.all_map, List.all_eq_true] at h ⊢
  intro e he
  cases e with
  | value v => rfl
  | row es => cases h _ he

/-- Operands that are followed one by one have the shapes and the numbers of what they follow. -/
theorem Value.evalAll_follows {vs : List Value} (hf : ∀ v ∈ vs, v.Follows st v.lowerReads)
    {ns' : List Int} (h' : Value.evalAll st (vs.map Value.lowerReads) = .ok ns') :
    Value.shapes (vs.map Value.lowerReads) = Value.shapes vs ∧
      ∀ ns, Value.evalAll st vs = .ok ns → ns = ns' := by
  induction vs generalizing ns' with
  | nil => exact ⟨rfl, fun ns h => Except.ok.inj (h.symm.trans h')⟩
  | cons v vs ih =>
    obtain ⟨n', hn', rest', hrest', rfl⟩ := Value.evalAll_cons_eq_ok.mp h'
    obtain ⟨b', hb', -⟩ := Value.number_eq_ok.mp hn'
    have hv := hf v List.mem_cons_self
    obtain ⟨hs, he⟩ := ih (fun u hu => hf u (List.mem_cons_of_mem _ hu)) hrest'
    refine ⟨?_, fun ns h => ?_⟩
    · simp only [List.map_cons, Value.shapes, (hv b' hb').1, hs]
    · obtain ⟨n, hn, rest, hrest, rfl⟩ := Value.evalAll_cons_eq_ok.mp h
      rw [hv.number hn hn', he rest hrest]

theorem Value.evalParts_follows {vs : List Value} (hf : ∀ v ∈ vs, v.Follows st v.lowerReads)
    {bits' : Nat} (h' : Value.evalParts st (vs.map Value.lowerReads) = .ok bits') :
    Value.totalWidth (vs.map Value.lowerReads) = Value.totalWidth vs ∧
      ∀ bits, Value.evalParts st vs = .ok bits → bits = bits' := by
  induction vs generalizing bits' with
  | nil => exact ⟨rfl, fun bits h => Except.ok.inj (h.symm.trans h')⟩
  | cons v vs ih =>
    obtain ⟨low', hlow', high', hhigh', rfl⟩ := Value.evalParts_cons_eq_ok.mp h'
    obtain ⟨hv, hlow⟩ := hf v List.mem_cons_self low' hlow'
    obtain ⟨hs, hhigh⟩ := ih (fun u hu => hf u (List.mem_cons_of_mem _ hu)) hhigh'
    refine ⟨?_, fun bits h => ?_⟩
    · simp only [List.map_cons, Value.totalWidth, hv, hs]
    · obtain ⟨low, h1, high, h2, rfl⟩ := Value.evalParts_cons_eq_ok.mp h
      rw [hlow low h1, hhigh high h2, Value.width, Value.width, hv]

/-- The shape of a row of values of one unsigned width. -/
theorem Row.shape_uniform {row : Row} {width : Nat} (hne : row ≠ [])
    (h : ∀ e ∈ row, e.shape = .ofUnsigned width) :
    Row.shape row = .ofUnsigned (clampWidth width) := by
  induction row with
  | nil => exact absurd rfl hne
  | cons e es ih =>
    have he := h e List.mem_cons_self
    cases es with
    | nil => simp [Row.shape, he, Shape.widthWithSign, Shape.ofUnsigned]
    | cons f fs =>
      have hes := ih (List.cons_ne_nil _ _) fun g hg => h g (List.mem_cons_of_mem _ hg)
      rw [Row.shape]
      simp [he, hes, Shape.widthWithSign, Shape.ofUnsigned]

theorem clampWidth_of_le {width : Nat} (h : width ≤ evalLimit) : clampWidth width = width :=
  Nat.min_eq_left (h.trans (by decide))

/-- A selection from a regular row is followed by its chain. -/
theorem Value.select_follows {row : Row} {index : Value} (hrow : row.regular = true)
    (hleaves : ∀ v ∈ Row.leaves row, v.Follows st v.lowerReads)
    (hindex : index.Follows st index.lowerReads) :
    (Value.select row index).Follows st (Value.select row index).lowerReads := by
  obtain ⟨hne, hflat, width, hwidth⟩ := Row.regular_shape hrow
  have helem : ∀ v, .value v ∈ row → v.shape = .ofUnsigned width := fun v hv => hwidth _ hv
  intro bits' h'
  rw [Value.lowerReads_select] at h' ⊢
  have hshape : ∀ u, .value u ∈ row.lowerReads → ∀ b, u.eval st = .ok b →
      u.shape = .ofUnsigned width := by
    intro u hu b hb
    obtain ⟨v, hv, rfl⟩ := Row.mem_lowerReads hu
    rw [(hleaves v (Row.mem_leaves hv) b hb).1, helem v hv]
  obtain ⟨hs, hplace⟩ := muxChain_entries_eval (by simpa [Row.lowerReads] using hne)
    (Row.lowerReads_flat hflat) hshape h'
  have hle : width ≤ evalLimit := by
    have := (Value.eval_fits h').1
    rwa [Value.width, hs] at this
  have hrow : (Value.select row index).shape = .ofUnsigned width := by
    rw [Value.shape, Row.shape_uniform hne hwidth, clampWidth_of_le hle]
  refine ⟨hs.trans hrow.symm, fun bits h => ?_⟩
  obtain ⟨-, n, hn, v, hv, m, hm, rfl⟩ := Value.eval_select_eq_ok.mp h
  obtain ⟨u, hu, hubits⟩ := hplace n fun m hm => hindex.number hn hm
  have hsame : row.lowerReads.place n = row.place n := by simp [Row.place, Row.lowerReads]
  rw [hsame, Row.lowerReads, List.getElem?_map, hv] at hu
  obtain rfl : v.lowerReads = u := by simpa [Element.rebuild, Value.lowerReads] using hu
  obtain ⟨b, hb, rfl⟩ := Value.number_eq_ok.mp hm
  have hmem := List.mem_of_getElem? hv
  rw [Value.width, hrow]
  change Bits.truncate (Bits.ofInt (v.shape.read b)) width = bits'
  rw [Value.truncate_read (helem v hmem) hb]
  exact (hleaves v (Row.mem_leaves hmem) bits' hubits).2 b hb

/-- A value whose rows are regular is followed by what lowering makes of it. -/
theorem Value.lowerReads_follows {v : Value} (hrows : v.everyRow Row.regular = true) :
    v.Follows st v.lowerReads := by
  induction v with
  | const c | signal c | clock c | reset c => exact Value.Follows.refl _
  | op o vs ih =>
    have hvs : ∀ v ∈ vs, v.Follows st v.lowerReads :=
      fun v hv => ih v hv (Value.allEveryRow_iff.mp hrows v hv)
    intro bits' h'
    rw [Value.lowerReads_op] at h' ⊢
    obtain ⟨-, ns', hns', n', hn', rfl⟩ := Value.eval_op_eq_ok.mp h'
    obtain ⟨hs, he⟩ := Value.evalAll_follows hvs hns'
    have hshape : (Value.op o (vs.map Value.lowerReads)).shape = (Value.op o vs).shape := by
      simp only [Value.shape, hs]
    refine ⟨hshape, fun bits h => ?_⟩
    obtain ⟨-, ns, hns, n, hn, rfl⟩ := Value.eval_op_eq_ok.mp h
    rw [he ns hns, hn', Option.some.injEq] at hn
    rw [Value.width, Value.width, hshape, hn]
  | slice v start stop ih =>
    intro bits' h'
    change (Value.slice v.lowerReads start stop).eval st = .ok bits' at h'
    obtain ⟨-, inner', hinner', rfl⟩ := Value.eval_slice_eq_ok.mp h'
    refine ⟨rfl, fun bits h => ?_⟩
    obtain ⟨-, inner, hinner, rfl⟩ := Value.eval_slice_eq_ok.mp h
    rw [(ih hrows inner' hinner').2 inner hinner]
  | concat vs ih =>
    have hvs : ∀ v ∈ vs, v.Follows st v.lowerReads :=
      fun v hv => ih v hv (Value.allEveryRow_iff.mp hrows v hv)
    intro bits' h'
    rw [Value.lowerReads_concat] at h' ⊢
    obtain ⟨-, inner', hinner', rfl⟩ := Value.eval_concat_eq_ok.mp h'
    obtain ⟨hs, he⟩ := Value.evalParts_follows hvs hinner'
    refine ⟨by simp only [Value.shape, hs], fun bits h => ?_⟩
    obtain ⟨-, inner, hinner, rfl⟩ := Value.eval_concat_eq_ok.mp h
    rw [he inner hinner, hs]
  | repl v count ih =>
    intro bits' h'
    change (Value.repl v.lowerReads count).eval st = .ok bits' at h'
    obtain ⟨-, inner', hinner', rfl⟩ := Value.eval_repl_eq_ok.mp h'
    obtain ⟨hs, he⟩ := ih hrows inner' hinner'
    have hshape : (Value.repl v.lowerReads count).shape = (Value.repl v count).shape := by
      simp only [Value.shape, hs]
    refine ⟨hshape, fun bits h => ?_⟩
    obtain ⟨-, inner, hinner, rfl⟩ := Value.eval_repl_eq_ok.mp h
    rw [he inner hinner]
    unfold Value.width
    rw [hshape, hs]
  | select row index hrow hindex =>
    simp only [Value.everyRow, Bool.and_eq_true] at hrows
    exact Value.select_follows hrows.1.1
      (fun v hv => hrow v hv (Row.everyRow_leaves hrows.1.2 v hv)) (hindex hrows.2)

end

end Gateware
