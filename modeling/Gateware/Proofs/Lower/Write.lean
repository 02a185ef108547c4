import Gateware.Lower.Write
import Gateware.Proofs.Eval.Block
import Gateware.Proofs.Lower.Read

/-! # A switch on the index stores in the selected element

The statement for a target without selections stores exactly where the target stores. A slice of a
selection reads the old bits through the index, so slices are asked to be over places without
selections.
-/
namespace Gateware

section

variable {read write out : State}

/-! ## The switch -/

def armAt (arms : List (Nat × Statement)) (last : Statement) (n : Int) : Statement :=
  ((arms.find? fun arm => (arm.1 : Int) == n).map (·.2)).getD last

theorem armAt_cons (position : Nat) (s : Statement) (arms : List (Nat × Statement))
    (last : Statement) (n : Int) :
    armAt ((position, s) :: arms) last n = if n = position then s else armAt arms last n := by
  by_cases h : n = position
  · simp [armAt, h]
  · have hne : ((position : Int) == n) = false := beq_false_of_ne (Ne.symm h)
    simp [armAt, h, hne]

/-- The cases of reachable positions, tried on the bits of an index, run the arm of its number. -/
theorem Case.execute_arms {shape : Shape} {bits : Nat} (hw : shape.width ≤ evalLimit)
    (hbits : bits < 2 ^ shape.width) (arms : List (Nat × Statement)) (last : Statement) :
    Case.execute read bits shape.width
        (((arms.filter fun arm => shape.reaches arm.1).map fun arm => ⟨[.int arm.1], [arm.2]⟩) ++
          [⟨[], [last]⟩]) write =
      (armAt arms last (shape.read bits)).execute read write := by
  have htrunc := Bits.truncate_of_lt (hw.trans (by decide)) hbits
  induction arms with
  | nil => simp [Case.execute, Case.fits, Case.isDefault, Case.patterns, armAt,
      Block.execute_singleton]
  | cons arm arms ih =>
    obtain ⟨position, s⟩ := arm
    rw [armAt_cons]
    by_cases hr : shape.reaches position = true
    · rw [List.filter_cons, if_pos hr, List.map_cons, List.cons_append, Case.execute]
      simp only [Case.fits, Case.isDefault, Case.patterns, Pattern.fits, htrunc, List.isEmpty_cons,
        List.any_cons, List.any_nil, Bool.or_false, Bool.false_or, Block.execute_singleton, ih,
        beq_iff_eq, Shape.read_eq_iff hw hbits hr, eq_comm (a := position)]
      split <;> rfl
    · have hne : shape.read bits ≠ position := fun h => hr (Shape.reaches_of_read hw hbits h)
      rw [List.filter_cons, if_neg hr, if_neg hne, ih]

/-- A switch on an index runs one arm: that of every number the index can have. Without arms the
index is not looked at. -/
theorem caseChain_execute {index : Value} {arms : List (Nat × Statement)} {last : Statement}
    (hzero : ∀ arm, arms.head? = some arm → arm.1 = 0)
    (h : (caseChain index arms last).execute read write = .ok out) :
    ∃ m : Int, (arms ≠ [] → index.number read = .ok m) ∧
      (armAt arms last m).execute read write = .ok out := by
  cases arms with
  | nil => exact ⟨0, fun h => absurd rfl h, h⟩
  | cons arm rest =>
    have hkept : ((arm :: rest).filter fun arm => index.shape.reaches arm.1) =
        arm :: rest.filter fun arm => index.shape.reaches arm.1 := by
      rw [List.filter_cons, if_pos]
      rw [hzero arm rfl]
      exact Shape.reaches_zero _
    have hchain : caseChain index (arm :: rest) last = .switch index
        ((((arm :: rest).filter fun arm => index.shape.reaches arm.1).map
          fun arm => ⟨[.int arm.1], [arm.2]⟩) ++ [⟨[], [last]⟩]) := by
      unfold caseChain
      rw [hkept]
    rw [hchain, Statement.execute_switch_eq_ok] at h
    obtain ⟨bits, hb, h⟩ := h
    obtain ⟨hw, hlt⟩ := Value.eval_fits hb
    rw [Value.width, Case.execute_arms hw hlt] at h
    exact ⟨_, fun _ => Value.number_eq_ok.mpr ⟨bits, hb, rfl⟩, h⟩

/-! ## Splitting a selection -/

/-- Splitting the values of a row gives an arm for every position but the last, and the arm of a
number is the statement for the value in its place. -/
theorem Row.splitFrom_arms (source : Value) (plug : Value → Value) (done : Value → Statement)
    {row : Row} (hne : row ≠ []) (hflat : row.flat = true) (position : Nat) :
    ∃ arms last, Row.splitFrom source plug done position row = some (arms, last) ∧
      (∀ arm, arms.head? = some arm → arm.1 = position) ∧ (arms = [] → row.length = 1) ∧
      ∀ n : Int, ∃ u, row[row.place (n - position)]? = some (.value u) ∧
        armAt arms last n = Value.split source plug done u := by
  induction row generalizing position with
  | nil => exact absurd rfl hne
  | cons e es ih =>
    obtain ⟨he, hes⟩ := Bool.and_eq_true_iff.mp hflat
    cases e with
    | row _ => cases he
    | value v =>
      cases es with
      | nil =>
        refine ⟨[], Value.split source plug done v, rfl, by simp, fun _ => rfl,
          fun n => ⟨v, ?_, rfl⟩⟩
        simp [Row.place]
      | cons f fs =>
        obtain ⟨arms, last, hsplit, -, -, hat⟩ := ih (List.cons_ne_nil _ _) hes (position + 1)
        refine ⟨(position, Value.split source plug done v) :: arms, last, ?_, ?_, ?_, ?_⟩
        · rw [Row.splitFrom, hsplit]
        · rintro _ ⟨⟩
          rfl
        · exact fun h => absurd h (List.cons_ne_nil _ _)
        · intro n
          rw [armAt_cons]
          by_cases h0 : n = position
          · exact ⟨v, by simp [h0, Row.place_zero], if_pos h0⟩
          · obtain ⟨u, hu, hn⟩ := hat n
            refine ⟨u, ?_, (if_neg h0).trans hn⟩
            have hsub : n - position - 1 = n - (position + 1 : Nat) := by
              push_cast
              ring
            rw [Row.place_cons _ _ _ (sub_ne_zero.mpr h0), List.getElem?_cons_succ, hsub, hu]

/-- The statement for a selection runs the statement for one of its values: that in the place of
every number that the index can have. -/
theorem Value.split_select_execute {source index : Value} {plug : Value → Value}
    {done : Value → Statement} {row : Row} (hne : row ≠ []) (hflat : row.flat = true)
    (h : (Value.split source plug done (.select row index)).execute read write = .ok out) :
    ∃ i u, row[i]? = some (.value u) ∧
      (∀ n, (∀ m, index.number read = .ok m → n = m) → row.place n = i) ∧
      (Value.split source plug done u).execute read write = .ok out := by
  obtain ⟨arms, last, hsplit, hhead, hlone, hat⟩ :=
    Row.splitFrom_arms source plug done hne hflat 0
  rw [Value.split, hsplit] at h
  obtain ⟨m, hm, h⟩ := caseChain_execute hhead h
  obtain ⟨u, hu, harm⟩ := hat m
  rw [Nat.cast_zero, sub_zero] at hu
  refine ⟨row.place m, u, hu, fun n hn => ?_, harm ▸ h⟩
  by_cases ha : arms = []
  · have hlength := hlone ha
    simp [Row.place, hlength]
  · rw [hn m (hm ha)]

/-! ## Targets -/

theorem Value.lowerAllIndices_eq_map (vs : List Value) :
    Value.lowerAllIndices vs = vs.map Value.lowerIndices :=
  map_of_cons rfl (fun _ _ => rfl) vs

theorem Row.lowerIndices_eq_map (row : Row) :
    Row.lowerIndices row = row.map Element.lowerIndices :=
  map_of_cons rfl (fun _ _ => rfl) row

theorem Block.lower_eq_map (block : Block) : Block.lower block = block.map Statement.lower :=
  map_of_cons rfl (fun _ _ => rfl) block

theorem Case.lower_eq_map (cases : List Case) :
    Case.lower cases = cases.map fun c => ⟨c.patterns, Block.lower c.body⟩ :=
  map_of_cons rfl (fun ⟨_, _⟩ _ => rfl) cases

/-- Without selections there are no indices to lower. -/
theorem Value.lowerIndices_of_selects {v : Value} (h : v.selects = false) : v.lowerIndices = v := by
  induction v with
  | const c | signal c | clock c | reset c | op c d _ | repl c d _ => rfl
  | slice v start stop ih => rw [Value.lowerIndices, ih h]
  | concat vs ih =>
    rw [Value.lowerIndices, Value.lowerAllIndices_eq_map]
    have hvs := Value.anySelects_eq_false.mp h
    rw [List.map_congr_left fun v hv => ih v hv (hvs v hv), List.map_id']
  | select row index _ _ => cases h

/-- A part without selections is put in its place as it is. -/
theorem Value.split_of_selects {source v : Value} (h : v.selects = false) (plug : Value → Value)
    (done : Value → Statement) : Value.split source plug done v = done v := by
  induction v generalizing plug done with
  | const c | signal c | clock c | reset c | op c d _ | repl c d _ => rfl
  | slice v start stop ih => rw [Value.split, ih h]
  | concat vs ih =>
    have hparts : ∀ (ws : List Value), (∀ v ∈ ws, v ∈ vs) →
        ∀ (plug : List Value → Value) (done : List Value → Statement),
          Value.splitParts source plug done ws = done ws := by
      intro ws
      induction ws with
      | nil => exact fun _ plug done => by rw [Value.splitParts]
      | cons w ws ihws =>
        intro hsub plug done
        have hw := hsub w List.mem_cons_self
        rw [Value.splitParts, ih w hw (Value.anySelects_eq_false.mp h w hw),
          ihws fun v hv => hsub v (List.mem_cons_of_mem _ hv)]
    rw [Value.split, hparts vs fun _ h => h]
  | select row index _ _ => cases h

/-! ## Storing -/

theorem Bits.truncate_clamp (raw width : Nat) :
    Bits.truncate raw (clampWidth width) = Bits.truncate raw width := by
  have hmin : min (clampWidth width) wordBits = min width wordBits := by
    unfold clampWidth widthLimit wordBits
    omega
  simp only [Bits.truncate, hmin]

/-- A word has no bits above a width that a shape cannot have. -/
theorem shiftRight_clamp {bits : Nat} (h : bits < 2 ^ wordBits) (width : Nat) :
    bits >>> clampWidth width = bits >>> width := by
  by_cases hw : width ≤ widthLimit
  · rw [clampWidth, Nat.min_eq_left hw]
  · have hle : wordBits ≤ widthLimit := by decide
    have hzero : ∀ {k : Nat}, wordBits ≤ k → bits >>> k = 0 := fun hk => by
      rw [Nat.shiftRight_eq_div_pow]
      exact Nat.div_eq_of_lt (h.trans_le (Nat.pow_le_pow_right Nat.two_pos hk))
    rw [clampWidth, Nat.min_eq_right (by omega), hzero hle, hzero (by omega)]

/-- Where storing a word in `t` succeeds, storing it in `t'` does the same. Their widths agree as
far as a shape can tell. -/
def Value.StoresLike (read : State) (t t' : Value) : Prop :=
  clampWidth t'.width = clampWidth t.width ∧
    ∀ bits write out, bits < 2 ^ wordBits →
      t.store read bits write = .ok out → t'.store read bits write = .ok out

theorem Value.StoresLike.refl (t : Value) : t.StoresLike read t := ⟨rfl, fun _ _ _ _ h => h⟩

theorem Value.StoresLike.totalWidth_eq {vs ws : List Value}
    (h : List.Forall₂ (Value.StoresLike read) vs ws) :
    Value.totalWidth ws = Value.totalWidth vs := by
  induction h with
  | nil => rfl
  | cons hv _ ih =>
    have hv := hv.1
    unfold clampWidth Value.width at hv
    simp only [Value.totalWidth, ih, clampWidth]
    omega

/-- Parts that store alike one by one store alike side by side. -/
theorem Value.StoresLike.concat {vs ws : List Value}
    (h : List.Forall₂ (Value.StoresLike read) vs ws) :
    (Value.concat vs).StoresLike read (.concat ws) := by
  refine ⟨by simp only [Value.width, Value.shape, Value.StoresLike.totalWidth_eq h], ?_⟩
  simp only [Value.store]
  induction h with
  | nil => exact fun _ _ _ _ h => h
  | cons hv _ ih =>
    intro bits write out hbits hstore
    obtain ⟨next, hnext, hrest⟩ := Value.storeParts_cons_eq_ok.mp hstore
    refine Value.storeParts_cons_eq_ok.mpr ⟨next, ?_, ?_⟩
    · rw [← Bits.truncate_clamp, hv.1, Bits.truncate_clamp]
      exact hv.2 _ _ _ (Bits.truncate_lt_word _ _) hnext
    · rw [← shiftRight_clamp hbits, hv.1, shiftRight_clamp hbits]
      exact ih _ _ _ ((Nat.shiftRight_le _ _).trans_lt hbits) hrest

/-- A selection stores like a value of its row that is in the place of every number the index can
have. -/
theorem Value.StoresLike.select {row : Row} {index t' v : Value} {i : Nat}
    (hrow : row.regular = true) (hv : row[i]? = some (.value v))
    (hplace : ∀ n, index.number read = .ok n → row.place n = i) (h : v.StoresLike read t') :
    (Value.select row index).StoresLike read t' := by
  obtain ⟨-, -, width, hwidth⟩ := Row.regular_shape hrow
  have hmem := List.mem_of_getElem? hv
  have hshape : v.shape = .ofUnsigned width := hwidth _ hmem
  refine ⟨?_, fun bits write out hbits hstore => ?_⟩
  · have hsel : (Value.select row index).width = clampWidth v.width := by
      rw [Value.width, Value.shape, Row.shape_uniform (List.ne_nil_of_mem hmem) hwidth, Value.width,
        hshape]
      rfl
    rw [h.1, hsel]
    unfold clampWidth
    omega
  · obtain ⟨n, hn, u, hu, hstore⟩ := Value.store_select_eq_ok.mp hstore
    rw [hplace n hn, hv] at hu
    cases hu
    exact h.2 bits write out hbits hstore

/-- What the statement for a target does: it assigns to some target without selections that stores
like the target itself. -/
def Value.SplitsWell (read write out : State) (t source : Value) : Prop :=
  ∀ (plug : Value → Value) (done : Value → Statement),
    (Value.split source plug done t.lowerIndices).execute read write = .ok out →
      ∃ t', t.StoresLike read t' ∧ (done t').execute read write = .ok out

theorem Value.splitParts_execute {source : Value} {vs : List Value}
    (hvs : ∀ v ∈ vs, v.SplitsWell read write out source) (plug : List Value → Value)
    (done : List Value → Statement)
    (h : (Value.splitParts source plug done (vs.map Value.lowerIndices)).execute read write =
      .ok out) :
    ∃ ws, List.Forall₂ (Value.StoresLike read) vs ws ∧ (done ws).execute read write = .ok out := by
  induction vs generalizing plug done with
  | nil => exact ⟨[], .nil, by simpa [Value.splitParts] using h⟩
  | cons v vs ih =>
    rw [List.map_cons, Value.splitParts] at h
    obtain ⟨w, hw, h⟩ := hvs v List.mem_cons_self _ _ h
    obtain ⟨ws, hws, h⟩ := ih (fun u hu => hvs u (List.mem_cons_of_mem _ hu)) _ _ h
    exact ⟨w :: ws, .cons hw hws, h⟩

theorem Value.splitsWell {source t : Value} (hrows : t.everyRow Row.regular = true)
    (hplain : t.plainSlices = true) : t.SplitsWell read write out source := by
  induction t with
  | const c | signal c | clock c | reset c | op c d _ | repl c d _ =>
    exact fun plug done h => ⟨_, Value.StoresLike.refl _, h⟩
  | slice v start stop _ =>
    intro plug done h
    have hv : (Value.slice v start stop).selects = false := by
      simpa [Value.plainSlices, Value.selects] using hplain
    rw [Value.lowerIndices_of_selects hv, Value.split_of_selects hv] at h
    exact ⟨_, Value.StoresLike.refl _, h⟩
  | concat vs ih =>
    intro plug done h
    rw [Value.lowerIndices, Value.lowerAllIndices_eq_map, Value.split] at h
    have hvs : ∀ v ∈ vs, v.SplitsWell read write out source := fun v hv =>
      ih v hv (Value.allEveryRow_iff.mp hrows v hv) (Value.allPlainSlices_iff.mp hplain v hv)
    obtain ⟨ws, hws, h⟩ := Value.splitParts_execute hvs _ _ h
    exact ⟨.concat ws, Value.StoresLike.concat hws, h⟩
  | select row index ih _ =>
    intro plug done h
    simp only [Value.everyRow, Bool.and_eq_true] at hrows
    obtain ⟨⟨hrow, hleaves⟩, hindex⟩ := hrows
    obtain ⟨hfilled, hf, -⟩ := Row.regular_shape hrow
    have hne : row.map Element.lowerIndices ≠ [] := List.map_eq_nil_iff.not.mpr hfilled
    have hflat : Row.flat (row.map Element.lowerIndices) = true := by
      simp only [Row.flat, List.all_map, List.all_eq_true] at hf ⊢
      intro e he
      cases e with
      | value v => rfl
      | row es => cases hf _ he
    rw [Value.lowerIndices, Row.lowerIndices_eq_map] at h
    -- the case that ran is that of element `i`, the place of the index in the row
    obtain ⟨i, u, hu, hplace, h⟩ := Value.split_select_execute hne hflat h
    rw [List.getElem?_map, Option.map_eq_some_iff] at hu
    obtain ⟨e, he, hu⟩ := hu
    cases e with
    | row es => cases hu
    | value v =>
      cases hu
      have hv := Row.mem_leaves (List.mem_of_getElem? he)
      obtain ⟨t', ht', h⟩ := ih v hv (Row.everyRow_leaves hleaves v hv)
        (Row.plainSlices_leaves hplain v hv) plug done h
      refine ⟨t', Value.StoresLike.select hrow he (fun n hn => ?_) ht', h⟩
      have hsame : Row.place (row.map Element.lowerIndices) n = Row.place row n := by
        simp [Row.place]
      rw [← hsame]
      exact hplace n fun m hm => (Value.lowerReads_follows hindex).number hn hm

end

end Gateware
