import Gateware.Proofs.Eval.Select
import Gateware.Proofs.Made

/-! # Indexing through nested rows

Each index after the first is pushed inside, to the elements of the selection that is already there.
What comes out is `Row.selectBy`: a selection of selections, one level for each index. It means the
leaf that the values of the indices lead to, where a row without that position gives its last
element, so that rows of one level may have different lengths.
-/
namespace Gateware

/-! ## Rows of rows -/

/-- Whether a row has values exactly `depth` rows deep, and no row in it is empty. -/
def Row.nestedTo : Nat → Row → Bool
  | 0, _ => false
  | 1, row => row.filled && row.flat
  | depth + 2, row => row.filled && row.all fun
    | .row elements => Row.nestedTo (depth + 1) elements
    | .value _ => false

/-- The leaf that one position for each level leads to; the last element stands for a position that
a row does not have. -/
def Row.leafAt? (row : Row) : List Int → Option Value
  | [] => none
  | n :: ns =>
    match row[if 0 ≤ n ∧ n < row.length then n.toNat else row.length - 1]? with
    | some (.value v) => if ns.isEmpty then some v else none
    | some (.row elements) => Row.leafAt? elements ns
    | none => none

/-- An element with the value that is picked for a row in its place. -/
def Element.picked (pick : Row → Value) : Element → Element
  | .row elements => .value (pick elements)
  | .value v => .value v

/-- A selection at every level, the outermost index first. -/
def Row.selectBy (row : Row) (outer : Value) : List Value → Value
  | [] => .select row outer
  | index :: rest =>
    .select (row.map (Element.picked fun elements => Row.selectBy elements index rest)) outer

section

variable {row : Row} {depth : Nat}

theorem Row.nestedTo_filled (h : row.nestedTo depth = true) : row.filled = true := by
  match depth, h with
  | 1, h => exact (Bool.and_eq_true_iff.mp h).1
  | _ + 2, h => exact (Bool.and_eq_true_iff.mp h).1

theorem Row.nestedTo_flat (h : row.nestedTo 1 = true) : row.flat = true :=
  (Bool.and_eq_true_iff.mp h).2

theorem Row.nestedTo_row (h : row.nestedTo (depth + 2) = true) {e : Element} (he : e ∈ row) :
    ∃ es, e = .row es ∧ Row.nestedTo (depth + 1) es = true := by
  have hrow := List.all_eq_true.mp (Bool.and_eq_true_iff.mp h).2 e he
  cases e with
  | value v => cases hrow
  | row es => exact ⟨es, rfl, hrow⟩

theorem Row.leaves_of_row {es : List Element} (h : .row es ∈ row) {u : Value}
    (hu : u ∈ Row.leaves es) : u ∈ Row.leaves row := by
  have hleaves : Row.leaves row = row.flatMap Element.leaves :=
    flatMap_of_cons rfl (fun _ _ => rfl) row
  rw [hleaves]
  exact List.mem_flatMap.mpr ⟨_, h, hu⟩

/-- A row that is not empty has an element in the place of every number. -/
theorem Row.exists_place (h : row.filled = true) (n : Int) :
    ∃ e ∈ row, row[row.place n]? = some e := by
  have hlength : 0 < row.length := by
    cases row with
    | nil => cases h
    | cons e es => exact Nat.succ_pos _
  have hlt : row.place n < row.length := by
    unfold Row.place
    omega
  exact ⟨_, List.getElem_mem hlt, List.getElem?_eq_getElem hlt⟩

/-! ## What the indices build -/

/-- One more index on every element, if each of them takes it. -/
theorem Row.indexEach_map {f g : Element → Element} {index : Value}
    (h : ∀ e ∈ row, ∃ v, (f e).index index = .ok v ∧ g e = .value v) :
    Row.indexEach (row.map f) index = .ok (row.map g) := by
  induction row with
  | nil => rfl
  | cons e es ih =>
    obtain ⟨he, hes⟩ := List.forall_mem_cons.mp h
    obtain ⟨v, hv, hg⟩ := he
    rw [List.map_cons, List.map_cons, Row.indexEach, hv, ih hes, hg]
    rfl

variable {outer : Value}

/-- One more index goes below those that are there. -/
theorem Row.index_selectBy {rest : List Value} (index : Value)
    (h : row.nestedTo (depth + rest.length + 2) = true) :
    (row.selectBy outer rest).index index = .ok (row.selectBy outer (rest ++ [index])) := by
  induction rest generalizing row outer with
  | nil =>
    have heach : Row.indexEach (row.map id) index =
        .ok (row.map (Element.picked fun es => .select es index)) := by
      apply Row.indexEach_map
      intro e he
      obtain ⟨es, rfl, hes⟩ := Row.nestedTo_row h he
      have hfilled : es.isEmpty = false := by simpa [Row.filled] using Row.nestedTo_filled hes
      exact ⟨.select es index, by simp [Element.index, Row.index, hfilled], rfl⟩
    rw [List.map_id] at heach
    rw [Row.selectBy, Value.index, heach]
    rfl
  | cons i rest ih =>
    have heach : Row.indexEach (row.map (Element.picked fun es => es.selectBy i rest)) index =
        .ok (row.map (Element.picked fun es => es.selectBy i (rest ++ [index]))) := by
      apply Row.indexEach_map
      intro e he
      obtain ⟨es, rfl, hes⟩ := Row.nestedTo_row h he
      exact ⟨_, ih hes, rfl⟩
    rw [Row.selectBy, Value.index, heach]
    rfl

/-- All further indices, one after the other. -/
theorem Row.foldlM_index {done rest : List Value}
    (h : row.nestedTo (rest.length + done.length + 1) = true) :
    rest.foldlM Value.index (row.selectBy outer done) = .ok (row.selectBy outer (done ++ rest)) := by
  induction rest generalizing done with
  | nil => simp [pure, Except.pure]
  | cons index rest ih =>
    have hnext : rest.length + (done ++ [index]).length + 1 =
        (index :: rest).length + done.length + 1 := by
      simp only [List.length_append, List.length_cons, List.length_nil]
      omega
    have hdeeper : rest.length + done.length + 2 = (index :: rest).length + done.length + 1 := by
      simp only [List.length_cons]
      omega
    rw [List.foldlM_cons, Row.index_selectBy index (hdeeper ▸ h)]
    have hrest := ih (hnext ▸ h)
    rw [List.append_assoc] at hrest
    exact hrest

/-- An index for every level makes a selection at every level. -/
theorem Row.index_foldlM {rest : List Value} (h : row.nestedTo (rest.length + 1) = true) :
    (row.index outer >>= fun first => rest.foldlM Value.index first) =
      .ok (row.selectBy outer rest) := by
  have hfilled : row.isEmpty = false := by simpa [Row.filled] using Row.nestedTo_filled h
  have hfirst : row.index outer = .ok (row.selectBy outer []) := by
    simp [Row.index, Row.selectBy, hfilled]
  rw [hfirst]
  exact Row.foldlM_index h

/-! ## Its shape and its parts -/

theorem Row.shape_picked {pick : Row → Value} (h : ∀ es, (pick es).shape = Row.shape es) :
    Row.shape (row.map (Element.picked pick)) = Row.shape row := by
  induction row with
  | nil => rfl
  | cons e es ih =>
    have he : (Element.picked pick e).shape = e.shape := by
      cases e with
      | value v => rfl
      | row es => exact h es
    rw [List.map_cons, Row.shape, Row.shape, he, ih]

theorem Row.shape_selectBy (row : Row) (outer : Value) (rest : List Value) :
    (row.selectBy outer rest).shape = Row.shape row := by
  induction rest generalizing row outer with
  | nil => rw [Row.selectBy, Value.shape]
  | cons index rest ih =>
    rw [Row.selectBy, Value.shape]
    exact Row.shape_picked fun es => ih es index

/-- No row is left in a row that is picked from throughout. -/
theorem Row.flat_picked (row : Row) (pick : Row → Value) :
    Row.flat (row.map (Element.picked pick)) = true := by
  apply List.all_eq_true.mpr
  intro e he
  obtain ⟨f, -, rfl⟩ := List.mem_map.mp he
  cases f <;> rfl

theorem Row.everyRow_iff {check : Row → Bool} :
    Row.everyRow check row = true ↔ ∀ e ∈ row, Element.everyRow check e = true :=
  all_of_cons rfl fun _ _ => rfl

/-- An index for every level makes a complete value of complete leaves. -/
theorem Row.selectBy_complete {rest : List Value} (h : row.nestedTo (rest.length + 1) = true)
    (hleaves : ∀ u ∈ Row.leaves row, u.checkComplete = .ok ())
    (hindices : ∀ index ∈ outer :: rest, index.checkComplete = .ok ()) :
    (row.selectBy outer rest).checkComplete = .ok () := by
  simp only [Value.checkComplete_iff] at hleaves hindices ⊢
  induction rest generalizing row outer with
  | nil =>
    have hflat := Row.nestedTo_flat h
    simp only [Row.selectBy, Value.everyRow, Bool.and_eq_true]
    exact ⟨⟨hflat, Row.everyRow_of_flat hflat hleaves⟩, hindices outer List.mem_cons_self⟩
  | cons index rest ih =>
    obtain ⟨houter, hrest⟩ := List.forall_mem_cons.mp hindices
    simp only [Row.selectBy, Value.everyRow, Bool.and_eq_true]
    refine ⟨⟨Row.flat_picked _ _, Row.everyRow_iff.mpr ?_⟩, houter⟩
    intro e he
    obtain ⟨f, hf, rfl⟩ := List.mem_map.mp he
    obtain ⟨es, rfl, hes⟩ := Row.nestedTo_row h hf
    exact ih hes (fun u hu => hleaves u (Row.leaves_of_row hf hu)) hrest

end

/-! ## What it means -/

/-- Unsigned, and narrow enough for its bits to be computed. -/
def Shape.Plain (s : Shape) : Prop := s.signed = false ∧ s.width ≤ evalLimit
  deriving Decidable

mutual
theorem Row.shape_plain : ∀ row : List Element,
    (∀ u ∈ Row.leaves row, u.shape.Plain) → (Row.shape row).Plain
  | [], _ => ⟨rfl, Nat.zero_le _⟩
  | e :: es, h => by
    obtain ⟨he, hes⟩ := List.forall_mem_append.mp h
    obtain ⟨hsigned, hwidth⟩ := Element.shape_plain e he
    obtain ⟨hsigneds, hwidths⟩ := Row.shape_plain es hes
    have hsame : e.shape.widthWithSign ≤ e.shape.width := by
      unfold Shape.widthWithSign clampWidth
      rw [hsigned]
      exact Nat.min_le_left _ _
    rw [Row.shape]
    exact ⟨by rw [hsigned, hsigneds]; rfl, max_le (hsame.trans hwidth) hwidths⟩

theorem Element.shape_plain : ∀ e : Element,
    (∀ u ∈ Element.leaves e, u.shape.Plain) → e.shape.Plain
  | .value v, h => h v (List.mem_singleton.mpr rfl)
  | .row es, h => Row.shape_plain es h
end

section

variable {row : Row} {st : State} {outer : Value}

/-- A selection from a row of unsigned elements is the element in its place, with its bits or its
error. -/
theorem Value.eval_select_plain {n : Int} {u : Value} (hrow : (Row.shape row).Plain)
    (hn : outer.number st = .ok n) (hu : row[row.place n]? = some (.value u)) :
    (Value.select row outer).eval st = u.eval st := by
  obtain ⟨hunsigned, hw⟩ := hrow
  have hmem := List.mem_of_getElem? hu
  have hwidth : u.shape.width + u.shape.signed.toNat ≤ (Row.shape row).width := Row.width_le hw hmem
  have hplain : u.shape.signed = false := by
    by_contra hsigned
    have hrow := Row.shape_signed.mpr ⟨_, hmem, Bool.not_eq_false _ ▸ hsigned⟩
    rw [hunsigned] at hrow
    cases hrow
  cases hbits : u.eval st with
  | ok bits =>
    obtain ⟨hlimit, hfits⟩ := Value.eval_fits hbits
    have hwide : bits < 2 ^ (Row.shape row).width :=
      hfits.trans_le (Nat.pow_le_pow_right Nat.two_pos (Nat.le_of_add_right_le hwidth))
    have hnumber : u.number st = .ok (bits : Int) :=
      Value.number_eq_ok.mpr ⟨bits, hbits, Shape.read_unsigned hplain hlimit hfits⟩
    have hcut : Bits.truncate (Bits.ofInt bits) (Row.shape row).width = bits := by
      have hword : (Row.shape row).width ≤ wordBits := hw.trans (by decide)
      rw [Bits.ofInt_natCast (hwide.trans_le (Nat.pow_le_pow_right Nat.two_pos hword)),
        Bits.truncate_of_lt hword hwide]
    have hshape : (Value.select row outer).width = (Row.shape row).width := by
      rw [Value.width, Value.shape]
    rw [Value.eval_select_eq_ok, hshape]
    exact ⟨hw, n, hn, u, hu, bits, hnumber, hcut⟩
  | error e =>
    obtain ⟨b, hb, rfl⟩ := Value.number_eq_ok.mp hn
    unfold Row.place at hu
    rw [Value.eval, Value.width, Value.shape, if_neg (Nat.not_lt.mpr hw), hb]
    simp only [bind, Except.bind, Row.evalAt_eq, hu, Option.bind_some, Element.eval, hbits]

/-- The selections lead to the leaf that the numbers of the indices lead to. -/
theorem Row.eval_selectBy {rest : List Value} (h : row.nestedTo (rest.length + 1) = true)
    (hleaves : ∀ u ∈ Row.leaves row, u.shape.Plain) {ns : List Int}
    (hns : Value.evalAll st (outer :: rest) = .ok ns) :
    ∃ u, row.leafAt? ns = some u ∧ (row.selectBy outer rest).eval st = u.eval st := by
  induction rest generalizing row outer ns with
  | nil =>
    obtain ⟨n, hn, _, hnil, rfl⟩ := Value.evalAll_cons_eq_ok.mp hns
    obtain rfl := Value.evalAll_nil_eq_ok.mp hnil
    obtain ⟨e, he, hplace⟩ := Row.exists_place (Row.nestedTo_filled h) n
    obtain ⟨u, rfl⟩ := Row.flat_value (Row.nestedTo_flat h) he
    refine ⟨u, ?_, Value.eval_select_plain (Row.shape_plain row hleaves) hn hplace⟩
    rw [Row.place_eq] at hplace
    rw [Row.leafAt?, hplace]
    rfl
  | cons index rest ih =>
    obtain ⟨n, hn, ms, hms, rfl⟩ := Value.evalAll_cons_eq_ok.mp hns
    obtain ⟨e, he, hplace⟩ := Row.exists_place (Row.nestedTo_filled h) n
    obtain ⟨es, rfl, hes⟩ := Row.nestedTo_row h he
    obtain ⟨u, hleaf, hu⟩ := ih hes (fun u hu => hleaves u (Row.leaves_of_row he hu)) hms
    refine ⟨u, ?_, ?_⟩
    · rw [Row.place_eq] at hplace
      rw [Row.leafAt?, hplace]
      exact hleaf
    · -- The outer selection leads to the selections of the row in its place.
      rw [← hu, Row.selectBy]
      apply Value.eval_select_plain _ hn
      · rw [Row.place_eq, List.length_map, ← Row.place_eq, List.getElem?_map, hplace]
        rfl
      · rw [Row.shape_picked fun es => Row.shape_selectBy es index rest]
        exact Row.shape_plain row hleaves

end

/-- A row of rows takes one index for each level, of any width and sign, and gives a complete value.
In every state the value is the leaf that the numbers of the indices lead to: at each level the
element at that position if the row has it, and the last one otherwise. -/
theorem Row.index_reaches_leaf (row : Row) (outer : Value) (rest : List Value)
    (nested : row.nestedTo (rest.length + 1) = true)
    (leaves : ∀ u ∈ Row.leaves row, u.checkComplete = .ok () ∧ u.shape.Plain)
    (indices : ∀ index ∈ outer :: rest, index.checkComplete = .ok ()) :
    ∃ v, (row.index outer >>= fun first => rest.foldlM Value.index first) = .ok v ∧
      v.checkComplete = .ok () ∧
      ∀ st ns, Value.evalAll st (outer :: rest) = .ok ns →
        ∃ u, row.leafAt? ns = some u ∧ v.eval st = u.eval st := by
  have hfirst : row.index outer = .ok (row.selectBy outer []) := by
    have hfilled : row.isEmpty = false := by simpa [Row.filled] using Row.nestedTo_filled nested
    simp [Row.index, Row.selectBy, hfilled]
  refine ⟨row.selectBy outer rest, ?_, ?_, ?_⟩
  · rw [hfirst]
    exact Row.foldlM_index nested
  · exact Row.selectBy_complete nested (fun u hu => (leaves u hu).1) indices
  · intro st ns hns
    exact Row.eval_selectBy nested (fun u hu => (leaves u hu).2) hns

def jagged : Row :=
  [.row [.value (.signal (.named 0 "a" 4)), .value (.signal (.named 1 "b" 6)),
      .value (.signal (.named 2 "c" 8))],
    .row [.value (.signal (.named 3 "d" 3)), .value (.signal (.named 4 "e" 5))]]

/-- A signed index for the rows and a wide one for their elements. -/
def jaggedRow : Value := .signal { id := 5, shape := .ofSigned 3 }

def jaggedColumn : Value := .signal (.named 6 "column" 100)

/-- The index of the row is negative, and the other one is in the first row but not in the last. -/
def jaggedState : State :=
  ((State.empty.set (.named 4 "e" 5) 21).set { id := 5, shape := .ofSigned 3 } (-2)).set
    (.named 6 "column" 100) 2

/-- Both indices saturate, the second by the length of the row that the first one leads to. -/
theorem Row.index_reaches_leaf_jagged :
    jagged.nestedTo 2 = true ∧ Value.evalAll jaggedState [jaggedRow, jaggedColumn] = .ok [-2, 2] ∧
      ∃ v, (jagged.index jaggedRow >>= fun first => [jaggedColumn].foldlM Value.index first) =
          .ok v ∧
        v.checkComplete = .ok () ∧ v.eval jaggedState = .ok 21 := by
  have hnested : jagged.nestedTo 2 = true := by decide
  have hnumbers : Value.evalAll jaggedState [jaggedRow, jaggedColumn] = .ok [-2, 2] := rfl
  have hsignal : ∀ s : Signal, s.shape.Plain →
      (Value.signal s).checkComplete = .ok () ∧ (Value.signal s).shape.Plain :=
    fun _ hs => ⟨rfl, hs⟩
  have hleaves : ∀ u ∈ Row.leaves jagged, u.checkComplete = .ok () ∧ u.shape.Plain := by
    simp only [jagged, Row.leaves, Element.leaves, List.cons_append, List.nil_append,
      List.append_nil, List.forall_mem_cons]
    exact ⟨hsignal _ (by decide), hsignal _ (by decide), hsignal _ (by decide),
      hsignal _ (by decide), hsignal _ (by decide), List.forall_mem_nil _⟩
  have hindices : ∀ index ∈ [jaggedRow, jaggedColumn], index.checkComplete = .ok () := by
    simp only [List.forall_mem_cons]
    exact ⟨rfl, rfl, List.forall_mem_nil _⟩
  obtain ⟨v, hv, hcomplete, hmeans⟩ :=
    Row.index_reaches_leaf jagged jaggedRow [jaggedColumn] hnested hleaves hindices
  refine ⟨hnested, hnumbers, v, hv, hcomplete, ?_⟩
  obtain ⟨u, hu, heval⟩ := hmeans jaggedState [-2, 2] hnumbers
  obtain rfl : Value.signal (.named 4 "e" 5) = u := Option.some.inj hu
  exact heval

end Gateware
