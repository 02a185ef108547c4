import Gateware.Proofs.Eval.Nested
import Gateware.Proofs.Lower.Read
import Gateware.Value.Measure

/-! # The size of lowered reads

A chain of multiplexers joins its inputs one by one, so that it has one multiplexer, with one guard,
less than it has leaves. That is kept when the inputs are chains themselves, and the leaves of a grid
that is indexed at every level are then as many as the product of its dimensions.
-/
namespace Gateware

/-! ## Grids -/

/-- Whether an element is a signal below rows of the given lengths, one level for each of them. -/
def Element.isGrid : List Nat → Element → Bool
  | [], .value (.signal _) => true
  | dim :: dims, .row elements => elements.length == dim && elements.all (Element.isGrid dims)
  | _, _ => false

section

variable {row : Row} {dims : List Nat} {dim : Nat} {e : Element}

theorem Element.isGrid_nil (h : e.isGrid [] = true) : ∃ s, e = .value (.signal s) := by
  match e, h with
  | .value (.signal s), _ => exact ⟨s, rfl⟩

theorem Element.isGrid_cons (h : e.isGrid (dim :: dims) = true) :
    ∃ es, e = .row es ∧ es.length = dim ∧ ∀ f ∈ es, f.isGrid dims = true := by
  cases e with
  | value v => cases h
  | row es =>
    obtain ⟨hlength, hall⟩ := Bool.and_eq_true_iff.mp h
    exact ⟨es, rfl, beq_iff_eq.mp hlength, List.all_eq_true.mp hall⟩

/-- A grid without an empty dimension is a filled row of rows down to its signals. -/
theorem Row.nestedTo_of_isGrid (h : (Element.row row).isGrid dims = true)
    (hpos : ∀ dim ∈ dims, 0 < dim) : row.nestedTo dims.length = true := by
  induction dims generalizing row with
  | nil => cases h
  | cons dim dims ih =>
    obtain ⟨_, ⟨⟩, hlength, hgrids⟩ := Element.isGrid_cons h
    obtain ⟨hdim, hdims⟩ := List.forall_mem_cons.mp hpos
    have hfilled : row.filled = true := by
      have hne : row ≠ [] := List.ne_nil_of_length_pos (hlength ▸ hdim)
      simpa [Row.filled] using hne
    cases dims with
    | nil =>
      refine Bool.and_eq_true_iff.mpr ⟨hfilled, List.all_eq_true.mpr fun e he => ?_⟩
      obtain ⟨s, rfl⟩ := Element.isGrid_nil (hgrids e he)
      rfl
    | cons next rest =>
      refine Bool.and_eq_true_iff.mpr ⟨hfilled, List.all_eq_true.mpr fun e he => ?_⟩
      obtain ⟨es, rfl, -⟩ := Element.isGrid_cons (hgrids e he)
      exact ih (hgrids _ he) hdims

end

/-! ## Leaves behind multiplexers -/

attribute [ext] TreeCount

namespace TreeCount

variable (a b : TreeCount)

@[simp] theorem muxes_add : (a + b).muxes = a.muxes + b.muxes := rfl
@[simp] theorem guards_add : (a + b).guards = a.guards + b.guards := rfl
@[simp] theorem leaves_add : (a + b).leaves = a.leaves + b.leaves := rfl
@[simp] theorem selections_add : (a + b).selections = a.selections + b.selections := rfl

end TreeCount

theorem muxLeaves_pair (a b : Value) : muxLeaves [a, b] = muxLeaves [a] + muxLeaves [b] := by
  simp only [muxLeaves, ← List.length_append, ← List.filter_append]
  rfl

/-- The value is `n` leaves behind multiplexers that have one guard each. As an input of another
multiplexer, one that is no multiplexer is a leaf itself. -/
structure Value.Spreads (v : Value) (n : Nat) : Prop where
  muxes : v.measure.muxes + 1 = n
  guards : v.measure.guards + 1 = n
  leaves : v.measure.leaves + muxLeaves [v] = n
  selections : v.measure.selections = 0
  top : v.isMux = true ∨ n = 1

section

variable {guard a b v : Value} {m n : Nat}

theorem Value.spreads_signal (s : Signal) : (Value.signal s).Spreads 1 :=
  ⟨rfl, rfl, rfl, rfl, .inr rfl⟩

/-- A multiplexer has the leaves of both inputs. -/
theorem Value.Spreads.mux (hguard : guard.measure = { guards := 1 }) (ha : a.Spreads m)
    (hb : b.Spreads n) : (Value.op .mux [guard, a, b]).Spreads (m + n) := by
  have hmeasure : (Value.op .mux [guard, a, b]).measure =
      { muxes := 1, leaves := muxLeaves [a] + muxLeaves [b] } +
        ({ guards := 1 } + (a.measure + (b.measure + {}))) := by
    rw [← hguard, ← muxLeaves_pair]
    rfl
  have hnone : muxLeaves [Value.op .mux [guard, a, b]] = 0 := rfl
  obtain ⟨hma, hga, hla, hsa, -⟩ := ha
  obtain ⟨hmb, hgb, hlb, hsb, -⟩ := hb
  constructor
  case top => exact .inl rfl
  all_goals
    simp only [hmeasure, hnone, TreeCount.muxes_add, TreeCount.guards_add, TreeCount.leaves_add,
      TreeCount.selections_add]
    omega

theorem Value.Spreads.treeCount_eq (h : v.Spreads n) :
    v.treeCount = { muxes := n - 1, guards := n - 1, leaves := n, selections := 0 } := by
  obtain ⟨hmuxes, hguards, hleaves, hselections, htop⟩ := h
  -- one leaf is counted for a value without multiplexers and not inside it
  have hzero : v.measure.muxes = 0 ∧ v.measure.selections = 0 ↔ n = 1 := by omega
  simp only [Value.treeCount, hzero]
  split
  · ext <;> simp only <;> omega
  · rename_i hmany
    have hnone : muxLeaves [v] = 0 := by simp [muxLeaves, htop.resolve_right hmany]
    ext <;> simp only <;> omega

end

/-! ## Chains and grids -/

/-- A position that a shape holds as a number is one that an index of this shape reaches. -/
theorem Shape.Holds.reaches {s : Shape} {position : Nat} (h : s.Holds position) :
    s.reaches position = true := by
  simp only [Shape.reaches, Nat.one_shiftLeft, Bool.or_eq_true, decide_eq_true_eq]
  right
  cases hs : s.signed with
  | false =>
    rw [Shape.holds_unsigned hs] at h
    exact_mod_cast h.2
  | true =>
    obtain ⟨-, h⟩ := (Shape.holds_signed hs).mp h
    cases hw : s.width with
    | zero =>
      rw [hw] at h
      simp only [if_true]
      omega
    | succ w =>
      rw [hw, pow_succ] at h
      simp only [if_true, Nat.add_sub_cancel]
      zify
      omega

/-- A chain has the leaves of all its values if the index reaches every position but the last. -/
theorem muxChain_spreads {index : Signal} {row : Row} {n position : Nat} (hne : row ≠ [])
    (hflat : row.flat = true) (hrow : ∀ v, .value v ∈ row → v.Spreads n)
    (hreach : ∀ i, i + 1 < row.length → index.shape.reaches (position + i) = true) :
    (muxChain (.signal index) (Row.entriesFrom position row)).Spreads (row.length * n) := by
  induction row generalizing position with
  | nil => exact absurd rfl hne
  | cons e es ih =>
    obtain ⟨he, hes⟩ := Bool.and_eq_true_iff.mp hflat
    cases e with
    | row _ => cases he
    | value v =>
      have hv := hrow v List.mem_cons_self
      cases es with
      | nil =>
        rw [List.length_singleton, Nat.one_mul]
        exact hv
      | cons f fs =>
        cases f with
        | row _ => cases hes
        | value u =>
          have hnext : ∀ i, i + 1 < (Element.value u :: fs).length →
              index.shape.reaches (position + 1 + i) = true := by
            intro i hi
            rw [Nat.add_right_comm]
            exact hreach (i + 1) (Nat.succ_lt_succ hi)
          have hrest := ih (List.cons_ne_nil _ _) hes
            (fun w hw => hrow w (List.mem_cons_of_mem _ hw)) hnext
          have hhere : (Value.signal index).shape.reaches position = true := hreach 0 (by simp)
          have hlength : (Element.value v :: .value u :: fs).length * n =
              n + (Element.value u :: fs).length * n := by
            rw [List.length_cons, Nat.succ_mul, Nat.add_comm]
          rw [muxChain_cons, if_pos hhere, hlength]
          exact hv.mux rfl hrest

/-- A lowered selection by a signal that reaches every position but the last. -/
theorem Value.select_spreads {index : Signal} {row : Row} {n : Nat} (hfilled : row.filled = true)
    (hflat : row.flat = true) (hrow : ∀ v, .value v ∈ row → v.lowerReads.Spreads n)
    (hreach : ∀ position : Nat, position + 1 < row.length → index.shape.Holds position) :
    (Value.select row (.signal index)).lowerReads.Spreads (row.length * n) := by
  have hne : row ≠ [] := by
    rintro rfl
    cases hfilled
  have hlength : row.lowerReads.length = row.length := List.length_map _
  rw [Value.lowerReads_select, ← hlength]
  refine muxChain_spreads (by simpa [Row.lowerReads] using hne) (Row.lowerReads_flat hflat) ?_ ?_
  · intro u hu
    obtain ⟨v, hv, rfl⟩ := Row.mem_lowerReads hu
    exact hrow v hv
  · intro i hi
    rw [Nat.zero_add]
    exact (hreach i (hlength ▸ hi)).reaches

/-- One signal for each level, able to hold every position of its dimension but the last. -/
def Signal.Address (dims : List Nat) (indices : List Signal) : Prop :=
  List.Forall₂ (fun dim index => ∀ position : Nat, position + 1 < dim → index.shape.Holds position)
    dims indices

theorem Row.selectBy_spreads {row : Row} {dims : List Nat} {outer : Signal} {rest : List Signal}
    (h : (Element.row row).isGrid dims = true) (hpos : ∀ dim ∈ dims, 0 < dim)
    (hindices : Signal.Address dims (outer :: rest)) :
    (row.selectBy (.signal outer) (rest.map .signal)).lowerReads.Spreads dims.prod := by
  induction rest generalizing row dims outer with
  | nil =>
    obtain ⟨dim, _, hreach, hnil, rfl⟩ := List.forall₂_cons_right_iff.mp hindices
    obtain rfl := List.forall₂_nil_right_iff.mp hnil
    have hnested := Row.nestedTo_of_isGrid h hpos
    obtain ⟨_, ⟨⟩, rfl, hsignals⟩ := Element.isGrid_cons h
    refine Value.select_spreads (Row.nestedTo_filled hnested) (Row.nestedTo_flat hnested) ?_ hreach
    intro v hv
    obtain ⟨s, ⟨⟩⟩ := Element.isGrid_nil (hsignals _ hv)
    exact Value.spreads_signal s
  | cons index rest ih =>
    obtain ⟨dim, dims, hreach, hrest, rfl⟩ := List.forall₂_cons_right_iff.mp hindices
    have hfilled := Row.nestedTo_filled (Row.nestedTo_of_isGrid h hpos)
    obtain ⟨_, ⟨⟩, rfl, hgrids⟩ := Element.isGrid_cons h
    have hlength : (row.map (Element.picked fun es =>
        es.selectBy (.signal index) (rest.map .signal))).length = row.length := List.length_map _
    rw [List.prod_cons, ← hlength]
    refine Value.select_spreads (by simpa [Row.filled] using hfilled) (Row.flat_picked _ _) ?_
      (hlength ▸ hreach)
    intro v hv
    obtain ⟨e, he, hpicked⟩ := List.mem_map.mp hv
    obtain ⟨next, _, -, -, rfl⟩ := List.forall₂_cons_right_iff.mp hrest
    obtain ⟨es, rfl, -⟩ := Element.isGrid_cons (hgrids e he)
    cases hpicked
    exact ih (hgrids _ he) (fun dim hdim => hpos dim (List.mem_cons_of_mem _ hdim)) hrest

/-- A grid of signals without an empty dimension takes one index signal for each level. If each of
them holds every position of its dimension but the last, the lowered read has as many leaves as the
grid has signals, one multiplexer and one guard less, and no selection. -/
theorem Row.grid_read_treeCount (row : Row) (dims : List Nat) (outer : Signal) (rest : List Signal)
    (grid : (Element.row row).isGrid dims = true) (positive : ∀ dim ∈ dims, 1 ≤ dim)
    (address : Signal.Address dims (outer :: rest)) :
    ∃ v, (row.index (.signal outer) >>= fun first =>
        (rest.map Value.signal).foldlM Value.index first) = .ok v ∧
      v.lowerReads.treeCount =
        { muxes := dims.prod - 1, guards := dims.prod - 1, leaves := dims.prod, selections := 0 } := by
  have hnested := Row.nestedTo_of_isGrid grid positive
  have hlevels : dims.length = (rest.map Value.signal).length + 1 := by
    rw [List.length_map]
    exact address.length_eq
  exact ⟨_, Row.index_foldlM (hlevels ▸ hnested),
    (Row.selectBy_spreads grid positive address).treeCount_eq⟩

/-- Two layers of one row of three signals. -/
def slab : Row :=
  [.row [.row [.value (.signal (.named 0 "a" 4)), .value (.signal (.named 1 "b" 4)),
      .value (.signal (.named 2 "c" 8))]],
    .row [.row [.value (.signal (.named 3 "d" 4)), .value (.signal (.named 4 "e" 4)),
      .value (.signal (.named 0 "a" 4))]]]

/-- No bits are enough for two layers and for one row, and two with a sign for three signals. -/
def slabLayer : Signal := { id := 5, shape := .ofUnsigned 0 }

def slabColumn : Signal := { id := 6, shape := .ofSigned 2 }

theorem Row.grid_read_treeCount_slab :
    (Element.row slab).isGrid [2, 1, 3] = true ∧
      Signal.Address [2, 1, 3] [slabLayer, slabLayer, slabColumn] ∧
      ∃ v, (slab.index (.signal slabLayer) >>= fun first =>
          ([slabLayer, slabColumn].map Value.signal).foldlM Value.index first) = .ok v ∧
        v.lowerReads.treeCount = { muxes := 5, guards := 5, leaves := 6, selections := 0 } := by
  have hgrid : (Element.row slab).isGrid [2, 1, 3] = true := by decide
  have haddress : Signal.Address [2, 1, 3] [slabLayer, slabLayer, slabColumn] := by
    refine .cons (fun position h => ?_) (.cons (fun position h => ?_)
      (.cons (fun position h => ?_) .nil))
    · change (0 : Int) ≤ position ∧ (position : Int) < 2 ^ 0
      omega
    · omega
    · change -2 ^ 2 ≤ (position : Int) * 2 ∧ (position : Int) * 2 < 2 ^ 2
      omega
  exact ⟨hgrid, haddress,
    Row.grid_read_treeCount slab [2, 1, 3] slabLayer [slabLayer, slabColumn] hgrid (by decide)
      haddress⟩

end Gateware
