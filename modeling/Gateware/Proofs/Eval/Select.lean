import Gateware.Lower.Read
import Gateware.Proofs.Eval.Range

/-! # The number of a selection

A selection has the number of the element in its place, cut to the shape of the row. That shape has a
bit more than each signed element, and no bit more than an unsigned one. So the row holds all numbers
of its elements unless a signed element stands beside an unsigned one that is as wide as the row; a
large number of such an element comes out negative.
-/
namespace Gateware

/-! ## The shape of a row -/

theorem Row.widthWithSign_le {row : Row} {e : Element} (h : e ∈ row) :
    e.shape.widthWithSign ≤ (Row.shape row).width := by
  induction row with
  | nil => cases h
  | cons f es ih =>
    rw [Row.shape]
    rcases List.mem_cons.mp h with rfl | h
    · exact Nat.le_max_left _ _
    · exact (ih h).trans (Nat.le_max_right _ _)

theorem Row.shape_signed {row : Row} :
    (Row.shape row).signed = true ↔ ∃ e ∈ row, e.shape.signed = true := by
  induction row with
  | nil => simp [Row.shape, Shape.ofUnsigned]
  | cons f es ih => simp [Row.shape, ih]

/-- Within the limit the sign of an element is counted. -/
theorem Row.width_le {row : Row} (hw : (Row.shape row).width ≤ evalLimit) {e : Element}
    (h : e ∈ row) : e.shape.width + e.shape.signed.toNat ≤ (Row.shape row).width := by
  have hle := Row.widthWithSign_le h
  have hlimit : evalLimit < widthLimit := by decide
  unfold Shape.widthWithSign clampWidth at hle
  omega

section

variable {row : Row} {v : Value} {x : Int}

/-- The row holds the numbers of an element, if there is room for the sign of an unsigned one. -/
theorem Row.holds_of_mem (hw : (Row.shape row).width ≤ evalLimit) (hv : .value v ∈ row)
    (hx : v.shape.Holds x)
    (hroom : (Row.shape row).signed = true → v.shape.signed = false →
      v.width < (Row.shape row).width) : (Row.shape row).Holds x := by
  have hwidth : v.shape.width + v.shape.signed.toNat ≤ (Row.shape row).width := Row.width_le hw hv
  cases hs : v.shape.signed with
  | true =>
    have hrow : (Row.shape row).signed = true := Row.shape_signed.mpr ⟨_, hv, hs⟩
    exact hx.widen (hrow.trans hs.symm) (Nat.le_of_add_right_le hwidth)
  | false =>
    cases hrow : (Row.shape row).signed with
    | false => exact hx.widen (hrow.trans hs.symm) (Nat.le_of_add_right_le hwidth)
    | true => exact hx.addSign hs hrow (hroom hrow hs)

/-- Without that room the greatest number of the element is lost. -/
theorem Row.room_of_holds (hw : (Row.shape row).width ≤ evalLimit) (hv : .value v ∈ row)
    (h : ∀ x, v.shape.Holds x → (Row.shape row).Holds x) (hrow : (Row.shape row).signed = true)
    (hs : v.shape.signed = false) : v.width < (Row.shape row).width := by
  have hwidth : v.shape.width + v.shape.signed.toNat ≤ (Row.shape row).width := Row.width_le hw hv
  obtain ⟨e, he, hsigned⟩ := Row.shape_signed.mp hrow
  have hsign := Row.width_le hw he
  rw [hsigned] at hsign
  have hpow : (2 : Int) ^ 1 ≤ 2 ^ (Row.shape row).width :=
    pow_le_pow_right₀ (by norm_num) (Nat.le_of_add_left_le hsign)
  by_contra hfull
  have hsame : v.shape.width = (Row.shape row).width :=
    Nat.le_antisymm (Nat.le_of_add_right_le hwidth) (Nat.le_of_not_lt hfull)
  have hgreatest : v.shape.Holds (2 ^ (Row.shape row).width - 1) := by
    rw [Shape.holds_unsigned hs, hsame]
    omega
  have hlost := (Shape.holds_signed hrow).mp (h _ hgreatest)
  omega

/-! ## Selections -/

theorem Row.place_eq (row : Row) (n : Int) :
    row.place n = if 0 ≤ n ∧ n < row.length then n.toNat else row.length - 1 := by
  unfold Row.place
  split <;> split <;> omega

/-- An unsigned number past the middle of a signed shape is read as a negative one. -/
theorem Shape.wrapped_past_middle {s : Shape} (hs : s.signed = true) (hw : s.width ≤ evalLimit)
    (hmiddle : 2 ^ s.width ≤ x * 2) (hlt : x < 2 ^ s.width) : s.wrapped x = x - 2 ^ s.width := by
  have hpos : (0 : Int) < 2 ^ s.width := by positivity
  rw [Shape.wrapped_signed hs (hw.trans (by decide)), Int.bmod_def]
  push_cast
  rw [Int.emod_eq_of_lt (by omega) hlt, if_neg (by omega)]

theorem Row.wrapped_of_mem (hw : (Row.shape row).width ≤ evalLimit) (hv : .value v ∈ row)
    (hx : v.shape.Holds x) :
    (Row.shape row).wrapped x =
      if (Row.shape row).signed = true ∧ v.shape.signed = false ∧ 2 ^ (Row.shape row).width ≤ x * 2
        then x - 2 ^ (Row.shape row).width else x := by
  split
  · rename_i h
    obtain ⟨hrow, hs, hmiddle⟩ := h
    have hwidth : v.shape.width + v.shape.signed.toNat ≤ (Row.shape row).width :=
      Row.width_le hw hv
    have hpow : (2 : Int) ^ v.shape.width ≤ 2 ^ (Row.shape row).width :=
      pow_le_pow_right₀ (by norm_num) (Nat.le_of_add_right_le hwidth)
    rw [Shape.holds_unsigned hs] at hx
    exact Shape.wrapped_past_middle hrow hw hmiddle (hx.2.trans_le hpow)
  · rename_i h
    apply Shape.Holds.wrapped_eq _ hw
    by_cases hmixed : (Row.shape row).signed = true ∧ v.shape.signed = false
    · obtain ⟨hrow, hs⟩ := hmixed
      rw [Shape.holds_unsigned hs] at hx
      have hsmall : ¬ 2 ^ (Row.shape row).width ≤ x * 2 := fun hle => h ⟨hrow, hs, hle⟩
      rw [Shape.holds_signed hrow]
      have hpos : (0 : Int) < 2 ^ (Row.shape row).width := by positivity
      omega
    · exact Row.holds_of_mem hw hv hx fun hrow hs => absurd ⟨hrow, hs⟩ hmixed

end

/-- A selection that has a number has that of the element at the value of its index, or of the last
one if there is none, except that an unsigned element of a signed row loses the whole range of the
row if its number is past the middle. No number of any element is lost exactly if all unsigned
elements of a signed row are narrower than the row. -/
theorem Value.number_select_wraps {row : Row} {index : Value} {st : State} {m : Int}
    (h : (Value.select row index).number st = .ok m) :
    (∃ n u k, index.number st = .ok n ∧
      row[if 0 ≤ n ∧ n < row.length then n.toNat else row.length - 1]? = some (.value u) ∧
      u.number st = .ok k ∧
      m = if (Row.shape row).signed = true ∧ u.shape.signed = false ∧
        2 ^ (Row.shape row).width ≤ k * 2 then k - 2 ^ (Row.shape row).width else k) ∧
    ((∀ v, .value v ∈ row → ∀ x, v.shape.Holds x → (Row.shape row).Holds x) ↔
      ((Row.shape row).signed = true → ∀ v, .value v ∈ row → v.shape.signed = false →
        v.width < (Row.shape row).width)) := by
  obtain ⟨hw, n, hn, u, hu, k, hk, rfl⟩ := Value.number_select_eq_ok.mp h
  have hshape : (Value.select row index).shape = Row.shape row := by rw [Value.shape]
  rw [Value.width, hshape] at hw
  constructor
  · have hmem := List.mem_of_getElem? hu
    rw [Row.place_eq] at hu
    rw [hshape]
    exact ⟨n, u, k, hn, hu, hk, Row.wrapped_of_mem hw hmem (Value.number_holds hk).2⟩
  · constructor
    · intro hholds hrow v hv hs
      exact Row.room_of_holds hw hv (hholds v hv) hrow hs
    · intro hroom v hv x hx
      exact Row.holds_of_mem hw hv hx fun hrow hs => hroom hrow v hv hs

/-- A row whose signed element is wider than the unsigned one, under a signed index. -/
def wideSigned : Row :=
  [.value (.signal (.named 0 "u" 4)), .value (.signal { id := 1, shape := .ofSigned 6 })]

def signedIndex : Value := .signal { id := 2, shape := .ofSigned 2 }

/-- The index is before the row and selects the last element. -/
def beforeState : State :=
  ((State.empty.set (.named 0 "u" 4) 15).set { id := 1, shape := .ofSigned 6 } (-3)).set
    { id := 2, shape := .ofSigned 2 } (-1)

theorem Value.number_select_wraps_before :
    (Value.select wideSigned signedIndex).number beforeState = .ok (-3) ∧
      (∃ n u k, signedIndex.number beforeState = .ok n ∧
        wideSigned[if 0 ≤ n ∧ n < wideSigned.length then n.toNat else wideSigned.length - 1]? =
          some (.value u) ∧ u.number beforeState = .ok k ∧
        -3 = if (Row.shape wideSigned).signed = true ∧ u.shape.signed = false ∧
          2 ^ (Row.shape wideSigned).width ≤ k * 2 then k - 2 ^ (Row.shape wideSigned).width
          else k) ∧
      ∀ v, .value v ∈ wideSigned → ∀ x, v.shape.Holds x → (Row.shape wideSigned).Holds x := by
  have hnumber : (Value.select wideSigned signedIndex).number beforeState = .ok (-3) := rfl
  obtain ⟨helement, hroom⟩ := Value.number_select_wraps hnumber
  refine ⟨hnumber, helement, hroom.mpr ?_⟩
  intro _ v hv _
  rcases List.mem_pair.mp hv with h | h
  · cases h
    decide
  · cases h
    decide

/-- An unsigned element beside a signed one that is narrower. -/
def wideUnsigned : Row :=
  [.value (.signal (.named 0 "u" 8)), .value (.signal { id := 1, shape := .ofSigned 4 })]

/-- The unsigned element is past the middle of its range, and the index is at zero. -/
def wideState : State := State.empty.set (.named 0 "u" 8) 200

/-- The selection is negative, what it selects is not, and neither is the chain of multiplexers that
replaces it. -/
theorem Value.number_select_turns_negative :
    Row.checkComplete wideUnsigned = .ok () ∧
      (Value.signal (.named 2 "i" 1)).number wideState = .ok 0 ∧
      (Value.signal (.named 0 "u" 8)).number wideState = .ok 200 ∧
      (Value.select wideUnsigned (.signal (.named 2 "i" 1))).number wideState = .ok (-56) ∧
      (Value.select wideUnsigned (.signal (.named 2 "i" 1))).lowerReads.number wideState =
        .ok 200 :=
  ⟨rfl, rfl, rfl, rfl, rfl⟩

end Gateware
