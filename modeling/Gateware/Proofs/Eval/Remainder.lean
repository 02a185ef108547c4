import Gateware.Proofs.Eval.Operator

/-! # Remainders

A remainder has the sign of the divisor and is smaller than it, but it gets the shape of the
dividend. Where that shape has no pattern for the remainder, another number of the same residue
comes out. Operands of one sign are safe, and so is a divisor that the shape of the dividend holds.
-/
namespace Gateware

/-! ## The specification -/

/-- The dividend less the divisor taken as often as the quotient, rounded down, says. -/
def flooredRemainder (x y : Int) : Int := x - y * ⌊(x : ℚ) / y⌋

theorem flooredRemainder_neg (x y : Int) : flooredRemainder (-x) (-y) = -flooredRemainder x y := by
  unfold flooredRemainder
  push_cast
  rw [neg_div_neg_eq]
  ring

theorem flooredRemainder_natCast (x : Int) (n : Nat) : flooredRemainder x n = x.fmod n := by
  have hfloor : ⌊(x : ℚ) / ((n : Int) : ℚ)⌋ = x / n := by
    rw [Int.cast_natCast]
    exact Rat.floor_intCast_div_natCast x n
  rw [Int.fmod_eq_emod_of_nonneg x (Int.natCast_nonneg n), flooredRemainder, hfloor, Int.emod_def]

theorem flooredRemainder_eq_fmod (x y : Int) : flooredRemainder x y = x.fmod y := by
  rcases Int.le_total 0 y with hy | hy
  · lift y to Nat using hy
    exact flooredRemainder_natCast x y
  · obtain ⟨n, rfl⟩ : ∃ n : Nat, y = -n := ⟨y.natAbs, by omega⟩
    have hneg := flooredRemainder_neg (-x) n
    rw [neg_neg, flooredRemainder_natCast, ← Int.neg_fmod_neg, neg_neg] at hneg
    exact hneg

section

variable {x y : Int}

theorem flooredRemainder_of_pos (hy : 0 < y) (x : Int) :
    0 ≤ flooredRemainder x y ∧ flooredRemainder x y < y := by
  rw [flooredRemainder_eq_fmod]
  exact ⟨Int.fmod_nonneg_of_pos x hy, Int.fmod_lt_of_pos x hy⟩

theorem flooredRemainder_of_neg (hy : y < 0) (x : Int) :
    y < flooredRemainder x y ∧ flooredRemainder x y ≤ 0 := by
  have h := flooredRemainder_of_pos (Int.neg_pos_of_neg hy) (-x)
  rw [flooredRemainder_neg] at h
  omega

/-- A remainder lies between zero and the divisor. -/
theorem flooredRemainder_between (x y : Int) (hy : y ≠ 0) :
    min 0 y ≤ flooredRemainder x y ∧ flooredRemainder x y ≤ max 0 y := by
  rcases lt_or_gt_of_ne hy with hneg | hpos
  · have h := flooredRemainder_of_neg hneg x
    omega
  · have h := flooredRemainder_of_pos hpos x
    omega

/-- With operands of one sign it also lies between zero and the dividend. -/
theorem flooredRemainder_between_dividend (hxy : 0 ≤ x * y) (hy : y ≠ 0) :
    min 0 x ≤ flooredRemainder x y ∧ flooredRemainder x y ≤ max 0 x := by
  -- the quotient is not negative, so that nothing is added to the dividend
  have hquotient : 0 ≤ ⌊(x : ℚ) / y⌋ := by
    rw [Int.floor_nonneg, ← mul_div_mul_right (x : ℚ) y (Int.cast_ne_zero.mpr hy)]
    exact div_nonneg (by exact_mod_cast hxy) (mul_self_nonneg _)
  have hless : flooredRemainder x y = x - y * ⌊(x : ℚ) / y⌋ := rfl
  rcases lt_or_gt_of_ne hy with hneg | hpos
  · have h := flooredRemainder_of_neg hneg x
    have hx : x ≤ 0 := by nlinarith
    have hproduct : y * ⌊(x : ℚ) / y⌋ ≤ 0 := mul_nonpos_of_nonpos_of_nonneg hneg.le hquotient
    omega
  · have h := flooredRemainder_of_pos hpos x
    have hx : 0 ≤ x := by nlinarith
    have hproduct : 0 ≤ y * ⌊(x : ℚ) / y⌋ := mul_nonneg hpos.le hquotient
    omega

end

/-! ## Shapes -/

namespace Shape

variable {s : Shape} {n r : Int}

/-- What a shape reads of a number is the one number in its range with the same residue. -/
theorem wrapped_eq_iff (hw : s.width ≤ evalLimit) :
    s.wrapped n = r ↔ s.Holds r ∧ r ≡ n [ZMOD 2 ^ s.width] := by
  constructor
  · rintro rfl
    exact ⟨holds_read hw (Bits.truncate_lt _ _), wrapped_modEq hw n⟩
  · rintro ⟨hr, hmod⟩
    rw [← wrapped_congr hw hmod]
    exact hr.wrapped_eq hw

theorem wrapped_eq_self_iff (hw : s.width ≤ evalLimit) : s.wrapped n = n ↔ s.Holds n := by
  rw [wrapped_eq_iff hw]
  exact and_iff_left (Int.ModEq.refl n)

/-- The shape of the dividend holds the remainder of operands of one sign, and every remainder by a
divisor that it holds. -/
theorem Holds.flooredRemainder {x y : Int} (hx : s.Holds x) (hy : y ≠ 0)
    (hsafe : 0 ≤ x * y ∨ s.Holds y) : s.Holds (flooredRemainder x y) := by
  rcases hsafe with hsign | hheld
  · obtain ⟨hlow, hhigh⟩ := flooredRemainder_between_dividend hsign hy
    exact hx.of_between hlow hhigh
  · obtain ⟨hlow, hhigh⟩ := flooredRemainder_between x y hy
    exact hheld.of_between hlow hhigh

end Shape

/-! ## Values -/

section

variable {a b : Value} {st : State} {r : Int}

theorem Value.number_mod_eq_ok :
    (Value.op .mod [a, b]).number st = .ok r ↔
      ∃ x y, a.number st = .ok x ∧ b.number st = .ok y ∧ y ≠ 0 ∧
        a.shape.wrapped (flooredRemainder x y) = r := by
  have hshape : (Value.op .mod [a, b]).shape = a.shape := rfl
  rw [Value.number_op_eq_ok, Value.width, hshape]
  simp only [Value.evalAll_eq_ok]
  constructor
  · rintro ⟨-, ns, hns, n, hn, hr⟩
    obtain ⟨x, _, hx, hrest, rfl⟩ := List.forall₂_cons_left_iff.mp hns
    obtain ⟨y, _, hy, hnil, rfl⟩ := List.forall₂_cons_left_iff.mp hrest
    rw [List.forall₂_nil_left_iff] at hnil
    subst hnil
    simp only [Op.compute] at hn
    split at hn
    · cases hn
    · rename_i hzero
      cases hn
      rw [← flooredRemainder_eq_fmod] at hr
      exact ⟨x, y, hx, hy, hzero, hr⟩
  · rintro ⟨x, y, hx, hy, hzero, hr⟩
    have hw : a.shape.width ≤ evalLimit := (Value.number_holds hx).1
    rw [flooredRemainder_eq_fmod] at hr
    exact ⟨hw, [x, y], .cons hx (.cons hy .nil), x.fmod y, by simp [Op.compute, hzero], hr⟩

/-- A remainder has a number exactly if both operands have one and the divisor is not zero. It is
the number in the range of the dividend's shape that has the residue of the floored remainder, and
thus the floored remainder itself exactly if that is in the range; it is if the operands have one
sign or the shape of the dividend holds the divisor. -/
theorem Value.number_mod_wraps :
    (Value.op .mod [a, b]).number st = .ok r ↔
      ∃ x y, a.number st = .ok x ∧ b.number st = .ok y ∧ y ≠ 0 ∧
        (a.shape.Holds r ∧ r ≡ flooredRemainder x y [ZMOD 2 ^ a.width]) ∧
        (r = flooredRemainder x y ↔ a.shape.Holds (flooredRemainder x y)) ∧
        (0 ≤ x * y ∨ a.shape.Holds y → r = flooredRemainder x y) := by
  rw [Value.number_mod_eq_ok]
  refine exists₂_congr fun x y => and_congr_right fun hx => and_congr_right fun _ =>
    and_congr_right fun hy => ?_
  obtain ⟨hw, hholds⟩ := Value.number_holds hx
  constructor
  · rintro rfl
    have hexact : a.shape.wrapped (flooredRemainder x y) = flooredRemainder x y ↔
        a.shape.Holds (flooredRemainder x y) := Shape.wrapped_eq_self_iff hw
    refine ⟨(Shape.wrapped_eq_iff hw).mp rfl, hexact, fun hsafe => ?_⟩
    exact hexact.mpr (hholds.flooredRemainder hy hsafe)
  · rintro ⟨hr, -⟩
    exact (Shape.wrapped_eq_iff hw).mpr hr

end

/-- Four bits with a sign hold a remainder by three, whatever the signs. -/
theorem Value.number_mod_wraps_seven :
    (Value.op .mod [.int (-7), .int 3]).number .empty = .ok 2 ∧ flooredRemainder (-7) 3 = 2 := by
  have hheld : (Value.int (-7)).shape.Holds 3 := by
    change -2 ^ 4 ≤ 3 * 2 ∧ 3 * 2 < 2 ^ 4
    norm_num
  have hresult : (Value.op .mod [.int (-7), .int 3]).number .empty = .ok 2 := rfl
  obtain ⟨_, _, ⟨⟩, ⟨⟩, -, -, -, hsafe⟩ := Value.number_mod_wraps.mp hresult
  have hexact : 2 = flooredRemainder (-7) 3 := hsafe (.inr hheld)
  exact ⟨hresult, hexact.symm⟩

/-- Three bits without a sign have no pattern for the remainder `-2`, and one bit with a sign has
none for `4`. -/
theorem Value.number_mod_leaves_range :
    (Value.op .mod [.int 7, .int (-3)]).number .empty = .ok 6 ∧ flooredRemainder 7 (-3) = -2 ∧
      (Value.op .mod [.int (-1), .int 5]).number .empty = .ok 0 ∧ flooredRemainder (-1) 5 = 4 := by
  simp only [flooredRemainder_eq_fmod]
  exact ⟨rfl, rfl, rfl, rfl⟩

end Gateware
