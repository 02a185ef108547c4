import Gateware.Shape
import Mathlib

/-! # Widths at the limit

The width of a result is held at the limit after every step of its rule. Holding it once at the end
gives the same, since the steps only add and take maxima, with one exception: the growth of a shift
up is a power of two less one, and a power that was held at the limit first is one too small
afterwards. That shows where nothing else is added to it, which is a shift of no bits.
-/
namespace Gateware

/-! ## The rules without a limit -/

namespace Shape

/-- The width of an operand beside another one: next to a sign, an unsigned one has a bit more. -/
def widthBeside (a b : Shape) : Nat := a.width + (b.signed && !a.signed).toNat

/-- The width of a bitwise combination. -/
def jointWidth (a b : Shape) : Nat := max (a.widthBeside b) (b.widthBeside a)

/-- The bits that spell how far an amount moves up: all but the sign. -/
def amountBits (b : Shape) : Nat := if b.signed then b.width - 1 else b.width

end Shape

namespace Op

/-- The width of the result if widths had no limit. -/
def freeWidth : Op → List Shape → Nat
  | .not, [a] | .mod, [a, _] => a.width
  | .neg, [a] => a.width + 1
  | .add, [a, b] | .sub, [a, b] => a.jointWidth b + 1
  | .mul, [a, b] => a.width + b.width
  | .and, [a, b] | .or, [a, b] | .xor, [a, b] | .mux, [_, a, b] => a.jointWidth b
  | .shl, [a, b] => a.width + (2 ^ b.amountBits - 1)
  | .shr, [a, b] => if b.signed ∧ 0 < b.width then a.width + 2 ^ (b.width - 1) else a.width
  | .bool, [_] => 1
  | .eq, [_, _] | .ne, [_, _] | .lt, [_, _] | .le, [_, _] | .gt, [_, _] | .ge, [_, _] => 1
  | _, _ => 0

/-- How much narrower the result is: one bit for a shift up of no bits by an amount that can be as
large as the limit, and nothing else. -/
def shortfall : Op → List Shape → Nat
  | .shl, [a, b] => if a.width = 0 ∧ widthLimit < 2 ^ b.amountBits then 1 else 0
  | _, _ => 0

end Op

/-! ## Holding at the limit -/

theorem clampWidth_clampWidth_add (m n : Nat) :
    clampWidth (clampWidth m + n) = clampWidth (m + n) := by
  unfold clampWidth
  omega

/-- Only a power below the limit is kept, and there is none just at it. -/
theorem Op.cappedPow_eq_clampWidth (e : Nat) : Op.cappedPow e = clampWidth (2 ^ e) := by
  have hlimit : widthLimit = 2 ^ 32 - 1 := by decide
  unfold Op.cappedPow clampWidth
  split
  · rename_i he
    have hpow : 2 ^ e ≤ 2 ^ 31 := Nat.pow_le_pow_right Nat.two_pos (Nat.le_of_lt_succ he)
    rw [Nat.one_shiftLeft]
    omega
  · rename_i he
    have hpow : 2 ^ 32 ≤ 2 ^ e := Nat.pow_le_pow_right Nat.two_pos (Nat.le_of_not_lt he)
    omega

section

variable {o : Op} {a b : Shape}

theorem Shape.unify_width (ha : a.width ≤ widthLimit) (hb : b.width ≤ widthLimit) :
    (a.unify b).width = clampWidth (a.jointWidth b) := by
  unfold Shape.unify Shape.jointWidth Shape.widthBeside clampWidth
  cases a.signed <;> cases b.signed <;> simp [Shape.ofSigned] <;> omega

/-- Taking one off the held power loses one exactly where the power was held and nothing is added. -/
theorem Op.clampWidth_shl :
    clampWidth (Op.shl.freeWidth [a, b]) =
      (Op.shl.resultShape [a, b]).width + Op.shl.shortfall [a, b] := by
  have hgrowth : Op.shlGrowth b = clampWidth (2 ^ b.amountBits) - 1 := by
    rw [← Op.cappedPow_eq_clampWidth]
    rfl
  have hwidth : (Op.shl.resultShape [a, b]).width = clampWidth (a.width + Op.shlGrowth b) := rfl
  have hpos : 0 < 2 ^ b.amountBits := Nat.two_pow_pos _
  have hlimit : 0 < widthLimit := by decide
  rw [hwidth, hgrowth, Op.freeWidth, Op.shortfall]
  unfold clampWidth
  -- a held power is the limit, and one off it is made up for by any bit that is moved
  split <;> omega

theorem Op.clampWidth_shr :
    clampWidth (Op.shr.freeWidth [a, b]) = (Op.shr.resultShape [a, b]).width := by
  have hwidth : (Op.shr.resultShape [a, b]).width = clampWidth (a.width + Op.shrGrowth b) := rfl
  rw [hwidth, Op.freeWidth, Op.shrGrowth, Op.cappedPow_eq_clampWidth]
  by_cases hgrows : b.signed ∧ 0 < b.width
  · rw [if_pos hgrows, if_pos (by simpa using hgrows), Nat.add_comm a.width,
      Nat.add_comm a.width, clampWidth_clampWidth_add]
  · rw [if_neg hgrows, if_neg (by simpa using hgrows), Nat.add_zero]

theorem Op.clampWidth_unary (harity : o.arity = 1) (ha : a.width ≤ widthLimit) :
    clampWidth (o.freeWidth [a]) = (o.resultShape [a]).width + o.shortfall [a] := by
  cases o with
  | not => exact Nat.min_eq_left ha
  | neg => rfl
  | bool => rfl
  | _ => cases harity

theorem Op.clampWidth_binary (harity : o.arity = 2) (ha : a.width ≤ widthLimit)
    (hb : b.width ≤ widthLimit) :
    clampWidth (o.freeWidth [a, b]) = (o.resultShape [a, b]).width + o.shortfall [a, b] := by
  have hjoint := Shape.unify_width ha hb
  cases o with
  | add | sub =>
    change clampWidth (a.jointWidth b + 1) = clampWidth ((a.unify b).width + 1)
    rw [hjoint, clampWidth_clampWidth_add]
  | and | or | xor => exact hjoint.symm
  | mul => rfl
  | mod => exact Nat.min_eq_left ha
  | shl => exact Op.clampWidth_shl
  | shr => exact Op.clampWidth_shr
  | eq | ne | lt | le | gt | ge => rfl
  | _ => cases harity

end

/-- The width of a result is the one without a limit, held at the limit once, for every operator on
as many shapes as it takes. Only a shift up of no bits by an amount that can be as large as the limit
is one bit narrower. -/
theorem Op.resultShape_saturates (o : Op) (shapes : List Shape) (operands : shapes.length = o.arity)
    (widths : ∀ s ∈ shapes, s.width ≤ widthLimit) :
    clampWidth (o.freeWidth shapes) = (o.resultShape shapes).width + o.shortfall shapes := by
  match shapes with
  | [] => cases o <;> cases operands
  | [a] =>
    exact Op.clampWidth_unary operands.symm (widths a (by simp))
  | [a, b] =>
    exact Op.clampWidth_binary operands.symm (widths a (by simp)) (widths b (by simp))
  | [c, a, b] =>
    cases o with
    | mux => exact (Shape.unify_width (widths a (by simp)) (widths b (by simp))).symm
    | _ => cases operands
  | _ :: _ :: _ :: _ :: _ => cases o <;> cases operands

/-- A single bit hides that the held power is one too small. -/
theorem Op.resultShape_saturates_shift :
    (Op.shl.resultShape [.ofUnsigned 1, .ofSigned 40]).width = 4294967295 ∧
      Op.shl.freeWidth [.ofUnsigned 1, .ofSigned 40] = 549755813888 := by
  have hfree : Op.shl.freeWidth [.ofUnsigned 1, .ofSigned 40] = 549755813888 := by decide
  have hfull : Op.shl.shortfall [.ofUnsigned 1, .ofSigned 40] = 0 := by decide
  have hexact := Op.resultShape_saturates .shl [.ofUnsigned 1, .ofSigned 40] rfl (by decide)
  rw [hfree, hfull, Nat.add_zero] at hexact
  exact ⟨hexact.symm.trans (by decide), hfree⟩

/-- No bits moved up by a number of 32 bits end one bit below the limit, where the rule without a
limit gives the limit itself. -/
theorem Op.resultShape_misses_limit :
    (Op.shl.resultShape [.ofUnsigned 0, .ofUnsigned 32]).width = 4294967294 ∧
      clampWidth (Op.shl.freeWidth [.ofUnsigned 0, .ofUnsigned 32]) = 4294967295 := by
  decide

end Gateware
