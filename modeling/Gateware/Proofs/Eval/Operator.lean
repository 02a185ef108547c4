import Gateware.Proofs.Eval.Range
import Gateware.Proofs.Walk

/-! # Operators compute exact results

The shape of an operator's result holds every number that the operator can make from numbers of its
operands' shapes. Nothing is lost when the result is cut to its width, except for a difference and a
complement without a sign, which are meant to wrap.
-/
namespace Gateware

/-! ## The specification -/

/-- A number times a power of two, rounded down if the power is a fraction. -/
def scaled (x n : Int) : Int := if 0 ≤ n then x * 2 ^ n.toNat else x.fdiv (2 ^ (-n).toNat)

/-- The result of an operator on operands of these shapes and numbers, as integers with the digits
of infinite two's complement. Remainders are not covered. -/
def Op.exact : Op → List Shape → List Int → Int
  | .not, [a], [x] =>
    -- no bits have no complement but themselves
    if a.signed then if a.width = 0 then 0 else -1 - x else 2 ^ a.width - 1 - x
  | .neg, _, [x] => -x
  | .bool, _, [x] => if x = 0 then 0 else 1
  | .add, _, [x, y] => x + y
  | .sub, [a, b], [x, y] =>
    if a.signed || b.signed then x - y else (x - y) % 2 ^ (Op.sub.resultShape [a, b]).width
  | .mul, _, [x, y] => x * y
  | .shl, _, [x, n] => scaled x n
  | .shr, _, [x, n] => scaled x (-n)
  | .and, _, [x, y] => x.land y
  | .or, _, [x, y] => x.lor y
  | .xor, _, [x, y] => x.xor y
  | .eq, _, [x, y] => if x = y then 1 else 0
  | .ne, _, [x, y] => if x ≠ y then 1 else 0
  | .lt, _, [x, y] => if x < y then 1 else 0
  | .le, _, [x, y] => if x ≤ y then 1 else 0
  | .gt, _, [x, y] => if x > y then 1 else 0
  | .ge, _, [x, y] => if x ≥ y then 1 else 0
  | .mux, _, [c, x, y] => if c = 0 then y else x
  | _, _, _ => 0

/-! ## Unified shapes -/

namespace Shape

variable {a b s t : Shape} {x y : Int}

theorem unify_comm (a b : Shape) : a.unify b = b.unify a := by
  unfold unify
  cases a.signed <;> cases b.signed <;> simp [Nat.max_comm]

theorem unify_signed (a b : Shape) : (a.unify b).signed = (a.signed || b.signed) := by
  unfold unify
  cases a.signed <;> cases b.signed <;> rfl

theorem Holds.unify_left (h : a.Holds x) (hw : (a.unify b).width ≤ evalLimit) :
    (a.unify b).Holds x := by
  cases ha : a.signed with
  | true =>
    refine h.widen (by simp [unify_signed, ha]) ?_
    cases hb : b.signed <;> simp [unify, ha, hb, ofSigned]
  | false =>
    cases hb : b.signed with
    | false => exact h.widen (by simp [unify_signed, ha, hb]) (by simp [unify, ha, hb])
    | true =>
      have hwidth : (a.unify b).width = max (clampWidth (a.width + 1)) b.width := by
        simp [unify, ha, hb, ofSigned]
      have hclamp : clampWidth (a.width + 1) = a.width + 1 := clampWidth_eq (by omega)
      exact h.addSign ha (by simp [unify_signed, hb]) (by omega)

theorem Holds.unify_right (h : b.Holds y) (hw : (a.unify b).width ≤ evalLimit) :
    (a.unify b).Holds y := by
  rw [unify_comm] at hw ⊢
  exact h.unify_left hw

/-! ## Sums, products and digits -/

theorem Holds.add (hx : s.Holds x) (hy : s.Holds y) (hsigned : t.signed = s.signed)
    (hwidth : t.width = s.width + 1) : t.Holds (x + y) := by
  have hpow : (2 : Int) ^ t.width = 2 ^ s.width * 2 := by rw [hwidth, pow_succ]
  cases hs : s.signed with
  | false =>
    rw [hs] at hsigned
    rw [holds_unsigned hs] at hx hy
    rw [holds_unsigned hsigned]
    omega
  | true =>
    rw [hs] at hsigned
    rw [holds_signed hs] at hx hy
    rw [holds_signed hsigned]
    omega

theorem Holds.sub (hx : s.Holds x) (hy : s.Holds y) (hs : s.signed = true) (ht : t.signed = true)
    (hwidth : t.width = s.width + 1) : t.Holds (x - y) := by
  have hpow : (2 : Int) ^ t.width = 2 ^ s.width * 2 := by rw [hwidth, pow_succ]
  rw [holds_signed hs] at hx hy
  rw [holds_signed ht]
  omega

theorem Holds.neg (hx : s.Holds x) (ht : t.signed = true) (hwidth : t.width = s.width + 1) :
    t.Holds (-x) := by
  have hpos : (0 : Int) < 2 ^ s.width := by positivity
  have hpow : (2 : Int) ^ t.width = 2 ^ s.width * 2 := by rw [hwidth, pow_succ]
  rw [holds_signed ht]
  cases hs : s.signed with
  | false =>
    rw [holds_unsigned hs] at hx
    omega
  | true =>
    rw [holds_signed hs] at hx
    omega

/-- A product by a factor without a sign. -/
theorem Holds.mul_unsigned (hx : a.Holds x) (hy : b.Holds y) (hb : b.signed = false)
    (hsigned : t.signed = a.signed) (hwidth : t.width = a.width + b.width) : t.Holds (x * y) := by
  have hpow : (2 : Int) ^ t.width = 2 ^ a.width * 2 ^ b.width := by rw [hwidth, pow_add]
  rw [holds_unsigned hb] at hy
  cases ha : a.signed with
  | false =>
    rw [ha] at hsigned
    rw [holds_unsigned ha] at hx
    rw [holds_unsigned hsigned, hpow]
    exact ⟨mul_nonneg hx.1 hy.1, mul_lt_mul'' hx.2 hy.2 hx.1 hy.1⟩
  | true =>
    rw [ha] at hsigned
    rw [holds_signed ha] at hx
    rw [holds_signed hsigned, hpow]
    have hpos : (0 : Int) < 2 ^ a.width := by positivity
    constructor
    · nlinarith
    · nlinarith

theorem Holds.mul_signed (hx : a.Holds x) (hy : b.Holds y) (ha : a.signed = true)
    (hb : b.signed = true) (ht : t.signed = true) (hwidth : t.width = a.width + b.width) :
    t.Holds (x * y) := by
  have hpow : (2 : Int) ^ t.width = 2 ^ a.width * 2 ^ b.width := by rw [hwidth, pow_add]
  rw [holds_signed ha] at hx
  rw [holds_signed hb] at hy
  rw [holds_signed ht, hpow]
  have hapos : (0 : Int) < 2 ^ a.width := by positivity
  have hbpos : (0 : Int) < 2 ^ b.width := by positivity
  have hax : |x * 2| ≤ 2 ^ a.width := abs_le.mpr ⟨hx.1, hx.2.le⟩
  have hby : |y * 2| ≤ 2 ^ b.width := abs_le.mpr ⟨hy.1, hy.2.le⟩
  have hprod : |x * 2| * |y * 2| ≤ 2 ^ a.width * 2 ^ b.width :=
    mul_le_mul hax hby (abs_nonneg _) hapos.le
  rw [← abs_mul] at hprod
  have hbounds := abs_le.mp hprod
  have hboth : (0 : Int) < 2 ^ a.width * 2 ^ b.width := mul_pos hapos hbpos
  have hdouble : x * 2 * (y * 2) = x * y * 2 * 2 := by ring
  omega

theorem Holds.mul (hx : a.Holds x) (hy : b.Holds y) (hsigned : t.signed = (a.signed || b.signed))
    (hwidth : t.width = a.width + b.width) : t.Holds (x * y) := by
  cases hb : b.signed with
  | false => exact hx.mul_unsigned hy hb (by simp [hsigned, hb]) hwidth
  | true =>
    cases ha : a.signed with
    | false =>
      rw [mul_comm]
      exact hy.mul_unsigned hx ha (by simp [hsigned, hb]) (by omega)
    | true => exact hx.mul_signed hy ha hb (by simp [hsigned, hb]) hwidth

end Shape

/-- The digits of a number below those that repeat its sign, those of a negative one inverted. -/
def digits : Int → Nat
  | .ofNat m => m
  | .negSucc m => m

theorem digits_lt_iff {n : Int} {k : Nat} :
    digits n < 2 ^ k ↔ -2 ^ (k + 1) ≤ n * 2 ∧ n * 2 < 2 ^ (k + 1) := by
  have hpow : (2 : Int) ^ (k + 1) = 2 ^ k * 2 := pow_succ _ _
  have hcast : ((2 ^ k : Nat) : Int) = 2 ^ k := by push_cast; rfl
  cases n with
  | ofNat m =>
    simp only [digits, Int.ofNat_eq_natCast]
    omega
  | negSucc m =>
    simp only [digits, Int.negSucc_eq]
    omega

/-- An operator on digits stays in a shape if it makes no new digits, and no sign from none. -/
theorem Shape.Holds.bitwise {f : Int → Int → Int}
    (hdigits : ∀ k x y, digits x < 2 ^ k → digits y < 2 ^ k → digits (f x y) < 2 ^ k)
    (hsign : ∀ m n : Nat, 0 ≤ f m n) {s : Shape} {x y : Int} (hx : s.Holds x) (hy : s.Holds y) :
    s.Holds (f x y) := by
  cases hs : s.signed with
  | false =>
    rw [Shape.holds_unsigned hs] at hx hy ⊢
    lift x to Nat using hx.1
    lift y to Nat using hy.1
    have hnonneg := hsign x y
    have hlt := hdigits s.width x y (by exact_mod_cast hx.2) (by exact_mod_cast hy.2)
    lift f x y to Nat using hnonneg with z
    exact ⟨Int.natCast_nonneg z, by exact_mod_cast hlt⟩
  | true =>
    rw [Shape.holds_signed hs] at hx hy ⊢
    cases hw : s.width with
    | zero =>
      rw [hw] at hx hy
      obtain rfl : x = 0 := by omega
      obtain rfl : y = 0 := by omega
      have hnonneg := hsign 0 0
      have hlt := hdigits 0 0 0 (by decide) (by decide)
      lift f 0 0 to Nat using hnonneg with z
      change z < 1 at hlt
      omega
    | succ k =>
      rw [hw] at hx hy
      exact digits_lt_iff.mp
        (hdigits k x y (digits_lt_iff.mpr hx) (digits_lt_iff.mpr hy))

theorem without_eq (m n : Nat) : without m n = Nat.ldiff m n := by
  apply Nat.eq_of_testBit_eq
  intro i
  rw [without, Nat.testBit_xor, Nat.testBit_and, Nat.testBit_ldiff]
  cases m.testBit i <;> cases n.testBit i <;> rfl

theorem without_lt {m n k : Nat} (h : m < 2 ^ k) : without m n < 2 ^ k :=
  Nat.xor_lt_two_pow h (Nat.and_le_left.trans_lt h)

theorem bitAnd_eq (x y : Int) : bitAnd x y = x.land y := by
  cases x <;> cases y <;> simp [bitAnd, Int.land, without_eq]

theorem bitOr_eq (x y : Int) : bitOr x y = x.lor y := by
  cases x <;> cases y <;> simp [bitOr, Int.lor, without_eq]

theorem bitXor_eq (x y : Int) : bitXor x y = x.xor y := by
  cases x <;> cases y <;> rfl

theorem Shape.Holds.and {s : Shape} {x y : Int} (hx : s.Holds x) (hy : s.Holds y) :
    s.Holds (bitAnd x y) := by
  refine hx.bitwise (fun k x y hx hy => ?_) (fun m n => Int.natCast_nonneg (m &&& n)) hy
  cases x <;> cases y
  · exact Nat.and_lt_two_pow _ hy
  · exact without_lt hx
  · exact without_lt hy
  · exact Nat.or_lt_two_pow hx hy

theorem Shape.Holds.or {s : Shape} {x y : Int} (hx : s.Holds x) (hy : s.Holds y) :
    s.Holds (bitOr x y) := by
  refine hx.bitwise (fun k x y hx hy => ?_) (fun m n => Int.natCast_nonneg (m ||| n)) hy
  cases x <;> cases y
  · exact Nat.or_lt_two_pow hx hy
  · exact without_lt hy
  · exact without_lt hx
  · exact Nat.and_lt_two_pow _ hy

theorem Shape.Holds.xor {s : Shape} {x y : Int} (hx : s.Holds x) (hy : s.Holds y) :
    s.Holds (bitXor x y) := by
  refine hx.bitwise (fun k x y hx hy => ?_) (fun m n => Int.natCast_nonneg (m ^^^ n)) hy
  cases x <;> cases y <;> exact Nat.xor_lt_two_pow hx hy

/-! ## Shifts -/

theorem shiftUp_eq (x : Int) {k : Nat} (h : k < wordBits) : shiftUp x k = x * 2 ^ k := by
  rw [shiftUp, if_pos h, Nat.one_shiftLeft]
  push_cast
  rfl

theorem shiftDown_eq {x : Int} (h : -2 ^ wordBits ≤ x ∧ x < 2 ^ wordBits) (k : Nat) :
    shiftDown x k = x.fdiv (2 ^ k) := by
  have hpos : (0 : Int) < 2 ^ k := by positivity
  rw [Int.fdiv_eq_ediv_of_nonneg x hpos.le, shiftDown]
  split
  · rw [Nat.one_shiftLeft]
    push_cast
    rfl
  · rename_i hk
    -- past a word only the sign is left
    have hle : (2 : Int) ^ wordBits ≤ 2 ^ k := pow_le_pow_right₀ (by norm_num) (Nat.le_of_not_lt hk)
    split
    · rename_i hneg
      symm
      rw [Int.ediv_eq_iff_of_pos hpos]
      constructor <;> linarith
    · rename_i hneg
      rw [Int.ediv_eq_zero_of_lt (by omega) (by omega)]

theorem Shape.Holds.word {s : Shape} {x : Int} (h : s.Holds x) (hw : s.width ≤ evalLimit) :
    -2 ^ wordBits ≤ x ∧ x < 2 ^ wordBits := by
  have hpow : (2 : Int) ^ s.width ≤ 2 ^ wordBits :=
    pow_le_pow_right₀ (by norm_num) (hw.trans (by decide))
  have hpos : (0 : Int) < 2 ^ s.width := by positivity
  cases hs : s.signed with
  | false =>
    rw [holds_unsigned hs] at h
    omega
  | true =>
    rw [holds_signed hs] at h
    omega

theorem shift_eq {s : Shape} {x n : Int} (hx : s.Holds x) (hw : s.width ≤ evalLimit)
    (hn : n < wordBits) : shift x n = scaled x n := by
  unfold shift scaled
  split
  · rw [shiftUp_eq x (by omega)]
  · rw [shiftDown_eq (hx.word hw)]

theorem Shape.Holds.scaled {s t : Shape} {x n : Int} {growth : Nat} (h : s.Holds x)
    (hn : n ≤ growth) (hsigned : t.signed = s.signed) (hwidth : t.width = s.width + growth) :
    t.Holds (scaled x n) := by
  unfold Gateware.scaled
  split
  · have hle : (2 : Int) ^ n.toNat ≤ 2 ^ growth := pow_le_pow_right₀ (by norm_num) (by omega)
    have hpos : (0 : Int) < 2 ^ n.toNat := by positivity
    have hpow : (2 : Int) ^ t.width = 2 ^ s.width * 2 ^ growth := by rw [hwidth, pow_add]
    have hbound : (2 : Int) ^ s.width * 2 ^ n.toNat ≤ 2 ^ t.width := by
      rw [hpow]
      exact mul_le_mul_of_nonneg_left hle (by positivity)
    cases hs : s.signed with
    | false =>
      rw [hs] at hsigned
      rw [holds_unsigned hs] at h
      rw [holds_unsigned hsigned]
      exact ⟨mul_nonneg h.1 hpos.le, (mul_lt_mul_of_pos_right h.2 hpos).trans_le hbound⟩
    | true =>
      rw [hs] at hsigned
      rw [holds_signed hs] at h
      rw [holds_signed hsigned]
      constructor
      · nlinarith
      · nlinarith
  · have hbetween : s.Holds (x.fdiv (2 ^ (-n).toNat)) := by
      have hpos : (0 : Int) < 2 ^ (-n).toNat := by positivity
      rw [Int.fdiv_eq_ediv_of_nonneg x hpos.le]
      apply h.of_between
      · rw [Int.le_ediv_iff_mul_le hpos]
        rcases le_total 0 x with hx | hx
        · simp [hx]
        · rw [min_eq_right hx]
          nlinarith
      · rcases le_total 0 x with hx | hx
        · rw [max_eq_right hx]
          exact Int.ediv_le_self _ hx
        · rw [max_eq_left hx]
          exact Int.ediv_nonpos_of_nonpos_of_neg hx hpos
    exact hbetween.widen hsigned (by omega)

theorem cappedPow_eq {e : Nat} (h : Op.cappedPow e ≤ evalLimit + 1) : Op.cappedPow e = 2 ^ e := by
  have hlimit : evalLimit + 1 < widthLimit := by decide
  unfold Op.cappedPow at h ⊢
  split
  · exact Nat.one_shiftLeft e
  · rename_i he
    rw [if_neg he] at h
    omega

/-- No amount moves up further than the shape grows. -/
theorem le_shlGrowth {amount : Shape} {n : Int} (h : amount.Holds n)
    (hgrowth : Op.shlGrowth amount ≤ evalLimit) : n ≤ Op.shlGrowth amount := by
  unfold Op.shlGrowth at hgrowth ⊢
  have hcapped := cappedPow_eq (Nat.sub_le_iff_le_add.mp hgrowth)
  rw [hcapped]
  have hone : 1 ≤ 2 ^ (if amount.signed then amount.width - 1 else amount.width) := Nat.one_le_two_pow
  push_cast [hone]
  cases hs : amount.signed with
  | false =>
    rw [Shape.holds_unsigned hs] at h
    simp only [Bool.false_eq_true, if_false]
    omega
  | true =>
    rw [Shape.holds_signed hs] at h
    simp only [if_true]
    cases hw : amount.width with
    | zero =>
      rw [hw] at h
      simp only [Nat.zero_sub]
      omega
    | succ k =>
      rw [hw, pow_succ] at h
      simp only [Nat.add_sub_cancel]
      omega

theorem neg_le_shrGrowth {amount : Shape} {n : Int} (h : amount.Holds n)
    (hgrowth : Op.shrGrowth amount ≤ evalLimit) : -n ≤ Op.shrGrowth amount := by
  unfold Op.shrGrowth at hgrowth ⊢
  cases hs : amount.signed with
  | false =>
    rw [Shape.holds_unsigned hs] at h
    simp only [Bool.false_and, Bool.false_eq_true, if_false]
    omega
  | true =>
    rw [Shape.holds_signed hs] at h
    cases hw : amount.width with
    | zero =>
      rw [hw] at h
      simp only [Nat.lt_irrefl, decide_false, Bool.and_false, Bool.false_eq_true, if_false]
      omega
    | succ k =>
      rw [hw, pow_succ] at h
      simp only [hs, hw, Nat.zero_lt_succ, decide_true, Bool.and_true, if_true,
        Nat.add_sub_cancel] at hgrowth ⊢
      rw [cappedPow_eq (hgrowth.trans (Nat.le_succ _))]
      push_cast
      omega

/-! ## One operator -/

theorem holds_truth (b : Bool) : (Shape.ofUnsigned 1).Holds (truth b) := by
  cases b <;> simp [Shape.Holds, Shape.ofUnsigned, truth]

section

variable {o : Op} {a b c : Shape} {x y z : Int}

theorem Op.wrapped_unary (harity : o.arity = 1) (hx : a.Holds x)
    (hw : (o.resultShape [a]).width ≤ evalLimit) :
    ∃ n, o.compute [x] = some n ∧ (o.resultShape [a]).wrapped n = o.exact [a] [x] := by
  cases o with
  | not =>
    refine ⟨complement x, rfl, ?_⟩
    have hwidth : a.width ≤ evalLimit := hw
    change a.wrapped (complement x) = _
    unfold complement
    cases hs : a.signed with
    | false =>
      rw [Shape.holds_unsigned hs] at hx
      have hmod : (-1 - x) % 2 ^ a.width = 2 ^ a.width - 1 - x := by
        rw [← Int.add_emod_right, Int.emod_eq_of_lt (by omega) (by omega)]
        ring
      simp [Op.exact, hs, Shape.wrapped_unsigned hs hwidth, hmod]
    | true =>
      rw [Shape.holds_signed hs] at hx
      by_cases h0 : a.width = 0
      · rw [Shape.wrapped_signed hs (hwidth.trans (by decide))]
        simp [Op.exact, hs, h0]
      · have hholds : a.Holds (-1 - x) := by
          obtain ⟨k, hk⟩ := Nat.exists_eq_succ_of_ne_zero h0
          rw [hk, pow_succ] at hx
          rw [Shape.holds_signed hs, hk, pow_succ]
          omega
        simp [Op.exact, hs, h0, hholds.wrapped_eq hwidth]
  | neg =>
    have hholds : (Op.neg.resultShape [a]).Holds (-x) := hx.neg rfl (clampWidth_eq hw)
    exact ⟨-x, rfl, hholds.wrapped_eq hw⟩
  | bool =>
    refine ⟨truth (x != 0), rfl, ((holds_truth _).wrapped_eq hw).trans ?_⟩
    by_cases h : x = 0 <;> simp [truth, Op.exact, h]
  | _ => cases harity

theorem Op.wrapped_add (hx : a.Holds x) (hy : b.Holds y)
    (hw : (Op.add.resultShape [a, b]).width ≤ evalLimit) :
    (Op.add.resultShape [a, b]).wrapped (x + y) = x + y := by
  have hwidth : (Op.add.resultShape [a, b]).width = (a.unify b).width + 1 := clampWidth_eq hw
  have hunify : (a.unify b).width ≤ evalLimit := by omega
  have hholds : (Op.add.resultShape [a, b]).Holds (x + y) :=
    (hx.unify_left hunify).add (hy.unify_right hunify) rfl hwidth
  exact hholds.wrapped_eq hw

theorem Op.wrapped_sub (hx : a.Holds x) (hy : b.Holds y)
    (hw : (Op.sub.resultShape [a, b]).width ≤ evalLimit) :
    (Op.sub.resultShape [a, b]).wrapped (x - y) = Op.sub.exact [a, b] [x, y] := by
  have hsigned : (Op.sub.resultShape [a, b]).signed = (a.signed || b.signed) :=
    Shape.unify_signed a b
  cases hs : a.signed || b.signed with
  | false =>
    rw [hs] at hsigned
    simp [Op.exact, hs, Shape.wrapped_unsigned hsigned hw]
  | true =>
    rw [hs] at hsigned
    have hwidth : (Op.sub.resultShape [a, b]).width = (a.unify b).width + 1 := clampWidth_eq hw
    have hunify : (a.unify b).width ≤ evalLimit := by omega
    have hholds := (hx.unify_left hunify).sub (hy.unify_right hunify)
      ((Shape.unify_signed a b).trans hs) hsigned hwidth
    simp [Op.exact, hs, hholds.wrapped_eq hw]

/-- A shift is exact in a shape that grows by as many bits as it moves up. -/
theorem Shape.Holds.wrapped_shift {t : Shape} {n : Int} {growth : Nat} (hx : a.Holds x)
    (hn : n ≤ growth) (hsigned : t.signed = a.signed) (hwidth : t.width = a.width + growth)
    (hw : t.width ≤ evalLimit) : t.wrapped (shift x n) = Gateware.scaled x n := by
  have hlimit : evalLimit < wordBits := by decide
  rw [shift_eq hx (by omega) (by omega)]
  exact (hx.scaled hn hsigned hwidth).wrapped_eq hw

theorem Op.wrapped_shl (hx : a.Holds x) (hy : b.Holds y)
    (hw : (Op.shl.resultShape [a, b]).width ≤ evalLimit) :
    (Op.shl.resultShape [a, b]).wrapped (shift x y) = scaled x y := by
  have hwidth : (Op.shl.resultShape [a, b]).width = a.width + Op.shlGrowth b := clampWidth_eq hw
  have hgrowth : y ≤ Op.shlGrowth b := le_shlGrowth hy (by omega)
  exact hx.wrapped_shift hgrowth rfl hwidth hw

theorem Op.wrapped_shr (hx : a.Holds x) (hy : b.Holds y)
    (hw : (Op.shr.resultShape [a, b]).width ≤ evalLimit) :
    (Op.shr.resultShape [a, b]).wrapped (shift x (-y)) = scaled x (-y) := by
  have hwidth : (Op.shr.resultShape [a, b]).width = a.width + Op.shrGrowth b := clampWidth_eq hw
  have hgrowth : -y ≤ Op.shrGrowth b := neg_le_shrGrowth hy (by omega)
  exact hx.wrapped_shift hgrowth rfl hwidth hw

theorem Op.wrapped_mul (hx : a.Holds x) (hy : b.Holds y)
    (hw : (Op.mul.resultShape [a, b]).width ≤ evalLimit) :
    (Op.mul.resultShape [a, b]).wrapped (x * y) = x * y := by
  have hholds : (Op.mul.resultShape [a, b]).Holds (x * y) := hx.mul hy rfl (clampWidth_eq hw)
  exact hholds.wrapped_eq hw

theorem Op.wrapped_binary (harity : o.arity = 2) (hmod : o ≠ .mod) (hx : a.Holds x) (hy : b.Holds y)
    (hw : (o.resultShape [a, b]).width ≤ evalLimit) :
    ∃ n, o.compute [x, y] = some n ∧
      (o.resultShape [a, b]).wrapped n = o.exact [a, b] [x, y] := by
  -- one bit of truth for a relation that the specification decides
  have hcompare : ∀ {p : Bool} {r : Int}, truth p = r →
      (Shape.ofUnsigned 1).wrapped (truth p) = r := by
    rintro p _ rfl
    exact (holds_truth p).wrapped_eq (by decide)
  cases o with
  | add => exact ⟨_, rfl, Op.wrapped_add hx hy hw⟩
  | sub => exact ⟨_, rfl, Op.wrapped_sub hx hy hw⟩
  | mul => exact ⟨_, rfl, Op.wrapped_mul hx hy hw⟩
  | mod => exact absurd rfl hmod
  | shl => exact ⟨_, rfl, Op.wrapped_shl hx hy hw⟩
  | shr => exact ⟨_, rfl, Op.wrapped_shr hx hy hw⟩
  | and =>
    refine ⟨_, rfl, ?_⟩
    exact (((hx.unify_left hw).and (hy.unify_right hw)).wrapped_eq hw).trans (bitAnd_eq x y)
  | or =>
    refine ⟨_, rfl, ?_⟩
    exact (((hx.unify_left hw).or (hy.unify_right hw)).wrapped_eq hw).trans (bitOr_eq x y)
  | xor =>
    refine ⟨_, rfl, ?_⟩
    exact (((hx.unify_left hw).xor (hy.unify_right hw)).wrapped_eq hw).trans (bitXor_eq x y)
  | eq => exact ⟨_, rfl, hcompare (by simp [truth, Op.exact])⟩
  | ne => exact ⟨_, rfl, hcompare (by simp [truth, Op.exact])⟩
  | lt => exact ⟨_, rfl, hcompare (by simp [truth, Op.exact])⟩
  | le => exact ⟨_, rfl, hcompare (by simp [truth, Op.exact])⟩
  | gt => exact ⟨_, rfl, hcompare (by simp [truth, Op.exact])⟩
  | ge => exact ⟨_, rfl, hcompare (by simp [truth, Op.exact])⟩
  | _ => cases harity

theorem Op.wrapped_mux (hy : b.Holds y) (hz : c.Holds z)
    (hw : (Op.mux.resultShape [a, b, c]).width ≤ evalLimit) :
    (Op.mux.resultShape [a, b, c]).wrapped (if x = 0 then z else y) = if x = 0 then z else y := by
  split
  · exact (hz.unify_right hw).wrapped_eq hw
  · exact (hy.unify_left hw).wrapped_eq hw

end

/-- The result of an operator, cut to its shape, is the exact one. -/
theorem Op.wrapped_compute {o : Op} (hmod : o ≠ .mod) {shapes : List Shape} {xs : List Int}
    (hxs : List.Forall₂ Shape.Holds shapes xs) (harity : shapes.length = o.arity)
    (hw : (o.resultShape shapes).width ≤ evalLimit) :
    ∃ n, o.compute xs = some n ∧ (o.resultShape shapes).wrapped n = o.exact shapes xs := by
  cases hxs with
  | nil => cases o <;> cases harity
  | cons hx hxs =>
    cases hxs with
    | nil => exact Op.wrapped_unary harity.symm hx hw
    | cons hy hxs =>
      cases hxs with
      | nil => exact Op.wrapped_binary harity.symm hmod hx hy hw
      | cons hz hxs =>
        cases hxs with
        | nil =>
          obtain rfl : o = .mux := by cases o <;> first | rfl | cases harity
          exact ⟨_, rfl, Op.wrapped_mux hy hz hw⟩
        | cons _ _ => cases o <;> cases harity

/-! ## Whole values -/

theorem Value.shapes_eq_map (vs : List Value) : Value.shapes vs = vs.map Value.shape :=
  map_of_cons rfl (fun _ _ => rfl) vs

/-- An operator other than a remainder, on as many operands as it takes, has a number exactly if it
is within the limit and all its operands have numbers, and that is the exact result on them. -/
theorem Value.number_op_exact {o : Op} {operands : List Value}
    (harity : operands.length = o.arity) (hmod : o ≠ .mod) (st : State) (r : Int) :
    (Value.op o operands).number st = .ok r ↔
      (Value.op o operands).width ≤ evalLimit ∧
        ∃ xs, List.Forall₂ (fun v x => v.number st = .ok x) operands xs ∧
          r = o.exact (operands.map Value.shape) xs := by
  have hshape : (Value.op o operands).shape = o.resultShape (operands.map Value.shape) := by
    rw [Value.shape, Value.shapes_eq_map]
  rw [Value.number_op_eq_ok]
  simp only [Value.evalAll_eq_ok]
  refine and_congr_right fun hw => exists_congr fun xs => and_congr_right fun hxs => ?_
  have hholds : List.Forall₂ Shape.Holds (operands.map Value.shape) xs := by
    rw [List.forall₂_map_left_iff]
    exact hxs.imp fun v x hx => (Value.number_holds hx).2
  rw [Value.width, hshape] at hw
  obtain ⟨n, hn, hexact⟩ := Op.wrapped_compute hmod hholds (by simpa using harity) hw
  rw [hshape, hn, ← hexact]
  constructor
  · rintro ⟨_, ⟨⟩, rfl⟩
    rfl
  · rintro rfl
    exact ⟨n, rfl, rfl⟩

/-- A difference of a signed and an unsigned signal, shifted by a signed amount. -/
def shiftedDifference : List Value :=
  [.op .sub [.signal { id := 0, shape := .ofSigned 4 }, .signal (.named 1 "u" 4)],
    .signal { id := 2, shape := .ofSigned 2 }]

/-- The least and the greatest number for the difference, and a shift by two bits down. -/
def shiftedState : State :=
  ((State.empty.set { id := 0, shape := .ofSigned 4 } (-8)).set (.named 1 "u" 4) 15).set
    { id := 2, shape := .ofSigned 2 } (-2)

theorem Value.number_op_exact_shifted :
    shiftedDifference.length = Op.shl.arity ∧ Op.shl ≠ .mod ∧
      (Value.op .shl shiftedDifference).number shiftedState = .ok (-6) := by
  have hdifference : (Value.op .sub [.signal { id := 0, shape := .ofSigned 4 },
      .signal (.named 1 "u" 4)]).number shiftedState = .ok (-23) := by
    refine (Value.number_op_exact ?_ ?_ _ _).mpr ⟨?_, [-8, 15], ?_, ?_⟩
    · rfl
    · decide
    · decide
    · exact .cons rfl (.cons rfl .nil)
    · decide
  have harity : shiftedDifference.length = Op.shl.arity := rfl
  have hmod : Op.shl ≠ .mod := by decide
  refine ⟨harity, hmod, (Value.number_op_exact harity hmod _ _).mpr ⟨?_, [-23, -2], ?_, ?_⟩⟩
  · decide
  · exact .cons hdifference (.cons rfl .nil)
  · decide

end Gateware
