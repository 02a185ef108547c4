import Gateware.Proofs.Eval.Operator
import Gateware.Proofs.Eval.Remainder

/-! # The narrowest constants

A constant keeps a number if it can be made and has that number again when it is read. Over all
numbers of a word, the width counted for a number or a range is the least one that keeps it: a width
is large enough exactly if the shape of that width holds both ends of the range.
-/
namespace Gateware

namespace Bits

/-- A number that a whole word stands for. -/
def InWord (v : Int) : Prop := -2 ^ (wordBits - 1) ≤ v ∧ v < 2 ^ (wordBits - 1)
  deriving Decidable

theorem length_le_iff {n k : Nat} : length n ≤ k ↔ n < 2 ^ k := by
  unfold length
  split
  · rename_i hzero
    simp [hzero]
  · rename_i hne
    exact Nat.log2_lt hne

/-- With a sign, the digits and one bit more. -/
theorem needed_signed (v : Int) : needed v true = length (digits v) + 1 := by
  cases v with
  | ofNat n => cases n <;> rfl
  | negSucc n => rfl

theorem needed_pos (v : Int) (sign : Bool) : 0 < needed v sign := by
  cases v with
  | ofNat n =>
    cases n with
    | zero => exact Nat.one_pos
    | succ n =>
      have hlength : length (n + 1) ≠ 0 := by simp [length]
      exact Nat.add_pos_left (Nat.pos_of_ne_zero hlength) _
  | negSucc n => exact Nat.succ_pos _

end Bits

namespace Shape

variable {s : Shape} {low high v : Int} {w : Nat}

/-! ## Ranges -/

/-- The bits counted for a number fit a width exactly if the shape of that width holds it. -/
theorem needed_le_iff (hw : 0 < s.width) (hv : s.signed = true ∨ 0 ≤ v) :
    Bits.needed v s.signed ≤ s.width ↔ s.Holds v := by
  cases hs : s.signed with
  | false =>
    rw [hs] at hv
    lift v to Nat using hv.resolve_left (by decide)
    rw [holds_unsigned hs]
    constructor
    · intro h
      have hlt : v < 2 ^ s.width :=
        (Bits.lt_two_pow_needed v).trans_le (Nat.pow_le_pow_right Nat.two_pos h)
      exact_mod_cast And.intro (Nat.zero_le v) hlt
    · rintro ⟨-, h⟩
      exact Bits.needed_le hw (by exact_mod_cast h)
  | true =>
    obtain ⟨k, hk⟩ := Nat.exists_eq_succ_of_ne_zero hw.ne'
    rw [holds_signed hs, hk, Bits.needed_signed, Nat.succ_le_succ_iff, Bits.length_le_iff]
    exact digits_lt_iff

theorem forRange_sign : (forRange low high).signed = true ∨ 0 ≤ low ∧ 0 ≤ high := by
  simp only [forRange, Bool.or_eq_true, decide_eq_true_eq]
  omega

theorem forRange_signed_iff (h : low ≤ high) :
    (forRange low high).signed = true ↔ low < 0 := by
  simp only [forRange, Bool.or_eq_true, decide_eq_true_eq]
  omega

theorem forRange_width_pos : 0 < (forRange low high).width :=
  lt_max_of_lt_left (Bits.needed_pos _ _)

/-- A width is enough for a range exactly if the shape of that width holds both of its ends. -/
theorem forRange_width_le_iff (hw : 0 < w) :
    (forRange low high).width ≤ w ↔
      Holds ⟨w, (forRange low high).signed⟩ low ∧ Holds ⟨w, (forRange low high).signed⟩ high := by
  have hends : (forRange low high).width ≤ w ↔
      Bits.needed low (forRange low high).signed ≤ w ∧
        Bits.needed high (forRange low high).signed ≤ w := max_le_iff
  rw [hends]
  exact and_congr (needed_le_iff (s := ⟨w, _⟩) hw (forRange_sign.imp_right And.left))
    (needed_le_iff (s := ⟨w, _⟩) hw (forRange_sign.imp_right And.right))

theorem Holds.between (hlow : s.Holds low) (hhigh : s.Holds high) (h : low ≤ v ∧ v ≤ high) :
    s.Holds v := by
  cases hs : s.signed with
  | false =>
    rw [holds_unsigned hs] at hlow hhigh ⊢
    omega
  | true =>
    rw [holds_signed hs] at hlow hhigh ⊢
    omega

/-- The shape of a range holds all of it. -/
theorem forRange_holds (h : low ≤ v ∧ v ≤ high) : (forRange low high).Holds v := by
  obtain ⟨hlow, hhigh⟩ := (forRange_width_le_iff forRange_width_pos).mp le_rfl
  exact hlow.between hhigh h

/-! ## Words -/

/-- A word holds its numbers, those below zero only with a sign. -/
theorem holds_word (h : Bits.InWord v) {signed : Bool} (hv : signed = true ∨ 0 ≤ v) :
    Holds ⟨wordBits, signed⟩ v := by
  obtain ⟨hlow, hhigh⟩ := h
  have hpow : (2 : Int) ^ wordBits = 2 ^ (wordBits - 1) * 2 := by decide
  cases signed with
  | false =>
    have hnonneg : 0 ≤ v := hv.resolve_left (by decide)
    rw [holds_unsigned rfl, hpow]
    omega
  | true =>
    rw [holds_signed rfl, hpow]
    omega

theorem forRange_width_le_word (hlow : Bits.InWord low) (hhigh : Bits.InWord high) :
    (forRange low high).width ≤ wordBits := by
  rw [forRange_width_le_iff (by decide)]
  exact ⟨holds_word hlow (forRange_sign.imp_right And.left),
    holds_word hhigh (forRange_sign.imp_right And.right)⟩

/-- Up to a whole word, a shape reads a number of a word that it holds as it is. -/
theorem Holds.wrapped_word (h : s.Holds v) (hword : s.width ≤ wordBits) (hv : Bits.InWord v) :
    s.wrapped v = v := by
  cases hs : s.signed with
  | false =>
    rw [holds_unsigned hs] at h
    have hcut := Bits.truncate_ofInt hword v
    rw [Int.emod_eq_of_lt h.1 h.2] at hcut
    have hlt : Bits.truncate (Bits.ofInt v) s.width < 2 ^ evalLimit := by
      have hlimit : v < 2 ^ evalLimit := hv.2
      zify
      rwa [hcut]
    rw [wrapped, read, hs, if_neg (by decide), Bits.reading_of_lt hlt, hcut]
  | true => exact h.wrapped_eq_signed hs hword

/-! ## Constants -/

/-- A constant of this shape can be made from the number and has the number again. -/
def Keeps (s : Shape) (v : Int) : Prop := ∃ c, Const.checked v s = .ok c ∧ c.value = v

theorem keeps_iff (hword : s.width ≤ wordBits) : s.Keeps v ↔ s.wrapped v = v := by
  have hmade : Const.checked v s = .ok (.wrap v s) := if_neg (Nat.not_lt.mpr hword)
  constructor
  · rintro ⟨c, hc, hvalue⟩
    obtain rfl := Except.ok.inj (hmade.symm.trans hc)
    exact hvalue
  · intro h
    exact ⟨_, hmade, h⟩

/-- No width below that of a range keeps both of its ends. -/
theorem forRange_width_le_of_keeps (hlow : Bits.InWord low) (hhigh : Bits.InWord high) (hw : 0 < w)
    (hlows : Keeps ⟨w, (forRange low high).signed⟩ low)
    (hhighs : Keeps ⟨w, (forRange low high).signed⟩ high) : (forRange low high).width ≤ w := by
  by_contra hless
  have hlimit : w ≤ evalLimit :=
    Nat.le_of_lt_succ ((Nat.lt_of_not_le hless).trans_le (forRange_width_le_word hlow hhigh))
  have hword : w ≤ wordBits := hlimit.trans (by decide)
  apply hless
  rw [forRange_width_le_iff hw]
  exact ⟨(wrapped_eq_self_iff hlimit).mp ((keeps_iff hword).mp hlows),
    (wrapped_eq_self_iff hlimit).mp ((keeps_iff hword).mp hhighs)⟩

theorem forRange_keeps (hlow : Bits.InWord low) (hhigh : Bits.InWord high)
    (h : low ≤ v ∧ v ≤ high) : (forRange low high).Keeps v := by
  have hword := forRange_width_le_word hlow hhigh
  have hv : Bits.InWord v := ⟨hlow.1.trans h.1, h.2.trans_lt hhigh.2⟩
  exact (keeps_iff hword).mpr ((forRange_holds h).wrapped_word hword hv)

end Shape

/-- The constant of a number alone has the shape of the range that is only this number. -/
theorem Const.minimal_shape (v : Int) : (Const.minimal v).shape = Shape.forRange v v := by
  have hneeded : Bits.needed v false = Bits.needed v (decide (v < 0)) := by
    cases v <;> rfl
  simp only [Const.minimal, Const.wrap, Shape.forRange, Bool.or_self, Nat.max_self, hneeded]

/-- For every number of a word, the constant without a given shape has that number and is signed
exactly if it is negative, in the least width of at least one bit that keeps it with that sign. The
shape of a range keeps every number of the range, is signed exactly if the range starts below zero,
and no smaller width of at least one bit keeps both ends with that sign. -/
theorem Const.width_least :
    (∀ v, Bits.InWord v →
      (Const.minimal v).value = v ∧ ((Const.minimal v).shape.signed = true ↔ v < 0) ∧
        IsLeast {w | 1 ≤ w ∧ Shape.Keeps ⟨w, (Const.minimal v).shape.signed⟩ v}
          (Const.minimal v).shape.width) ∧
    ∀ low high, Bits.InWord low → Bits.InWord high → low ≤ high →
      (∀ v, low ≤ v → v ≤ high → (Shape.forRange low high).Keeps v) ∧
        ((Shape.forRange low high).signed = true ↔ low < 0) ∧
        ∀ w, 1 ≤ w → w < (Shape.forRange low high).width →
          ¬ (Shape.Keeps ⟨w, (Shape.forRange low high).signed⟩ low ∧
            Shape.Keeps ⟨w, (Shape.forRange low high).signed⟩ high) := by
  constructor
  · intro v hv
    have hkeeps : (Shape.forRange v v).Keeps v := Shape.forRange_keeps hv hv ⟨le_rfl, le_rfl⟩
    have hvalue : (Const.minimal v).value = (Const.minimal v).shape.wrapped v := rfl
    rw [hvalue, Const.minimal_shape]
    refine ⟨(Shape.keeps_iff (Shape.forRange_width_le_word hv hv)).mp hkeeps,
      Shape.forRange_signed_iff le_rfl, ⟨Shape.forRange_width_pos, hkeeps⟩, ?_⟩
    rintro w ⟨hw, hkept⟩
    exact Shape.forRange_width_le_of_keeps hv hv hw hkept hkept
  · intro low high hlow hhigh h
    refine ⟨fun v hlv hvh => Shape.forRange_keeps hlow hhigh ⟨hlv, hvh⟩,
      Shape.forRange_signed_iff h, ?_⟩
    rintro w hw hless ⟨hlows, hhighs⟩
    exact Nat.not_le_of_lt hless (Shape.forRange_width_le_of_keeps hlow hhigh hw hlows hhighs)

/-- The least number of a word takes all of its bits, and so does the range of all its numbers. -/
theorem Const.width_least_word :
    Bits.InWord (-2 ^ 127) ∧ Bits.InWord (2 ^ 127 - 1) ∧
      (Const.minimal (-2 ^ 127)).value = -2 ^ 127 ∧
      (Const.minimal (-2 ^ 127)).shape = .ofSigned 128 ∧
      Shape.forRange (-2 ^ 127) (2 ^ 127 - 1) = .ofSigned 128 ∧
      (Shape.ofSigned 128).Keeps 0 ∧
      ¬ ((Shape.ofSigned 127).Keeps (-2 ^ 127) ∧ (Shape.ofSigned 127).Keeps (2 ^ 127 - 1)) := by
  have hleast : Bits.InWord (-2 ^ 127) := by decide
  have hgreatest : Bits.InWord (2 ^ 127 - 1) := by decide
  have hshape : (Const.minimal (-2 ^ 127)).shape = .ofSigned 128 := by decide
  have hrange : Shape.forRange (-2 ^ 127) (2 ^ 127 - 1) = .ofSigned 128 := by decide
  obtain ⟨hvalues, hranges⟩ := Const.width_least
  obtain ⟨hkeeps, -, hnone⟩ := hranges (-2 ^ 127) (2 ^ 127 - 1) hleast hgreatest (by decide)
  rw [hrange] at hkeeps hnone
  exact ⟨hleast, hgreatest, (hvalues _ hleast).1, hshape, hrange,
    hkeeps 0 (by decide) (by decide), hnone 127 (by decide) (by decide)⟩

end Gateware
