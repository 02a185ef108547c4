import Gateware.Eval.Value
import Gateware.Lower.Read
import Mathlib

/-! # Patterns, shapes and the numbers they hold

A pattern cut to a width keeps exactly its low bits. Below the evaluation limit an unsigned shape
reads a pattern as the number it spells, and an index reads a reachable position exactly when its
pattern spells that position.
-/
namespace Gateware

/-- A composed computation succeeds exactly through a result of its first part. -/
theorem bind_eq_ok {ε α β : Type} {x : Except ε α} {f : α → Except ε β} {b : β} :
    x >>= f = .ok b ↔ ∃ a, x = .ok a ∧ f a = .ok b := by
  cases x with
  | error e => simp [bind, Except.bind]
  | ok a => simp [bind, Except.bind]

namespace Bits

theorem truncate_eq (raw width : Nat) : truncate raw width = raw % 2 ^ min width wordBits := by
  rw [truncate, Nat.one_shiftLeft]

theorem truncate_lt (raw width : Nat) : truncate raw width < 2 ^ width := by
  rw [truncate_eq]
  exact (Nat.mod_lt _ (Nat.two_pow_pos _)).trans_le
    (Nat.pow_le_pow_right Nat.two_pos (Nat.min_le_left _ _))

theorem truncate_lt_word (raw width : Nat) : truncate raw width < 2 ^ wordBits := by
  rw [truncate_eq]
  exact (Nat.mod_lt _ (Nat.two_pow_pos _)).trans_le
    (Nat.pow_le_pow_right Nat.two_pos (Nat.min_le_right _ _))

theorem truncate_of_lt {raw width : Nat} (hw : width ≤ wordBits) (h : raw < 2 ^ width) :
    truncate raw width = raw := by
  rw [truncate_eq, Nat.min_eq_left hw]
  exact Nat.mod_eq_of_lt h

@[simp] theorem testBit_truncate (raw width i : Nat) :
    (truncate raw width).testBit i = (decide (i < min width wordBits) && raw.testBit i) := by
  simp only [truncate_eq, Nat.testBit_mod_two_pow]

/-- A pattern beside a lower one keeps its bits, and so does the lower one. -/
theorem testBit_beside {low width : Nat} (h : low < 2 ^ width) (high j : Nat) :
    (low ||| (high <<< width)).testBit j =
      if j < width then low.testBit j else high.testBit (j - width) := by
  rw [Nat.testBit_or, Nat.testBit_shiftLeft]
  split
  · rename_i hj
    rw [decide_eq_false (Nat.not_le_of_lt hj), Bool.false_and, Bool.or_false]
  · rename_i hj
    have hle : width ≤ j := Nat.le_of_not_lt hj
    have hout : low.testBit j = false :=
      Nat.testBit_lt_two_pow (h.trans_le (Nat.pow_le_pow_right Nat.two_pos hle))
    rw [hout, Bool.false_or, decide_eq_true hle, Bool.true_and]

/-- Patterns of one width are equal if they have the same bits in it. -/
theorem eq_of_testBit {a b width : Nat} (ha : a < 2 ^ width) (hb : b < 2 ^ width)
    (h : ∀ j < width, a.testBit j = b.testBit j) : a = b := by
  apply Nat.eq_of_testBit_eq
  intro j
  by_cases hj : j < width
  · exact h j hj
  · have hpow : 2 ^ width ≤ 2 ^ j := Nat.pow_le_pow_right Nat.two_pos (Nat.le_of_not_lt hj)
    rw [Nat.testBit_lt_two_pow (ha.trans_le hpow), Nat.testBit_lt_two_pow (hb.trans_le hpow)]

theorem ofInt_eq (value : Int) : ofInt value = (value % 2 ^ wordBits).toNat := by
  rw [ofInt, Nat.one_shiftLeft, Nat.cast_pow]
  rfl

theorem ofInt_lt (value : Int) : ofInt value < 2 ^ wordBits := by
  have hpos : (0 : Int) < 2 ^ wordBits := by positivity
  have h := Int.emod_lt_of_pos value hpos
  have h0 := Int.emod_nonneg value hpos.ne'
  rw [ofInt_eq]
  zify
  rwa [Int.toNat_of_nonneg h0]

theorem ofInt_natCast_mod (n : Nat) : ofInt n = n % 2 ^ wordBits := by
  rw [ofInt_eq]
  have he : ((n : Int) % 2 ^ wordBits) = ((n % 2 ^ wordBits : Nat) : Int) := by push_cast; rfl
  rw [he]
  rfl

theorem ofInt_natCast {n : Nat} (h : n < 2 ^ wordBits) : ofInt n = n := by
  rw [ofInt_natCast_mod, Nat.mod_eq_of_lt h]

theorem truncate_ofInt_le (n width : Nat) : truncate (ofInt n) width ≤ n := by
  rw [truncate_eq, ofInt_natCast_mod]
  exact (Nat.mod_le _ _).trans (Nat.mod_le _ _)

theorem reading_of_lt {raw : Nat} (h : raw < 2 ^ evalLimit) : reading raw = raw := by
  rw [reading, Nat.one_shiftLeft]
  exact if_pos h

theorem lt_two_pow_needed (n : Nat) : n < 2 ^ needed n false := by
  cases n with
  | zero => decide
  | succ p =>
    change p + 1 < 2 ^ (length (p + 1) + 0)
    simpa [length] using Nat.lt_log2_self (n := p + 1)

theorem needed_le {n k : Nat} (hk : 0 < k) (h : n < 2 ^ k) : needed n false ≤ k := by
  cases n with
  | zero => exact hk
  | succ p =>
    change length (p + 1) + 0 ≤ k
    have hlog : (p + 1).log2 < k := (Nat.log2_lt (Nat.succ_ne_zero p)).mpr h
    simp only [length, Nat.succ_ne_zero, if_false]
    omega

end Bits

namespace Shape

/-- Below the evaluation limit an unsigned shape reads a pattern as it stands. -/
theorem read_unsigned {s : Shape} (hs : s.signed = false) (hw : s.width ≤ evalLimit) {raw : Nat}
    (h : raw < 2 ^ s.width) : s.read raw = raw := by
  unfold read
  rw [hs, if_neg (by decide)]
  exact Bits.reading_of_lt (h.trans_le (Nat.pow_le_pow_right Nat.two_pos hw))

/-- A signed shape reads a pattern below half of its range as it stands and any other as a negative
number. -/
theorem read_signed {s : Shape} (hs : s.signed = true) (hw : s.width ≤ evalLimit) {raw : Nat}
    (h : raw < 2 ^ s.width) :
    (raw < 2 ^ (s.width - 1) ∧ s.read raw = raw) ∨
      (2 ^ (s.width - 1) ≤ raw ∧ s.read raw < 0) := by
  have hword : s.width ≤ wordBits := hw.trans (by decide)
  unfold read Bits.signExtend
  simp only [Nat.one_shiftLeft]
  rw [if_pos hs, Nat.min_eq_left hword, Bits.truncate_of_lt hword h]
  by_cases h0 : s.width = 0
  · rw [h0] at h
    have hraw : raw = 0 := by simpa using h
    exact Or.inl ⟨by simp [hraw], by simp [h0, hraw]⟩
  · by_cases hl : raw < 2 ^ (s.width - 1)
    · exact Or.inl ⟨hl, by simp [h0, hl]⟩
    · refine Or.inr ⟨Nat.le_of_not_lt hl, ?_⟩
      have hz : (raw : Int) < 2 ^ s.width := by exact_mod_cast h
      simp only [h0, hl, if_false]
      push_cast
      omega

/-- The positions an index can reach, in terms of its width. -/
theorem reaches_iff {s : Shape} (hw : s.width ≤ evalLimit) (position : Nat) :
    s.reaches position = true ↔ position < 2 ^ (if s.signed then s.width - 1 else s.width) := by
  have hbits : ¬ wordBits ≤ (if s.signed then s.width - 1 else s.width) := by
    have : evalLimit < wordBits := by decide
    split <;> omega
  simp only [reaches, hbits, decide_false, Bool.false_or, decide_eq_true_eq, Nat.one_shiftLeft]

theorem reaches_zero (s : Shape) : s.reaches 0 = true := by
  simp only [reaches, Nat.one_shiftLeft, Nat.two_pow_pos, decide_true, Bool.or_true]

/-- What an index reads as a position is a position it reaches. -/
theorem reaches_of_read {s : Shape} (hw : s.width ≤ evalLimit) {raw position : Nat}
    (h : raw < 2 ^ s.width) (hp : s.read raw = position) : s.reaches position = true := by
  rw [reaches_iff hw]
  cases hs : s.signed with
  | false =>
    rw [read_unsigned hs hw h] at hp
    have he : raw = position := by exact_mod_cast hp
    simpa [he] using h
  | true =>
    rcases read_signed hs hw h with ⟨hl, hr⟩ | ⟨-, hr⟩
    · have he : raw = position := by rw [hr] at hp; exact_mod_cast hp
      simpa [he] using hl
    · omega

/-- An index reads a reachable position exactly when its pattern spells it. -/
theorem read_eq_iff {s : Shape} (hw : s.width ≤ evalLimit) {raw position : Nat}
    (h : raw < 2 ^ s.width) (hp : s.reaches position = true) :
    s.read raw = position ↔ raw = position := by
  rw [reaches_iff hw] at hp
  cases hs : s.signed with
  | false =>
    rw [read_unsigned hs hw h]
    exact Int.natCast_inj
  | true =>
    rw [hs, if_pos rfl] at hp
    rcases read_signed hs hw h with ⟨-, hr⟩ | ⟨hl, hr⟩
    · rw [hr]
      exact Int.natCast_inj
    · constructor
      · intro he
        omega
      · intro he
        omega

end Shape

end Gateware
