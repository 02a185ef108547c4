import Gateware.Proofs.Eval.Value

/-! # The numbers that a shape holds

Within the evaluation limit a shape reads a wrapped number as a residue: an unsigned one as the least
residue, a signed one as the balanced one. Numbers in the range of the shape come back as they are,
and the number of a value is always in the range of its shape.
-/
namespace Gateware

theorem Bits.truncate_ofInt {width : Nat} (hw : width ≤ wordBits) (n : Int) :
    (Bits.truncate (Bits.ofInt n) width : Int) = n % 2 ^ width := by
  have hpos : (0 : Int) < 2 ^ wordBits := by positivity
  have hnonneg : 0 ≤ n % 2 ^ wordBits := Int.emod_nonneg n hpos.ne'
  rw [Bits.truncate_eq, Nat.min_eq_left hw, Bits.ofInt_eq]
  push_cast
  rw [Int.toNat_of_nonneg hnonneg, Int.emod_emod_of_dvd n (pow_dvd_pow 2 hw)]

/-- A width within the limit was not held back. -/
theorem clampWidth_eq {width : Nat} (h : clampWidth width ≤ evalLimit) :
    clampWidth width = width := by
  have hlimit : evalLimit < widthLimit := by decide
  unfold clampWidth at h ⊢
  omega

namespace Shape

variable {s : Shape} {n : Int}

/-- The number is one that the shape has a pattern for. A signed range is stated for the double of
the number, so that no bits hold exactly zero. -/
def Holds (s : Shape) (n : Int) : Prop :=
  if s.signed then -2 ^ s.width ≤ n * 2 ∧ n * 2 < 2 ^ s.width else 0 ≤ n ∧ n < 2 ^ s.width

theorem holds_signed (hs : s.signed = true) :
    s.Holds n ↔ -2 ^ s.width ≤ n * 2 ∧ n * 2 < 2 ^ s.width := by
  simp [Holds, hs]

theorem holds_unsigned (hs : s.signed = false) : s.Holds n ↔ 0 ≤ n ∧ n < 2 ^ s.width := by
  simp [Holds, hs]

/-- What a shape reads of a number that was cut to its width. -/
def wrapped (s : Shape) (n : Int) : Int := s.read (Bits.truncate (Bits.ofInt n) s.width)

theorem wrapped_unsigned (hs : s.signed = false) (hw : s.width ≤ evalLimit) (n : Int) :
    s.wrapped n = n % 2 ^ s.width := by
  rw [wrapped, read_unsigned hs hw (Bits.truncate_lt _ _), Bits.truncate_ofInt (hw.trans (by decide))]

theorem wrapped_signed (hs : s.signed = true) (hword : s.width ≤ wordBits) (n : Int) :
    s.wrapped n = n.bmod (2 ^ s.width) := by
  have hcut := Bits.truncate_ofInt hword n
  have hlt := Bits.truncate_lt (Bits.ofInt n) s.width
  unfold wrapped
  generalize Bits.truncate (Bits.ofInt n) s.width = raw at hcut hlt
  simp only [read, hs, if_true, Bits.signExtend, Nat.min_eq_left hword,
    Bits.truncate_of_lt hword hlt, Nat.one_shiftLeft]
  rw [Int.bmod_def]
  push_cast
  rw [← hcut]
  by_cases h0 : s.width = 0
  · have hraw : raw = 0 := by simpa [h0] using hlt
    simp [h0, hraw]
  · have hpow : (2 : Int) ^ s.width = 2 * 2 ^ (s.width - 1) := by
      rw [← pow_succ', Nat.sub_add_cancel (Nat.pos_of_ne_zero h0)]
    have hhalf : raw < 2 ^ (s.width - 1) ↔ (raw : Int) < 2 ^ (s.width - 1) := by
      exact_mod_cast Iff.rfl
    simp only [h0, if_false, hhalf]
    split <;> split <;> omega

theorem wrapped_congr {m : Int} (hw : s.width ≤ evalLimit) (h : m ≡ n [ZMOD 2 ^ s.width]) :
    s.wrapped m = s.wrapped n := by
  have hword : s.width ≤ wordBits := hw.trans (by decide)
  have hcut : (Bits.truncate (Bits.ofInt m) s.width : Int) =
      Bits.truncate (Bits.ofInt n) s.width := by
    rw [Bits.truncate_ofInt hword, Bits.truncate_ofInt hword]
    exact h
  rw [wrapped, wrapped, Int.ofNat_inj.mp hcut]

theorem wrapped_modEq (hw : s.width ≤ evalLimit) (n : Int) :
    s.wrapped n ≡ n [ZMOD 2 ^ s.width] := by
  cases hs : s.signed with
  | false =>
    rw [wrapped_unsigned hs hw]
    exact Int.mod_modEq n _
  | true =>
    rw [wrapped_signed hs (hw.trans (by decide))]
    have h := Int.bmod_emod (x := n) (m := 2 ^ s.width)
    push_cast at h
    exact h

theorem Holds.wrapped_eq_signed (h : s.Holds n) (hs : s.signed = true)
    (hword : s.width ≤ wordBits) : s.wrapped n = n := by
  rw [holds_signed hs] at h
  rw [wrapped_signed hs hword]
  apply Int.bmod_eq_of_le_mul_two
  · push_cast
    exact h.1
  · push_cast
    exact h.2

/-- A number in the range of a shape is read back as it is. -/
theorem Holds.wrapped_eq (h : s.Holds n) (hw : s.width ≤ evalLimit) : s.wrapped n = n := by
  cases hs : s.signed with
  | false =>
    rw [holds_unsigned hs] at h
    rw [wrapped_unsigned hs hw, Int.emod_eq_of_lt h.1 h.2]
  | true => exact h.wrapped_eq_signed hs (hw.trans (by decide))

theorem holds_read (hw : s.width ≤ evalLimit) {raw : Nat} (h : raw < 2 ^ s.width) :
    s.Holds (s.read raw) := by
  cases hs : s.signed with
  | false =>
    rw [holds_unsigned hs, read_unsigned hs hw h]
    exact_mod_cast And.intro (Nat.zero_le raw) h
  | true =>
    -- the pattern is that of the number it spells, whose balanced residue is in range
    have hword : raw < 2 ^ wordBits :=
      h.trans_le (Nat.pow_le_pow_right Nat.two_pos (hw.trans (by decide)))
    have hread := wrapped_signed hs (hw.trans (by decide)) raw
    rw [wrapped, Bits.ofInt_natCast hword, Bits.truncate_of_lt (hw.trans (by decide)) h] at hread
    have hlow := Int.le_bmod (x := raw) (m := 2 ^ s.width) (Nat.two_pow_pos _)
    have hhigh := Int.bmod_lt (x := raw) (m := 2 ^ s.width) (Nat.two_pow_pos _)
    rw [holds_signed hs, hread]
    push_cast at hlow hhigh ⊢
    constructor <;> omega

/-- A range reaches from zero, so that it holds what lies between zero and a number it holds. -/
theorem Holds.of_between {m : Int} (h : s.Holds n) (hlow : min 0 n ≤ m) (hhigh : m ≤ max 0 n) :
    s.Holds m := by
  have hpos : (0 : Int) < 2 ^ s.width := by positivity
  cases hs : s.signed with
  | false =>
    rw [holds_unsigned hs] at h ⊢
    omega
  | true =>
    rw [holds_signed hs] at h ⊢
    omega

/-- More bits hold no fewer numbers. -/
theorem Holds.widen {t : Shape} (h : s.Holds n) (hsigned : t.signed = s.signed)
    (hwidth : s.width ≤ t.width) : t.Holds n := by
  have hpow : (2 : Int) ^ s.width ≤ 2 ^ t.width := pow_le_pow_right₀ (by norm_num) hwidth
  cases hs : s.signed with
  | false =>
    rw [hs] at hsigned
    rw [holds_unsigned hs] at h
    rw [holds_unsigned hsigned]
    omega
  | true =>
    rw [hs] at hsigned
    rw [holds_signed hs] at h
    rw [holds_signed hsigned]
    omega

/-- A signed shape holds the numbers of an unsigned one that has a bit less. -/
theorem Holds.addSign {t : Shape} (h : s.Holds n) (hs : s.signed = false) (ht : t.signed = true)
    (hwidth : s.width < t.width) : t.Holds n := by
  have hpow : (2 : Int) ^ (s.width + 1) ≤ 2 ^ t.width := pow_le_pow_right₀ (by norm_num) hwidth
  rw [pow_succ] at hpow
  rw [holds_unsigned hs] at h
  rw [holds_signed ht]
  omega

end Shape

theorem Value.evalAll_eq_ok {st : State} {vs : List Value} {ns : List Int} :
    Value.evalAll st vs = .ok ns ↔ List.Forall₂ (fun v n => v.number st = .ok n) vs ns := by
  induction vs generalizing ns with
  | nil =>
    rw [Value.evalAll_nil_eq_ok, List.forall₂_nil_left_iff]
    exact eq_comm
  | cons v vs ih =>
    rw [Value.evalAll_cons_eq_ok, List.forall₂_cons_left_iff]
    constructor
    · rintro ⟨n, hn, rest, hrest, rfl⟩
      exact ⟨n, rest, hn, ih.mp hrest, rfl⟩
    · rintro ⟨n, rest, hn, hrest, rfl⟩
      exact ⟨n, hn, rest, ih.mpr hrest, rfl⟩

theorem Value.number_op_eq_ok {st : State} {o : Op} {vs : List Value} {r : Int} :
    (Value.op o vs).number st = .ok r ↔
      (Value.op o vs).width ≤ evalLimit ∧ ∃ ns, Value.evalAll st vs = .ok ns ∧
        ∃ n, o.compute ns = some n ∧ (Value.op o vs).shape.wrapped n = r := by
  rw [Value.number_eq_ok]
  simp only [Value.eval_op_eq_ok]
  constructor
  · rintro ⟨_, ⟨hw, ns, hns, n, hn, rfl⟩, rfl⟩
    exact ⟨hw, ns, hns, n, hn, rfl⟩
  · rintro ⟨hw, ns, hns, n, hn, rfl⟩
    exact ⟨_, ⟨hw, ns, hns, n, hn, rfl⟩, rfl⟩

theorem Value.number_select_eq_ok {st : State} {row : Row} {index : Value} {r : Int} :
    (Value.select row index).number st = .ok r ↔
      (Value.select row index).width ≤ evalLimit ∧ ∃ n, index.number st = .ok n ∧
        ∃ u, row[row.place n]? = some (.value u) ∧ ∃ m, u.number st = .ok m ∧
          (Value.select row index).shape.wrapped m = r := by
  rw [Value.number_eq_ok]
  simp only [Value.eval_select_eq_ok]
  constructor
  · rintro ⟨_, ⟨hw, n, hn, u, hu, m, hm, rfl⟩, rfl⟩
    exact ⟨hw, n, hn, u, hu, m, hm, rfl⟩
  · rintro ⟨hw, n, hn, u, hu, m, hm, rfl⟩
    exact ⟨_, ⟨hw, n, hn, u, hu, m, hm, rfl⟩, rfl⟩

theorem Value.number_holds {v : Value} {st : State} {n : Int} (h : v.number st = .ok n) :
    v.width ≤ evalLimit ∧ v.shape.Holds n := by
  obtain ⟨bits, hbits, rfl⟩ := Value.number_eq_ok.mp h
  obtain ⟨hw, hlt⟩ := Value.eval_fits hbits
  exact ⟨hw, Shape.holds_read hw hlt⟩

/-- Reading bits as a number and cutting the number to the width gives the bits again. -/
theorem Value.eval_of_number {v : Value} {st : State} {n : Int} (h : v.number st = .ok n) :
    v.eval st = .ok (Bits.truncate (Bits.ofInt n) v.width) := by
  obtain ⟨bits, hbits, rfl⟩ := Value.number_eq_ok.mp h
  obtain ⟨hw, hfits⟩ := Value.eval_fits hbits
  have hword : v.width ≤ wordBits := hw.trans (by decide)
  have hcut : Bits.truncate (Bits.ofInt bits) v.width = bits := by
    rw [Bits.ofInt_natCast (hfits.trans_le (Nat.pow_le_pow_right Nat.two_pos hword)),
      Bits.truncate_of_lt hword hfits]
  have hread : v.shape.read bits ≡ bits [ZMOD 2 ^ v.width] := by
    have h := Shape.wrapped_modEq hw (bits : Int)
    rwa [Shape.wrapped, show v.shape.width = v.width from rfl, hcut] at h
  have hback : (Bits.truncate (Bits.ofInt (v.shape.read bits)) v.width : Int) = bits := by
    rw [Bits.truncate_ofInt hword, hread.eq, ← Bits.truncate_ofInt hword, hcut]
  rw [Int.ofNat_inj.mp hback, hbits]

end Gateware
