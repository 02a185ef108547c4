import Gateware.Proofs.Eval.Composite

/-! # Where bits are placed

A group has the bits of each part at the offset of the part, which is the sum of the widths before
it. Copies of a value are a group of that value, a slice at the place of a part is the part, and a
slice of a slice is one slice of the value inside. All this holds up to the outcome: what is too
wide on one side is too wide on the other, and other errors come from the same value.
-/
namespace Gateware

/-! ## Offsets -/

def Value.offset (before : List Value) : Nat := (before.map Value.width).sum

@[simp] theorem Value.offset_nil : Value.offset [] = 0 := rfl

@[simp] theorem Value.offset_cons (v : Value) (vs : List Value) :
    Value.offset (v :: vs) = v.width + Value.offset vs := by
  simp [Value.offset]

theorem Value.offset_append (vs ws : List Value) :
    Value.offset (vs ++ ws) = Value.offset vs + Value.offset ws := by
  simp [Value.offset]

theorem Value.offset_replicate (n : Nat) (v : Value) :
    Value.offset (List.replicate n v) = n * v.width := by
  simp [Value.offset]

/-- The width of a group is the offset behind its last part, held at the limit of widths. -/
theorem Value.totalWidth_eq (vs : List Value) :
    Value.totalWidth vs = clampWidth (Value.offset vs) := by
  induction vs with
  | nil => rfl
  | cons v vs ih =>
    rw [Value.totalWidth, ih, Value.offset_cons]
    unfold clampWidth Value.width
    omega

section

variable {st : State} {before after : List Value} {part : Value}

/-- In a group with bits no width was held back. -/
theorem Value.totalWidth_of_eval {vs : List Value} {bits : Nat}
    (h : (Value.concat vs).eval st = .ok bits) :
    Value.totalWidth vs = Value.offset vs ∧ Value.offset vs ≤ evalLimit := by
  have hw := (Value.eval_concat_eq_ok.mp h).1
  have htotal : Value.totalWidth vs = Value.offset vs := by
    rw [Value.totalWidth_eq] at hw ⊢
    exact clampWidth_eq hw
  exact ⟨htotal, htotal ▸ hw⟩

theorem Value.evalParts_placed {bits : Nat}
    (h : Value.evalParts st (before ++ part :: after) = .ok bits) :
    ∃ own, part.eval st = .ok own ∧
      ∀ j, Value.offset before ≤ j → j < Value.offset before + part.width →
        bits.testBit j = own.testBit (j - Value.offset before) := by
  induction before generalizing bits with
  | nil =>
    obtain ⟨own, hown, high, -, rfl⟩ := Value.evalParts_cons_eq_ok.mp h
    refine ⟨own, hown, ?_⟩
    intro j _ hj
    rw [Value.offset_nil, Nat.zero_add] at hj
    rw [Bits.testBit_beside (Value.eval_fits hown).2, if_pos hj, Value.offset_nil, Nat.sub_zero]
  | cons v before ih =>
    obtain ⟨low, hlow, high, hhigh, rfl⟩ := Value.evalParts_cons_eq_ok.mp h
    obtain ⟨own, hown, hplaced⟩ := ih hhigh
    refine ⟨own, hown, ?_⟩
    intro j hle hlt
    rw [Value.offset_cons] at hle hlt ⊢
    have hbehind : ¬ j < v.width := by omega
    rw [Bits.testBit_beside (Value.eval_fits hlow).2, if_neg hbehind,
      hplaced (j - v.width) (by omega) (by omega), Nat.sub_sub]

/-- A group has the bits of each part at the offset of the part. -/
theorem Value.concat_placed {bits : Nat}
    (h : (Value.concat (before ++ part :: after)).eval st = .ok bits) :
    ∃ own, part.eval st = .ok own ∧
      ∀ j, Value.offset before ≤ j → j < Value.offset before + part.width →
        bits.testBit j = own.testBit (j - Value.offset before) := by
  obtain ⟨htotal, -⟩ := Value.totalWidth_of_eval h
  obtain ⟨hw, inner, hinner, rfl⟩ := Value.eval_concat_eq_ok.mp h
  obtain ⟨own, hown, hplaced⟩ := Value.evalParts_placed hinner
  refine ⟨own, hown, ?_⟩
  intro j hle hlt
  have hinside : j < Value.totalWidth (before ++ part :: after) := by
    rw [htotal, Value.offset_append, Value.offset_cons]
    omega
  rw [Bits.testBit_truncate_of_lt _ hw hinside, hplaced j hle hlt]

/-- A group has bits exactly if its parts have, and together no more than the limit. -/
theorem Value.concat_hasBits {parts : List Value} :
    (Value.concat parts).HasBits st ↔
      Value.offset parts ≤ evalLimit ∧ ∀ part ∈ parts, part.HasBits st := by
  constructor
  · rintro ⟨bits, h⟩
    refine ⟨(Value.totalWidth_of_eval h).2, ?_⟩
    intro part hpart
    obtain ⟨before, after, rfl⟩ := List.append_of_mem hpart
    obtain ⟨own, hown, -⟩ := Value.concat_placed h
    exact ⟨own, hown⟩
  · rintro ⟨hlimit, hparts⟩
    obtain ⟨inner, hinner⟩ := Value.evalParts_of_hasBits hparts
    have hw : Value.totalWidth parts ≤ evalLimit := by
      rw [Value.totalWidth_eq]
      exact (Nat.min_le_left _ _).trans hlimit
    exact ⟨_, Value.eval_concat_eq_ok.mpr ⟨hw, inner, hinner, rfl⟩⟩

/-! ## Slices -/

theorem fromTop_of_nonneg {width : Nat} {bound : Int} (h : 0 ≤ bound) :
    fromTop width bound = bound := if_neg (by omega)

/-- The slice of a group at the place of a part is accepted and has the bits of the part. -/
theorem Value.slice_part {bits : Nat}
    (h : (Value.concat (before ++ part :: after)).eval st = .ok bits) :
    ∃ field, (Value.concat (before ++ part :: after)).bits (Value.offset before)
        (Value.offset before + part.width) = .ok field ∧ field.eval st = part.eval st := by
  obtain ⟨own, hown, hplaced⟩ := Value.concat_placed h
  obtain ⟨htotal, hlimit⟩ := Value.totalWidth_of_eval h
  obtain ⟨hw, hfits⟩ := Value.eval_fits hown
  have hwidth : (Value.concat (before ++ part :: after)).width =
      Value.offset (before ++ part :: after) := htotal
  have hroom : Value.offset before + part.width ≤ Value.offset (before ++ part :: after) := by
    rw [Value.offset_append, Value.offset_cons]
    omega
  refine ⟨.slice (.concat (before ++ part :: after)) (Value.offset before)
    (Value.offset before + part.width), ?_, ?_⟩
  · rw [Value.bits_eq_ok_iff, fromTop_of_nonneg (by omega), fromTop_of_nonneg (by omega), hwidth]
    refine ⟨by omega, by omega, by omega, ?_⟩
    congr 1
  · rw [hown, Value.eval_slice_eq_ok, Nat.add_sub_cancel_left]
    refine ⟨hw, bits, h, ?_⟩
    apply Bits.eq_of_testBit (Bits.truncate_lt _ _) hfits
    intro j hj
    rw [Bits.testBit_truncate_of_lt _ hw hj, Nat.testBit_shiftRight,
      hplaced _ (by omega) (by omega), Nat.add_sub_cancel_left]

theorem Value.eval_tooWide {v : Value} (h : evalLimit < v.width) :
    v.eval st = .error (.tooWide v) := by
  cases v with
  | clock d | reset d =>
    have hone : ¬ evalLimit < 1 := by decide
    exact absurd h hone
  | const c | signal s | op o vs | slice u start stop | concat vs | repl u count
  | select row index =>
    rw [Value.eval]
    exact if_pos h

/-- A field inside a field is a field of the whole. -/
theorem Bits.truncate_field (raw start : Nat) {inner width field : Nat}
    (hfield : inner + field ≤ width) (hw : width ≤ evalLimit) :
    Bits.truncate (Bits.truncate (raw >>> start) width >>> inner) field =
      Bits.truncate (raw >>> (start + inner)) field := by
  apply Bits.eq_of_testBit (Bits.truncate_lt _ _) (Bits.truncate_lt _ _)
  intro j hj
  have hnarrow : field ≤ evalLimit := by omega
  rw [Bits.testBit_truncate_of_lt _ hnarrow hj, Bits.testBit_truncate_of_lt _ hnarrow hj,
    Nat.testBit_shiftRight, Bits.testBit_truncate_of_lt _ hw (by omega), Nat.testBit_shiftRight,
    Nat.testBit_shiftRight, Nat.add_assoc]

/-- A slice of a slice has the outcome of one slice. If the inner slice is too wide, so is the value
that it is a slice of. -/
theorem Value.outcome_slice_slice {v : Value} {a b c d : Nat} (hb : b ≤ v.width) (hcd : c ≤ d)
    (hd : d ≤ b - a) :
    outcome ((Value.slice v (a + c) (a + d)).eval st) =
      outcome ((Value.slice (.slice v a b) c d).eval st) := by
  have hwidth : a + d - (a + c) = d - c := by omega
  rw [Value.eval, Value.eval, hwidth]
  apply outcome_guarded
  intro hlimit
  by_cases hinner : evalLimit < b - a
  · have hv : evalLimit < v.width := by omega
    have hslice : evalLimit < (Value.slice v a b).width := hinner
    rw [Value.eval_tooWide hv, Value.eval_tooWide hslice]
    rfl
  · rw [Value.eval, if_neg hinner]
    cases v.eval st with
    | error e => rfl
    | ok bits =>
      apply congrArg Except.ok
      exact (Bits.truncate_field bits a (by omega) (by omega)).symm

/-- A slice of a slice can be made as one. -/
theorem Value.bits_bits (st : State) {v inner outer : Value} {a b c d : Int} (ha : 0 ≤ a)
    (hb : 0 ≤ b) (hc : 0 ≤ c) (hd : 0 ≤ d) (hinner : v.bits a b = .ok inner)
    (houter : inner.bits c d = .ok outer) :
    ∃ direct, v.bits (a + c) (a + d) = .ok direct ∧ direct.shape = outer.shape ∧
      outcome (direct.eval st) = outcome (outer.eval st) := by
  rw [Value.bits_eq_ok_iff, fromTop_of_nonneg ha, fromTop_of_nonneg hb] at hinner
  rw [Value.bits_eq_ok_iff, fromTop_of_nonneg hc, fromTop_of_nonneg hd] at houter
  obtain ⟨-, hab, hbw, rfl⟩ := hinner
  obtain ⟨-, hcd, hdw, rfl⟩ := houter
  have hwidth : (Value.slice v a.toNat b.toNat).width = b.toNat - a.toNat := rfl
  rw [hwidth] at hdw
  have hstart : (a + c).toNat = a.toNat + c.toNat := by omega
  have hstop : (a + d).toNat = a.toNat + d.toNat := by omega
  refine ⟨.slice v (a.toNat + c.toNat) (a.toNat + d.toNat), ?_, ?_, ?_⟩
  · rw [Value.bits_eq_ok_iff, fromTop_of_nonneg (by omega), fromTop_of_nonneg (by omega), hstart,
      hstop]
    exact ⟨by omega, by omega, by omega, rfl⟩
  · rw [Value.shape, Value.shape, Nat.add_sub_add_left]
  · exact Value.outcome_slice_slice (by omega) (by omega) (by omega)

end

/-! ## Copies -/

theorem repeatBits_zero (width n : Nat) : repeatBits 0 width n = 0 := by
  induction n with
  | zero => rfl
  | succ n ih => rw [repeatBits, ih, Nat.zero_shiftLeft, Nat.or_zero]

theorem Value.evalParts_replicate {st : State} {v : Value} {bits : Nat} (h : v.eval st = .ok bits)
    (n : Nat) : Value.evalParts st (List.replicate n v) = .ok (repeatBits bits v.width n) := by
  induction n with
  | zero => rfl
  | succ n ih =>
    rw [List.replicate_succ, Value.evalParts_cons_eq_ok]
    exact ⟨bits, h, _, ih, rfl⟩

theorem Value.shape_repl (v : Value) (n : Nat) :
    (Value.repl v n).shape = (Value.concat (List.replicate n v)).shape := by
  rw [Value.shape, Value.shape, Value.totalWidth_eq, Value.offset_replicate, Nat.mul_comm]
  rfl

/-- Copies of no bits have none. -/
theorem Value.repeatBits_of_eval {st : State} {v : Value} {bits : Nat} (h : v.eval st = .ok bits)
    (n : Nat) : (if v.width = 0 then 0 else repeatBits bits v.width n) =
      repeatBits bits v.width n := by
  split
  · rename_i hzero
    have hfits := (Value.eval_fits h).2
    rw [hzero] at hfits
    have hnone : bits = 0 := by omega
    rw [hnone, repeatBits_zero]
  · rfl

/-- At least one copy of a value has the outcome of a group of that value. -/
theorem Value.outcome_repl (st : State) (v : Value) {n : Nat} (hn : 1 ≤ n) :
    outcome ((Value.repl v n).eval st) =
      outcome ((Value.concat (List.replicate n v)).eval st) := by
  have hwidth : (Value.repl v n).width = (Value.concat (List.replicate n v)).width :=
    congrArg Shape.width (Value.shape_repl v n)
  rw [Value.eval, Value.eval, hwidth]
  apply outcome_guarded
  intro _
  cases hv : v.eval st with
  | error e =>
    obtain ⟨m, rfl⟩ : ∃ m, n = m + 1 := ⟨n - 1, by omega⟩
    rw [List.replicate_succ, Value.evalParts, hv]
    rfl
  | ok bits =>
    rw [Value.evalParts_replicate hv, ← Value.repeatBits_of_eval hv]
    rfl

/-! ## The laws together -/

/-- In every state the following hold.

A group has bits exactly if its parts have, and together no more than the limit. It has those of
each part at the offset of the part, and the slice of the group there is accepted and means the
part. At least one copy of a value has the shape and the outcome of a group of as many. A slice of a
slice, both with bounds that do not count from the top, can be made as one slice of the value
inside, of the same shape and with the same outcome. A slice is accepted exactly if its bounds,
after the width is added to the negative ones, are in order and within the value. -/
theorem Value.placement_laws (st : State) :
    (∀ parts, (Value.concat parts).HasBits st ↔
      Value.offset parts ≤ evalLimit ∧ ∀ part ∈ parts, part.HasBits st) ∧
    (∀ before part after bits, (Value.concat (before ++ part :: after)).eval st = .ok bits →
      ∃ own, part.eval st = .ok own ∧
        (∀ j, Value.offset before ≤ j → j < Value.offset before + part.width →
          bits.testBit j = own.testBit (j - Value.offset before)) ∧
        ∃ field, (Value.concat (before ++ part :: after)).bits (Value.offset before)
          (Value.offset before + part.width) = .ok field ∧ field.eval st = .ok own) ∧
    (∀ v n, 1 ≤ n →
      (Value.repl v n).shape = (Value.concat (List.replicate n v)).shape ∧
        outcome ((Value.repl v n).eval st) =
          outcome ((Value.concat (List.replicate n v)).eval st)) ∧
    (∀ v a b c d inner outer, 0 ≤ a → 0 ≤ b → 0 ≤ c → 0 ≤ d →
      Value.bits v a b = .ok inner → inner.bits c d = .ok outer →
      ∃ direct, v.bits (a + c) (a + d) = .ok direct ∧ direct.shape = outer.shape ∧
        outcome (direct.eval st) = outcome (outer.eval st)) ∧
    ∀ v start stop, (∃ u, Value.bits v start stop = .ok u) ↔
      0 ≤ (if start < 0 then start + v.width else start) ∧
        (if start < 0 then start + v.width else start) ≤
          (if stop < 0 then stop + v.width else stop) ∧
        (if stop < 0 then stop + v.width else stop) ≤ v.width := by
  refine ⟨fun parts => Value.concat_hasBits, ?_, ?_, ?_, ?_⟩
  · intro before part after bits h
    obtain ⟨own, hown, hplaced⟩ := Value.concat_placed h
    obtain ⟨field, hfield, hsame⟩ := Value.slice_part h
    exact ⟨own, hown, hplaced, field, hfield, hsame.trans hown⟩
  · intro v n hn
    exact ⟨Value.shape_repl v n, Value.outcome_repl st v hn⟩
  · intro v a b c d inner outer ha hb hc hd hinner houter
    exact Value.bits_bits st ha hb hc hd hinner houter
  · intro v start stop
    constructor
    · rintro ⟨u, hu⟩
      obtain ⟨hstart, horder, hstop, -⟩ := Value.bits_eq_ok_iff.mp hu
      exact ⟨hstart, horder, hstop⟩
    · rintro ⟨hstart, horder, hstop⟩
      exact ⟨_, Value.bits_eq_ok_iff.mpr ⟨hstart, horder, hstop, rfl⟩⟩

/-- A group of as many bits as have a meaning, with a part of no bits between the others. -/
def fullGroup : Value :=
  let x := Value.signal (.named 0 "x" 64)
  .concat [x, .slice x 3 3, .signal (.named 1 "y" 63)]

def fullState : State :=
  (State.empty.setBits (.named 0 "x" 64) 5).setBits (.named 1 "y" 63) (2 ^ 62 + 9)

/-- The last part keeps its highest bit, and two copies of the first one are too many bits. -/
theorem Value.placement_laws_full :
    (∃ bits, fullGroup.eval fullState = .ok bits ∧ bits.testBit 126 = true) ∧
      (∃ field, fullGroup.bits 64 127 = .ok field ∧ field.eval fullState = .ok (2 ^ 62 + 9)) ∧
      outcome ((Value.repl (.signal (.named 0 "x" 64)) 2).eval fullState) = .error .tooWide ∧
      (∃ direct, fullGroup.bits 66 68 = .ok direct ∧ outcome (direct.eval fullState) = .ok 2) ∧
      ∃ field, fullGroup.bits (-63) (-60) = .ok field := by
  obtain ⟨-, hgroup, hcopies, hslices, hbounds⟩ := Value.placement_laws fullState
  let before := [Value.signal (.named 0 "x" 64), .slice (.signal (.named 0 "x" 64)) 3 3]
  have hoffset : Value.offset before = 64 := rfl
  have hfull : (Value.concat (before ++ [.signal (.named 1 "y" 63)])).eval fullState = .ok _ := rfl
  obtain ⟨own, hown, hplaced, field, hfield, hsame⟩ := hgroup _ _ _ _ hfull
  have hy : (Value.signal (.named 1 "y" 63)).eval fullState = .ok (2 ^ 62 + 9) := rfl
  obtain rfl : 2 ^ 62 + 9 = own := Except.ok.inj (hy.symm.trans hown)
  refine ⟨⟨_, hfull, ?_⟩, ⟨field, hfield, hsame⟩, ?_, ?_, ?_⟩
  · rw [hplaced 126 (by decide) (by decide), hoffset]
    decide
  · exact (hcopies (.signal (.named 0 "x" 64)) 2 (by decide)).2
  · obtain ⟨direct, hdirect, -, hsame⟩ := hslices fullGroup 64 70 2 4 _ _ (by decide) (by decide)
      (by decide) (by decide) rfl rfl
    exact ⟨direct, hdirect, hsame⟩
  · exact (hbounds fullGroup (-63) (-60)).mpr (by decide)

end Gateware
