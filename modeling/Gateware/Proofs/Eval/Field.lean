import Gateware.Proofs.Eval.Landing
import Gateware.Proofs.Eval.Range
import Gateware.Proofs.Lower.Meaning

/-! # Writing a field of a selected element

An assignment to some bits of a selected signal reads the selection, puts the bits in their place and
writes it back. It writes to the element that the index selects in the state that is read, and it
takes the other bits from the element that the index selects in the state that is written. The other
bits of the written element stay as they are if both are one element.
-/
namespace Gateware

def Row.ofSignals (signals : List Signal) : Row := signals.map fun s => .value (.signal s)

section

variable {signals : List Signal} {index : Value} {width : Nat} {st read write out : State}

theorem Row.ofSignals_getElem? {i : Nat} {u : Value} :
    (Row.ofSignals signals)[i]? = some (.value u) ↔ ∃ s, signals[i]? = some s ∧ u = .signal s := by
  rw [Row.ofSignals, List.getElem?_map, Option.map_eq_some_iff]
  constructor
  · rintro ⟨s, hs, h⟩
    cases h
    exact ⟨s, hs, rfl⟩
  · rintro ⟨s, hs, rfl⟩
    exact ⟨s, hs, rfl⟩

/-- A selection of signals of one unsigned width has the bits of one of them. -/
theorem Value.eval_ofSignals (hshape : ∀ s ∈ signals, s.shape = .ofUnsigned width) {bits : Nat}
    (h : (Value.select (Row.ofSignals signals) index).eval st = .ok bits) :
    width ≤ evalLimit ∧ ∃ n s, index.number st = .ok n ∧
      signals[(Row.ofSignals signals).place n]? = some s ∧
      bits = Bits.truncate (st.get s) width := by
  obtain ⟨hw, n, hn, u, hu, k, hk, rfl⟩ := Value.eval_select_eq_ok.mp h
  have hmem := List.mem_of_getElem? hu
  obtain ⟨s, hs, rfl⟩ := Row.ofSignals_getElem?.mp hu
  have hsignal : (Value.signal s).shape = .ofUnsigned width := hshape s (List.mem_of_getElem? hs)
  have helements : ∀ e ∈ Row.ofSignals signals, e.shape = .ofUnsigned width := by
    intro e he
    obtain ⟨t, ht, rfl⟩ := List.mem_map.mp he
    exact hshape t ht
  have hrow : (Value.select (Row.ofSignals signals) index).width = clampWidth width := by
    rw [Value.width, Value.shape, Row.shape_uniform (List.ne_nil_of_mem hmem) helements]
    rfl
  rw [hrow] at hw
  rw [hrow, clampWidth_eq hw]
  rw [clampWidth_eq hw] at hw
  obtain ⟨low, hlow, rfl⟩ := Value.number_eq_ok.mp hk
  rw [Value.truncate_read hsignal hlow]
  obtain ⟨-, rfl⟩ := Value.eval_signal_eq_ok.mp hlow
  have hwidth : s.width = width := congrArg Shape.width hsignal
  exact ⟨hw, n, s, hn, hs, by rw [hwidth]⟩

theorem Value.store_ofSignals {bits : Nat}
    (h : (Value.select (Row.ofSignals signals) index).store read bits write = .ok out) :
    ∃ n s, index.number read = .ok n ∧
      signals[(Row.ofSignals signals).place n]? = some s ∧ out = write.setBits s bits := by
  obtain ⟨n, hn, u, hu, hstore⟩ := Value.store_select_eq_ok.mp h
  obtain ⟨s, hs, rfl⟩ := Row.ofSignals_getElem?.mp hu
  rw [Value.store] at hstore
  cases hstore
  exact ⟨n, s, hn, hs, rfl⟩

/-- The bits of a field, read back after they were merged. -/
theorem mergeBits_field {lo hi : Nat} (hwidth : hi ≤ width) (hw : width ≤ evalLimit)
    (current bits : Nat) :
    (Bits.truncate (mergeBits current bits lo hi) width >>> lo) % 2 ^ (hi - lo) =
      Bits.truncate bits (hi - lo) := by
  have hlimit : evalLimit < wordBits := by decide
  apply Nat.eq_of_testBit_eq
  intro j
  rw [Nat.testBit_mod_two_pow, Nat.testBit_shiftRight, Bits.testBit_truncate,
    Bits.testBit_truncate, testBit_mergeBits, Nat.add_sub_cancel_left]
  by_cases hj : j < hi - lo
  · have hfield : lo + j < wordBits ∧ lo ≤ lo + j ∧ j < hi - lo := by omega
    have hwhole : lo + j < min width wordBits := by omega
    have hpart : j < min (hi - lo) wordBits := by omega
    simp [hj, hfield, hwhole, hpart]
  · have hpart : ¬ j < min (hi - lo) wordBits := by omega
    simp [hj, hpart]

theorem mergeBits_outside {lo hi j : Nat} (hj : j < width) (hw : width ≤ evalLimit)
    (hout : ¬ (lo ≤ j ∧ j < hi)) (raw bits : Nat) :
    (Bits.truncate (mergeBits (Bits.truncate raw width) bits lo hi) width).testBit j =
      raw.testBit j := by
  have hlimit : evalLimit < wordBits := by decide
  have hwhole : j < min width wordBits := by omega
  have hnot : ¬ (j < wordBits ∧ lo ≤ j ∧ j - lo < hi - lo) := by omega
  simp [testBit_mergeBits, hwhole, hnot]

/-- An assignment to the bits from `lo` to `hi` of a selection of signals of one unsigned width puts
the source there in the element of the index as it is read, and nothing else changes but its other
bits: they become those of the element of the index as it stands in the written state. -/
theorem Statement.field_write_merges (hshape : ∀ s ∈ signals, s.shape = .ofUnsigned width)
    {source : Value} {lo hi : Nat} (hhi : hi ≤ width)
    (h : (Statement.assign (.slice (.select (Row.ofSignals signals) index) lo hi) source).execute
      read write = .ok out) :
    ∃ x n m target kept, source.number read = .ok x ∧ index.number read = .ok n ∧
      index.number write = .ok m ∧ signals[(Row.ofSignals signals).place n]? = some target ∧
      signals[(Row.ofSignals signals).place m]? = some kept ∧
      (((out.get target >>> lo) % 2 ^ (hi - lo) : Nat) : Int) = x % 2 ^ (hi - lo) ∧
      (∀ j < width, ¬ (lo ≤ j ∧ j < hi) →
        (out.get target).testBit j = (write.get kept).testBit j) ∧
      (n = m → kept = target) ∧ ∀ s : Signal, s.id ≠ target.id → out.get s = write.get s := by
  obtain ⟨x, hx, hstore⟩ := Statement.execute_assign_eq_ok.mp h
  obtain ⟨current, hcurrent, hstore⟩ := Value.store_slice_eq_ok.mp hstore
  obtain ⟨hw, m, kept, hm, hkept, rfl⟩ := Value.eval_ofSignals hshape hcurrent
  obtain ⟨n, target, hn, htarget, rfl⟩ := Value.store_ofSignals hstore
  have hwidth : target.width = width :=
    congrArg Shape.width (hshape target (List.mem_of_getElem? htarget))
  have hget : ∀ raw, (write.setBits target raw).get target = Bits.truncate raw width := by
    intro raw
    rw [State.get_setBits, if_pos rfl, hwidth]
  refine ⟨x, n, m, target, kept, hx, hn, hm, htarget, hkept, ?_, ?_, ?_, ?_⟩
  · rw [hget, mergeBits_field hhi hw]
    exact Bits.truncate_ofInt ((Nat.sub_le hi lo).trans (hhi.trans (hw.trans (by decide)))) x
  · intro j hj hout
    rw [hget, mergeBits_outside hj hw hout]
  · rintro rfl
    exact Option.some.inj (hkept.symm.trans htarget)
  · intro s hs
    rw [State.get_setBits, if_neg (Ne.symm hs)]

end

def twoFields : List Signal := [.named 0 "a" 2, .named 1 "b" 2]

/-- The low bit of the element at `i` is cleared. -/
def clearLow : Statement :=
  .assign (.slice (.select (Row.ofSignals twoFields) (.signal (.named 2 "i" 1))) 0 1) (.int 0)

/-- The second signal is full, and the index selects the first. -/
def fullSecond : State := State.empty.set (.named 1 "b" 2) 3

/-- The index selects the second signal now. -/
def movedIndex : State := fullSecond.set (.named 2 "i" 1) 1

/-- The state that is read selects the first signal, and the one that is written the second. -/
theorem Statement.field_write_merges_moved :
    ∃ out, clearLow.execute fullSecond movedIndex = .ok out ∧
      (Value.signal (.named 2 "i" 1)).number fullSecond = .ok 0 ∧
      (Value.signal (.named 2 "i" 1)).number movedIndex = .ok 1 ∧
      ((out.get (.named 0 "a" 2) % 2 : Nat) : Int) = 0 ∧
      (out.get (.named 0 "a" 2)).testBit 1 = (movedIndex.get (.named 1 "b" 2)).testBit 1 ∧
      ∀ s : Signal, s.id ≠ 0 → out.get s = movedIndex.get s := by
  have hshape : ∀ s ∈ twoFields, s.shape = .ofUnsigned 2 := by decide
  have hrun : clearLow.execute fullSecond movedIndex =
      .ok (movedIndex.setBits (.named 0 "a" 2) 2) := rfl
  obtain ⟨x, n, m, target, kept, hx, hn, hm, htarget, hkept, hfield, hother, -, hframe⟩ :=
    Statement.field_write_merges hshape (by decide) hrun
  cases hx
  cases hn
  cases hm
  cases htarget
  cases hkept
  exact ⟨_, hrun, rfl, rfl, hfield, hother 1 (by decide) (by decide), hframe⟩

/-- The index moves from the first signal to the second in the same block. Then the first signal, of
which only the low bit is addressed, gets the high bit of the second; the lowered block leaves it at
zero. -/
theorem Block.tick_mixes_fields :
    let block := [.assign (.signal (.named 2 "i" 1)) (.int 1), clearLow]
    (Block.tick block fullSecond).map (·.get (.named 0 "a" 2)) = .ok 2 ∧
      fullSecond.get (.named 0 "a" 2) = 0 ∧
      (Block.tick (Block.lower block) fullSecond).map (·.get (.named 0 "a" 2)) = .ok 0 :=
  ⟨rfl, rfl, rfl⟩

end Gateware
