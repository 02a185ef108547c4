import Gateware.Proofs.Accepted
import Gateware.Proofs.Eval.Frame

/-! # Where stored bits land

A slice as a target reads all of what it is a slice of and writes it back, signals besides the
wanted ones included. Still each bit lands in one signal only, so what a store does to some signals
does not depend on the others.
-/
namespace Gateware

mutual
/-- Whether a bit of a target can land in one of the signals; in a selection every bit can. -/
def Value.Lands (on : Nat → Prop) : Value → Nat → Prop
  | .signal s, _ => on s.id
  | .slice value start stop, j => j < stop - start ∧ value.Lands on (start + j)
  | .concat parts, j => Value.PartLands on parts j
  | .select _ _, _ => True
  | .const _, _ | .clock _, _ | .reset _, _ | .op _ _, _ | .repl _ _, _ => False

def Value.PartLands (on : Nat → Prop) : List Value → Nat → Prop
  | [], _ => False
  | v :: vs, j => (j < v.width ∧ v.Lands on j) ∨ (v.width ≤ j ∧ Value.PartLands on vs (j - v.width))
end

theorem testBit_mergeBits (current bits start stop q : Nat) :
    (mergeBits current bits start stop).testBit q =
      if q < wordBits ∧ start ≤ q ∧ q - start < stop - start then bits.testBit (q - start)
      else current.testBit q := by
  have hshift : ∀ raw, (Bits.shiftLeft raw start).testBit q =
      (decide (q < wordBits ∧ start ≤ q) && raw.testBit (q - start)) := by
    intro raw
    unfold Bits.shiftLeft
    split
    · simp only [Nat.one_shiftLeft, Nat.testBit_mod_two_pow, Nat.testBit_shiftLeft,
        Bool.decide_and, Bool.and_assoc, ge_iff_le]
    · have : ¬ (q < wordBits ∧ start ≤ q) := by omega
      simp [this]
  simp only [mergeBits, Nat.testBit_or, Nat.testBit_xor, Nat.testBit_and, hshift,
    Bits.testBit_truncate, Bits.mask, Nat.one_shiftLeft, Nat.testBit_two_pow_sub_one]
  by_cases hq : q < wordBits ∧ start ≤ q
  · by_cases hw : q - start < stop - start
    · have hmin : q - start < min (stop - start) wordBits := by omega
      simp [hq, hw, hmin]
    · have hmin : ¬ q - start < min (stop - start) wordBits := by omega
      simp [hw, hmin]
  · have hnot : ¬ (q < wordBits ∧ start ≤ q ∧ q - start < stop - start) := fun h => hq ⟨h.1, h.2.1⟩
    simp [hq, hnot]

section

variable {on : Nat → Prop} {a b : State}

theorem Value.evalParts_landing {vs : List Value}
    (h : ∀ v ∈ vs, ∀ x y j, v.eval a = .ok x → v.eval b = .ok y → v.Lands on j →
      x.testBit j = y.testBit j) {x y j : Nat}
    (hx : Value.evalParts a vs = .ok x) (hy : Value.evalParts b vs = .ok y)
    (hj : Value.PartLands on vs j) : x.testBit j = y.testBit j := by
  induction vs generalizing x y j with
  | nil => cases hj
  | cons v vs ih =>
    obtain ⟨low, hlow, high, hhigh, rfl⟩ := Value.evalParts_cons_eq_ok.mp hx
    obtain ⟨low', hlow', high', hhigh', rfl⟩ := Value.evalParts_cons_eq_ok.mp hy
    simp only [Nat.testBit_or, Nat.testBit_shiftLeft]
    rcases hj with ⟨hlt, hj⟩ | ⟨hle, hj⟩
    · rw [h v List.mem_cons_self _ _ _ hlow hlow' hj]
      simp [Nat.not_le.mpr hlt]
    · have hout : ∀ {raw : Nat}, raw < 2 ^ v.width → raw.testBit j = false := fun hraw =>
        Nat.testBit_lt_two_pow (hraw.trans_le (Nat.pow_le_pow_right Nat.two_pos hle))
      rw [hout (Value.eval_fits hlow).2, hout (Value.eval_fits hlow').2,
        ih (fun u hu => h u (List.mem_cons_of_mem _ hu)) hhigh hhigh' hj]

/-- A value read as a target has the same bits wherever they belong to signals on which two states
agree. -/
theorem Value.eval_landing {v : Value} (hs : v.selects = false) (hab : a.AgreeOn on b) {x y j : Nat}
    (hx : v.eval a = .ok x) (hy : v.eval b = .ok y) (hj : v.Lands on j) :
    x.testBit j = y.testBit j := by
  induction v generalizing x y j with
  | const c | clock d | reset d | op o vs _ | repl v count _ => cases hj
  | signal s =>
    obtain ⟨-, rfl⟩ := Value.eval_signal_eq_ok.mp hx
    obtain ⟨-, rfl⟩ := Value.eval_signal_eq_ok.mp hy
    rw [hab.get hj]
  | slice v start stop ih =>
    obtain ⟨-, inner, hin, rfl⟩ := Value.eval_slice_eq_ok.mp hx
    obtain ⟨-, inner', hin', rfl⟩ := Value.eval_slice_eq_ok.mp hy
    simp only [Bits.testBit_truncate, Nat.testBit_shiftRight, ih hs hin hin' hj.2]
  | concat vs ih =>
    obtain ⟨-, inner, hin, rfl⟩ := Value.eval_concat_eq_ok.mp hx
    obtain ⟨-, inner', hin', rfl⟩ := Value.eval_concat_eq_ok.mp hy
    have hvs := Value.anySelects_eq_false.mp hs
    rw [Bits.testBit_truncate, Bits.testBit_truncate,
      Value.evalParts_landing (fun v hv x y j => ih v hv (hvs v hv)) hin hin' hj]
  | select row index _ _ => cases hs

end

theorem Value.plainSlices_of_selects {v : Value} (h : v.selects = false) :
    v.plainSlices = true := by
  induction v with
  | const c | signal s | clock d | reset d | op o vs _ | repl v count _ => rfl
  | slice v start stop _ =>
    rw [Value.plainSlices, Bool.not_eq_true']
    exact h
  | concat vs ih =>
    exact Value.allPlainSlices_iff.mpr fun v hv => ih v hv (Value.anySelects_eq_false.mp h v hv)
  | select row index _ _ => cases h

section

variable {on : Nat → Prop} {read read' : State}

/-- Storing in the target depends, as far as the given signals go, on their entries and on the bits
that land in them. -/
def Value.StoresWithin (on : Nat → Prop) (read read' : State) (t : Value) : Prop :=
  ∀ {x y : Nat} {write write' out out' : State},
    (∀ j, t.Lands on j → x.testBit j = y.testBit j) → write.AgreeOn on write' →
    t.store read x write = .ok out → t.store read' y write' = .ok out' → out.AgreeOn on out'

theorem Value.storeParts_within {vs : List Value} (h : ∀ v ∈ vs, v.StoresWithin on read read')
    {x y : Nat} {write write' out out' : State}
    (hbits : ∀ j, Value.PartLands on vs j → x.testBit j = y.testBit j)
    (hw : write.AgreeOn on write') (he : Value.storeParts read vs x write = .ok out)
    (he' : Value.storeParts read' vs y write' = .ok out') : out.AgreeOn on out' := by
  induction vs generalizing x y write write' with
  | nil =>
    cases he
    cases he'
    exact hw
  | cons v vs ih =>
    obtain ⟨next, hv, hvs⟩ := Value.storeParts_cons_eq_ok.mp he
    obtain ⟨next', hv', hvs'⟩ := Value.storeParts_cons_eq_ok.mp he'
    refine ih (fun u hu => h u (List.mem_cons_of_mem _ hu)) (fun j hj => ?_) ?_ hvs hvs'
    · have hj' : Value.PartLands on (v :: vs) (v.width + j) :=
        Or.inr ⟨Nat.le_add_right _ _, by rwa [Nat.add_sub_cancel_left]⟩
      rw [Nat.testBit_shiftRight, Nat.testBit_shiftRight, hbits _ hj']
    · refine h v List.mem_cons_self (fun j hj => ?_) hw hv hv'
      simp only [Bits.testBit_truncate]
      by_cases hlt : j < v.width
      · rw [hbits j (Or.inl ⟨hlt, hj⟩)]
      · have hmin : ¬ j < min v.width wordBits := by omega
        simp [hmin]

/-- Stores that read the same indices keep states together on any set of signals. -/
theorem Value.storesWithin {t : Value} (hp : t.plainSlices = true)
    (hread : ∀ s ∈ t.addressSignals, read.get s = read'.get s) : t.StoresWithin on read read' := by
  induction t with
  | const c | clock d | reset d | op o vs _ | repl v count _ =>
    intro _ _ _ _ _ _ _ _ he
    cases he
  | signal s =>
    intro x y write write' out out' hbits hw he he' i hi
    cases he
    cases he'
    simp only [State.entry_setBits]
    split
    · rename_i hs
      have hxy : x = y := Nat.eq_of_testBit_eq fun j => hbits j (show on s.id by rwa [hs])
      rw [hxy]
    · exact hw i hi
  | slice v start stop ih =>
    intro x y write write' out out' hbits hw he he'
    obtain ⟨current, hc, he⟩ := Value.store_slice_eq_ok.mp he
    obtain ⟨current', hc', he'⟩ := Value.store_slice_eq_ok.mp he'
    have hs : v.selects = false := by simpa [Value.plainSlices] using hp
    -- outside the field the stored bits are those read back, which agree where they land in `on`
    refine ih (Value.plainSlices_of_selects hs) hread (fun q hq => ?_) hw he he'
    simp only [testBit_mergeBits]
    split
    · rename_i h
      refine hbits _ ⟨h.2.2, ?_⟩
      rwa [Nat.add_sub_cancel' h.2.1]
    · exact Value.eval_landing hs hw hc hc' hq
  | concat vs ih =>
    intro x y write write' out out' hbits hw he he'
    refine Value.storeParts_within (fun v hv => ?_) hbits hw he he'
    refine ih v hv (Value.allPlainSlices_iff.mp hp v hv) fun s hs => hread s ?_
    rw [Value.addressSignals, Value.allAddressSignals_eq]
    exact List.mem_flatMap_of_mem hv hs
  | select row index ihr _ =>
    intro x y write write' out out' hbits hw he he'
    obtain ⟨n, hn, u, hu, he⟩ := Value.store_select_eq_ok.mp he
    obtain ⟨n', hn', u', hu', he'⟩ := Value.store_select_eq_ok.mp he'
    rw [Value.number_congr fun s hs => hread s (List.mem_append_left _ hs), hn'] at hn
    cases hn
    rw [hu'] at hu
    cases hu
    have hmem := Row.mem_leaves (List.mem_of_getElem? hu')
    refine ihr u hmem (Row.plainSlices_leaves hp u hmem) (fun s hs => hread s ?_)
      (fun j _ => hbits j trivial) hw he he'
    rw [Value.addressSignals, Row.addressSignals_eq]
    exact List.mem_append_right _ (List.mem_flatMap_of_mem hmem hs)

end

end Gateware
