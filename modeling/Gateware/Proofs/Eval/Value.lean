import Gateware.Proofs.Bits

/-! # When values have a meaning

Evaluation of each kind of value succeeds exactly when its parts do and it is narrow enough. A
selection means the element at the place that `Row.place` gives: the index where the row has that
position, and the last element otherwise.
-/
namespace Gateware

/-- The place in a row that the value of an index selects. -/
def Row.place (row : Row) (n : Int) : Nat :=
  min (if 0 ≤ n then n.toNat else row.length) (row.length - 1)

theorem Row.evalAt_eq (st : State) (row : Row) (i : Nat) :
    Row.evalAt st row i = row[min i (row.length - 1)]?.bind (Element.eval st) := by
  induction row generalizing i with
  | nil => simp [Row.evalAt]
  | cons e es ih =>
    cases es with
    | nil => simp [Row.evalAt]
    | cons f fs =>
      cases i with
      | zero => simp [Row.evalAt]
      | succ i =>
        rw [Row.evalAt, ih i]
        have hm : min (i + 1) ((e :: f :: fs).length - 1) = min i ((f :: fs).length - 1) + 1 := by
          simp only [List.length_cons]
          omega
        rw [hm, List.getElem?_cons_succ]

/-- A computation refused above a limit succeeds exactly within the limit. -/
theorem guarded_eq_ok {width : Nat} {e : EvalError} {x : Except EvalError Nat} {bits : Nat} :
    (if evalLimit < width then .error e else x) = .ok bits ↔
      width ≤ evalLimit ∧ x = .ok bits := by
  by_cases hw : evalLimit < width
  · simp [hw]
  · simp [hw, Nat.le_of_not_lt hw]

section

variable {st : State} {v : Value} {vs : List Value} {bits : Nat}

theorem Value.number_eq_ok {n : Int} :
    v.number st = .ok n ↔ ∃ bits, v.eval st = .ok bits ∧ v.shape.read bits = n := by
  simp only [Value.number, bind_eq_ok, pure, Except.pure, Except.ok.injEq]

theorem Value.eval_const_eq_ok {c : Const} :
    (Value.const c).eval st = .ok bits ↔
      c.shape.width ≤ evalLimit ∧ Bits.truncate c.bits c.shape.width = bits := by
  rw [Value.eval, guarded_eq_ok, Except.ok.injEq]

theorem Value.eval_signal_eq_ok {s : Signal} :
    (Value.signal s).eval st = .ok bits ↔
      s.width ≤ evalLimit ∧ Bits.truncate (st.get s) s.width = bits := by
  rw [Value.eval, guarded_eq_ok, Except.ok.injEq]
  rfl

theorem Value.eval_op_eq_ok {o : Op} :
    (Value.op o vs).eval st = .ok bits ↔
      (Value.op o vs).width ≤ evalLimit ∧ ∃ ns, Value.evalAll st vs = .ok ns ∧
        ∃ n, o.compute ns = some n ∧
          Bits.truncate (Bits.ofInt n) (Value.op o vs).width = bits := by
  rw [Value.eval, guarded_eq_ok, bind_eq_ok]
  refine and_congr_right fun _ => exists_congr fun ns => and_congr_right fun _ => ?_
  cases o.compute ns with
  | none => simp
  | some n => simp

theorem Value.eval_slice_eq_ok {start stop : Nat} :
    (Value.slice v start stop).eval st = .ok bits ↔
      stop - start ≤ evalLimit ∧ ∃ inner, v.eval st = .ok inner ∧
        Bits.truncate (inner >>> start) (stop - start) = bits := by
  rw [Value.eval, guarded_eq_ok, bind_eq_ok]
  simp only [Except.ok.injEq]

theorem Value.eval_concat_eq_ok :
    (Value.concat vs).eval st = .ok bits ↔
      Value.totalWidth vs ≤ evalLimit ∧ ∃ inner, Value.evalParts st vs = .ok inner ∧
        Bits.truncate inner (Value.totalWidth vs) = bits := by
  rw [Value.eval, guarded_eq_ok, bind_eq_ok]
  simp only [Except.ok.injEq, Value.width, Value.shape, Shape.ofUnsigned]

theorem Value.eval_repl_eq_ok {count : Nat} :
    (Value.repl v count).eval st = .ok bits ↔
      (Value.repl v count).width ≤ evalLimit ∧ ∃ inner, v.eval st = .ok inner ∧
        Bits.truncate (if v.width = 0 then 0 else repeatBits inner v.width count)
          (Value.repl v count).width = bits := by
  rw [Value.eval, guarded_eq_ok, bind_eq_ok]
  simp only [Except.ok.injEq]

theorem Element.eval_eq_some {e : Element} {r : Except EvalError Int} :
    Element.eval st e = some r ↔ ∃ u, e = .value u ∧ u.number st = r := by
  cases e with
  | value u =>
    simp only [Element.eval, Option.some.injEq, Element.value.injEq, exists_eq_left']
    rfl
  | row es => simp [Element.eval]

/-- A selection means the number of the element in its place, cut to the shape of the row. -/
theorem Value.eval_select_eq_ok {row : Row} {index : Value} :
    (Value.select row index).eval st = .ok bits ↔
      (Value.select row index).width ≤ evalLimit ∧ ∃ n, index.number st = .ok n ∧
        ∃ u, row[row.place n]? = some (.value u) ∧ ∃ m, u.number st = .ok m ∧
          Bits.truncate (Bits.ofInt m) (Value.select row index).width = bits := by
  rw [Value.eval, guarded_eq_ok, bind_eq_ok]
  refine and_congr_right fun _ => ?_
  simp only [Row.evalAt_eq]
  constructor
  · rintro ⟨b, hb, h⟩
    refine ⟨_, Value.number_eq_ok.mpr ⟨b, hb, rfl⟩, ?_⟩
    split at h
    · rename_i r hr
      obtain ⟨e, he, hr⟩ := Option.bind_eq_some_iff.mp hr
      obtain ⟨u, rfl, rfl⟩ := Element.eval_eq_some.mp hr
      obtain ⟨m, hm, h⟩ := bind_eq_ok.mp h
      exact ⟨u, he, m, hm, Except.ok.inj h⟩
    · cases h
  · rintro ⟨n, hn, u, hu, m, hm, h⟩
    obtain ⟨b, hb, rfl⟩ := Value.number_eq_ok.mp hn
    refine ⟨b, hb, ?_⟩
    unfold Row.place at hu
    simp only [hu, Option.bind_some, Element.eval_eq_some.mpr ⟨u, rfl, hm⟩]
    exact congrArg Except.ok h

theorem Value.evalAll_nil_eq_ok {ns : List Int} : Value.evalAll st [] = .ok ns ↔ [] = ns := by
  simp only [Value.evalAll, Except.ok.injEq]

theorem Value.evalAll_cons_eq_ok {ns : List Int} :
    Value.evalAll st (v :: vs) = .ok ns ↔
      ∃ n, v.number st = .ok n ∧ ∃ rest, Value.evalAll st vs = .ok rest ∧ n :: rest = ns := by
  simp only [Value.evalAll, bind_eq_ok, Except.ok.injEq, Value.number_eq_ok]
  constructor
  · rintro ⟨bits, hb, rest, hr, h⟩
    exact ⟨_, ⟨bits, hb, rfl⟩, rest, hr, h⟩
  · rintro ⟨_, ⟨bits, hb, rfl⟩, rest, hr, h⟩
    exact ⟨bits, hb, rest, hr, h⟩

theorem Value.evalParts_cons_eq_ok :
    Value.evalParts st (v :: vs) = .ok bits ↔
      ∃ low, v.eval st = .ok low ∧ ∃ high, Value.evalParts st vs = .ok high ∧
        low ||| (high <<< v.width) = bits := by
  simp only [Value.evalParts, bind_eq_ok, Except.ok.injEq]

/-- The bits of a value fit its width, which is within the limit. -/
theorem Value.eval_fits (h : v.eval st = .ok bits) : v.width ≤ evalLimit ∧ bits < 2 ^ v.width := by
  cases v with
  | const c =>
    obtain ⟨hw, rfl⟩ := Value.eval_const_eq_ok.mp h
    exact ⟨hw, Bits.truncate_lt _ _⟩
  | signal s =>
    obtain ⟨hw, rfl⟩ := Value.eval_signal_eq_ok.mp h
    exact ⟨hw, Bits.truncate_lt _ _⟩
  | clock d | reset d => simp at h
  | op o operands =>
    obtain ⟨hw, _, -, _, -, rfl⟩ := Value.eval_op_eq_ok.mp h
    exact ⟨hw, Bits.truncate_lt _ _⟩
  | slice u start stop =>
    obtain ⟨hw, _, -, rfl⟩ := Value.eval_slice_eq_ok.mp h
    exact ⟨hw, Bits.truncate_lt _ _⟩
  | concat parts =>
    obtain ⟨hw, _, -, rfl⟩ := Value.eval_concat_eq_ok.mp h
    exact ⟨hw, Bits.truncate_lt _ _⟩
  | repl u count =>
    obtain ⟨hw, _, -, rfl⟩ := Value.eval_repl_eq_ok.mp h
    exact ⟨hw, Bits.truncate_lt _ _⟩
  | select row index =>
    obtain ⟨hw, _, -, _, -, _, -, rfl⟩ := Value.eval_select_eq_ok.mp h
    exact ⟨hw, Bits.truncate_lt _ _⟩

def Value.HasBits (st : State) (v : Value) : Prop := ∃ bits, v.eval st = .ok bits

theorem Value.HasBits.number (h : v.HasBits st) : ∃ n, v.number st = .ok n := by
  obtain ⟨bits, hbits⟩ := h
  exact ⟨_, Value.number_eq_ok.mpr ⟨bits, hbits, rfl⟩⟩

theorem Value.evalAll_of_hasBits (h : ∀ v ∈ vs, v.HasBits st) :
    ∃ ns, Value.evalAll st vs = .ok ns := by
  induction vs with
  | nil => exact ⟨[], rfl⟩
  | cons v vs ih =>
    obtain ⟨hv, hvs⟩ := List.forall_mem_cons.mp h
    obtain ⟨n, hn⟩ := hv.number
    obtain ⟨ns, hns⟩ := ih hvs
    exact ⟨n :: ns, Value.evalAll_cons_eq_ok.mpr ⟨n, hn, ns, hns, rfl⟩⟩

theorem Value.evalParts_of_hasBits (h : ∀ v ∈ vs, v.HasBits st) :
    ∃ bits, Value.evalParts st vs = .ok bits := by
  induction vs with
  | nil => exact ⟨0, rfl⟩
  | cons v vs ih =>
    obtain ⟨⟨low, hlow⟩, hvs⟩ := List.forall_mem_cons.mp h
    obtain ⟨high, hhigh⟩ := ih hvs
    exact ⟨_, Value.evalParts_cons_eq_ok.mpr ⟨low, hlow, high, hhigh, rfl⟩⟩

end

end Gateware
