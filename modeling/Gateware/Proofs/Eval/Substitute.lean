import Gateware.Proofs.Eval.Errors
import Gateware.Proofs.Eval.Frame
import Gateware.Proofs.Lower.Read

/-! # Substitution and assignment agree

A signal replaced by an expression means what the signal means once it is set to the bits of the
expression. The shapes of all values around it stay, since the expression has the shape of the
signal, and so do all widths, signs and limits that evaluation looks at.
-/
namespace Gateware

/-! ## Values that mirror others -/

/-- One value has in a state the outcome that another has in a second state, and its shape. -/
structure Value.Mirrors (a b : State) (v' v : Value) : Prop where
  shape : v'.shape = v.shape
  outcome : outcome (v'.eval a) = outcome (v.eval b)

section

variable {a b : State} {g : Value → Value} {vs : List Value}

theorem Value.Mirrors.width {v' v : Value} (h : v'.Mirrors a b v) : v'.width = v.width :=
  congrArg Shape.width h.shape

theorem Value.shapes_mirrors (h : ∀ v ∈ vs, (g v).Mirrors a b v) :
    Value.shapes (vs.map g) = Value.shapes vs := by
  induction vs with
  | nil => rfl
  | cons v vs ih =>
    obtain ⟨hv, hvs⟩ := List.forall_mem_cons.mp h
    rw [List.map_cons, Value.shapes, Value.shapes, hv.shape, ih hvs]

theorem Value.totalWidth_mirrors (h : ∀ v ∈ vs, (g v).Mirrors a b v) :
    Value.totalWidth (vs.map g) = Value.totalWidth vs := by
  induction vs with
  | nil => rfl
  | cons v vs ih =>
    obtain ⟨hv, hvs⟩ := List.forall_mem_cons.mp h
    rw [List.map_cons, Value.totalWidth, Value.totalWidth, hv.shape, ih hvs]

theorem Value.evalAll_mirrors (h : ∀ v ∈ vs, (g v).Mirrors a b v) :
    outcome (Value.evalAll a (vs.map g)) = outcome (Value.evalAll b vs) := by
  induction vs with
  | nil => rfl
  | cons v vs ih =>
    obtain ⟨hv, hvs⟩ := List.forall_mem_cons.mp h
    rw [List.map_cons, Value.evalAll, Value.evalAll, hv.shape]
    apply outcome_bind_congr hv.outcome
    intro bits
    apply outcome_bind_congr (ih hvs)
    intro rest
    rfl

theorem Value.evalParts_mirrors (h : ∀ v ∈ vs, (g v).Mirrors a b v) :
    outcome (Value.evalParts a (vs.map g)) = outcome (Value.evalParts b vs) := by
  induction vs with
  | nil => rfl
  | cons v vs ih =>
    obtain ⟨hv, hvs⟩ := List.forall_mem_cons.mp h
    rw [List.map_cons, Value.evalParts, Value.evalParts, hv.width]
    apply outcome_bind_congr hv.outcome
    intro low
    apply outcome_bind_congr (ih hvs)
    intro high
    rfl

namespace Value.Mirrors

theorem op (o : Op) (h : ∀ v ∈ vs, (g v).Mirrors a b v) :
    (Value.op o (vs.map g)).Mirrors a b (.op o vs) := by
  have hshape : (Value.op o (vs.map g)).shape = (Value.op o vs).shape :=
    congrArg o.resultShape (Value.shapes_mirrors h)
  refine ⟨hshape, ?_⟩
  rw [Value.eval, Value.eval, Value.width, Value.width, hshape]
  apply outcome_guarded
  intro _
  apply outcome_bind_congr (Value.evalAll_mirrors h)
  intro ns
  cases o.compute ns with
  | none => rfl
  | some n => rfl

theorem slice {v' v : Value} (start stop : Nat) (h : v'.Mirrors a b v) :
    (Value.slice v' start stop).Mirrors a b (.slice v start stop) := by
  refine ⟨rfl, ?_⟩
  rw [Value.eval, Value.eval]
  apply outcome_guarded
  intro _
  apply outcome_bind_congr h.outcome
  intro bits
  rfl

theorem concat (h : ∀ v ∈ vs, (g v).Mirrors a b v) :
    (Value.concat (vs.map g)).Mirrors a b (.concat vs) := by
  have hshape : (Value.concat (vs.map g)).shape = (Value.concat vs).shape :=
    congrArg Shape.ofUnsigned (Value.totalWidth_mirrors h)
  refine ⟨hshape, ?_⟩
  rw [Value.eval, Value.eval, Value.width, Value.width, hshape]
  apply outcome_guarded
  intro _
  apply outcome_bind_congr (Value.evalParts_mirrors h)
  intro bits
  rfl

theorem repl {v' v : Value} (count : Nat) (h : v'.Mirrors a b v) :
    (Value.repl v' count).Mirrors a b (.repl v count) := by
  have hshape : (Value.repl v' count).shape = (Value.repl v count).shape := by
    rw [Value.shape, Value.shape, h.shape]
  refine ⟨hshape, ?_⟩
  rw [Value.eval, Value.eval, h.width, Value.width, Value.width, hshape]
  apply outcome_guarded
  intro _
  apply outcome_bind_congr h.outcome
  intro bits
  rfl

end Value.Mirrors

end

/-! ## Rows -/

section

variable {a b : State} {f : Value → Value}

mutual
/-- A row keeps its shape if its leaves do. -/
theorem Row.shape_rebuild_of : ∀ row : List Element,
    (∀ v ∈ Row.leaves row, (v.rebuild f).shape = v.shape) →
      Row.shape (Row.rebuild f row) = Row.shape row
  | [], _ => rfl
  | e :: es, h => by
    obtain ⟨he, hes⟩ := List.forall_mem_append.mp h
    rw [Row.rebuild, Row.shape, Row.shape, Element.shape_rebuild_of e he,
      Row.shape_rebuild_of es hes]

theorem Element.shape_rebuild_of : ∀ e : Element,
    (∀ v ∈ Element.leaves e, (v.rebuild f).shape = v.shape) →
      Element.shape (Element.rebuild f e) = Element.shape e
  | .value v, h => h v (List.mem_singleton.mpr rfl)
  | .row es, h => Row.shape_rebuild_of es h
end

theorem Row.evalAt_mirrors {row : Row} (h : ∀ v ∈ Row.leaves row, (v.rebuild f).Mirrors a b v)
    (i : Nat) :
    (Row.evalAt a (Row.rebuild f row) i).map outcome = (Row.evalAt b row i).map outcome := by
  rw [Row.evalAt_eq, Row.evalAt_eq, Row.rebuild_eq_map, List.length_map, List.getElem?_map]
  cases hplace : row[min i (row.length - 1)]? with
  | none => rfl
  | some e =>
    cases e with
    | row es => rfl
    | value v =>
      have hv := h v (Row.mem_leaves (List.mem_of_getElem? hplace))
      apply congrArg some
      rw [hv.shape]
      apply outcome_bind_congr hv.outcome
      intro bits
      rfl

theorem Value.Mirrors.select {row : Row} {index' index : Value}
    (hrow : ∀ v ∈ Row.leaves row, (v.rebuild f).Mirrors a b v) (hindex : index'.Mirrors a b index) :
    (Value.select (Row.rebuild f row) index').Mirrors a b (.select row index) := by
  have hshape : (Value.select (Row.rebuild f row) index').shape =
      (Value.select row index).shape := Row.shape_rebuild_of row fun v hv => (hrow v hv).shape
  have hlength : (Row.rebuild f row).length = row.length := by
    rw [Row.rebuild_eq_map, List.length_map]
  refine ⟨hshape, ?_⟩
  rw [Value.eval, Value.eval, Value.width, Value.width, hshape, hindex.shape, hlength]
  apply outcome_guarded
  intro _
  apply outcome_bind_congr hindex.outcome
  intro bits
  have hat := Row.evalAt_mirrors hrow
    (if 0 ≤ index.shape.read bits then (index.shape.read bits).toNat else row.length)
  dsimp only
  revert hat
  generalize Row.evalAt a (Row.rebuild f row) _ = x
  generalize Row.evalAt b row _ = y
  intro hat
  cases x with
  | none =>
    cases y with
    | none => rfl
    | some y => cases hat
  | some x =>
    cases y with
    | none => cases hat
    | some y =>
      apply outcome_bind_congr (Option.some.inj hat)
      intro n
      rfl

end

/-! ## Substitution -/

def Signal.replaceNode (s : Signal) (e : Value) : Value → Value
  | .signal t => if t.same s then e else .signal t
  | v => v

section

variable {s : Signal} {e : Value}

theorem Value.substitute_eq (v : Value) (s : Signal) (e : Value) :
    v.substitute s e = v.rebuild (s.replaceNode e) := rfl

theorem Value.substitute_op (o : Op) (vs : List Value) :
    (Value.op o vs).substitute s e = .op o (vs.map fun v => v.substitute s e) := by
  simp only [Value.substitute_eq, Value.rebuild, Value.rebuildAll_eq_map]
  rfl

theorem Value.substitute_concat (vs : List Value) :
    (Value.concat vs).substitute s e = .concat (vs.map fun v => v.substitute s e) := by
  simp only [Value.substitute_eq, Value.rebuild, Value.rebuildAll_eq_map]
  rfl

theorem Value.substitute_select (row : Row) (index : Value) :
    (Value.select row index).substitute s e =
      .select (Row.rebuild (s.replaceNode e) row) (index.substitute s e) := by
  simp only [Value.substitute_eq, Value.rebuild]
  rfl

variable {st : State} {r : Nat}

/-- A handle of the replaced signal. -/
theorem Value.substitute_handle {t : Signal} (hshape : e.shape = s.shape) (hr : e.eval st = .ok r)
    (hid : t.id = s.id) (ht : t.shape = s.shape) :
    ((Value.signal t).substitute s e).Mirrors st (st.setBits s r) (.signal t) := by
  obtain ⟨hlimit, hfits⟩ := Value.eval_fits hr
  have hwidth : e.width = t.width := congrArg Shape.width (hshape.trans ht.symm)
  have hsame : s.width = t.width := congrArg Shape.width ht.symm
  rw [hwidth] at hlimit hfits
  have hreplaced : (Value.signal t).substitute s e = e := by
    simp [Value.substitute_eq, Value.rebuild, Signal.replaceNode, Signal.same, hid]
  have hset : (Value.signal t).eval (st.setBits s r) = .ok r := by
    have hword : t.width ≤ wordBits := hlimit.trans (by decide)
    have hcut : Bits.truncate r t.width = r := Bits.truncate_of_lt hword hfits
    rw [Value.eval_signal_eq_ok, State.get_setBits, if_pos hid.symm, hsame, hcut]
    exact ⟨hlimit, hcut⟩
  rw [hreplaced]
  refine ⟨hshape.trans ht.symm, ?_⟩
  rw [hr, hset]

/-- Any other signal is left alone by both. -/
theorem Value.substitute_other {t : Signal} (hid : t.id ≠ s.id) :
    ((Value.signal t).substitute s e).Mirrors st (st.setBits s r) (.signal t) := by
  have hkept : (Value.signal t).substitute s e = .signal t := by
    simp [Value.substitute_eq, Value.rebuild, Signal.replaceNode, Signal.same, hid]
  rw [hkept]
  refine ⟨rfl, ?_⟩
  rw [Value.eval, Value.eval, State.get_setBits, if_neg (Ne.symm hid)]

theorem Value.substitute_mirrors (hshape : e.shape = s.shape) (hr : e.eval st = .ok r) {v : Value}
    (handles : ∀ t ∈ v.signals, t.id = s.id → t.shape = s.shape) :
    (v.substitute s e).Mirrors st (st.setBits s r) v := by
  induction v with
  | const c | clock d | reset d => exact ⟨rfl, rfl⟩
  | signal t =>
    by_cases hid : t.id = s.id
    · exact Value.substitute_handle hshape hr hid (handles t (List.mem_singleton.mpr rfl) hid)
    · exact Value.substitute_other hid
  | op o vs ih =>
    rw [Value.substitute_op]
    apply Value.Mirrors.op
    intro v hv
    apply ih v hv
    intro t ht
    apply handles
    rw [Value.signals, Value.allSignals_eq]
    exact List.mem_flatMap_of_mem hv ht
  | slice v start stop ih => exact (ih handles).slice start stop
  | concat vs ih =>
    rw [Value.substitute_concat]
    apply Value.Mirrors.concat
    intro v hv
    apply ih v hv
    intro t ht
    apply handles
    rw [Value.signals, Value.allSignals_eq]
    exact List.mem_flatMap_of_mem hv ht
  | repl v count ih => exact (ih handles).repl count
  | select row index ihr ihi =>
    rw [Value.substitute_select]
    apply Value.Mirrors.select
    · intro v hv
      rw [← Value.substitute_eq]
      apply ihr v hv
      intro t ht
      apply handles
      rw [Value.signals, Row.signals_eq]
      exact List.mem_append_left _ (List.mem_flatMap_of_mem hv ht)
    · apply ihi
      intro t ht
      exact handles t (List.mem_append_right _ ht)

end

/-- The number of a value sets a signal of its shape to the bits of the value. -/
theorem State.set_number {s : Signal} {e : Value} {st : State} {r : Nat}
    (hshape : e.shape = s.shape) (hr : e.eval st = .ok r) :
    st.set s (e.shape.read r) = st.setBits s r := by
  have hback := Value.eval_of_number (Value.number_eq_ok.mpr ⟨r, hr, rfl⟩)
  obtain ⟨hlimit, hfits⟩ := Value.eval_fits hr
  have hwidth : e.width = s.width := congrArg Shape.width hshape
  rw [hr, Except.ok.injEq, hwidth] at hback
  rw [hwidth] at hlimit hfits
  have hcut : Bits.truncate r s.width = r :=
    Bits.truncate_of_lt (hlimit.trans (by decide)) hfits
  simp only [State.set, State.setBits, ← hback, hcut]

/-- Let an expression have the shape of a signal, of which all handles in a value have one shape,
and bits in a state. Then the value with the signal replaced by the expression has the shape of the
value itself, and in that state the outcome that the value has once the signal is set to those bits:
the same bits or an error of the same kind. To set the signal to the number of the expression sets
it to those bits. -/
theorem Value.eval_substitute {s : Signal} {e : Value} (shape : e.shape = s.shape) {st : State}
    {r : Nat} (evaluates : e.eval st = .ok r) {v : Value}
    (handles : ∀ t ∈ v.signals, t.id = s.id → t.shape = s.shape) :
    outcome ((v.substitute s e).eval st) = outcome (v.eval (st.setBits s r)) ∧
      (v.substitute s e).shape = v.shape ∧ st.set s (e.shape.read r) = st.setBits s r := by
  have hmirrors := Value.substitute_mirrors shape evaluates handles
  exact ⟨hmirrors.outcome, hmirrors.shape, State.set_number shape evaluates⟩

/-- The next count modulo eight, for a counter of three bits. -/
def nextCount : Value := .slice (.op .add [.signal (.named 0 "n" 3), .int 1]) 0 3

/-- The counter, under an older hint, divides what it selects; one place of the row is a row. -/
def countedRemainder : Value :=
  let n := Value.signal (.named 0 "n" 3)
  let a := Value.signal (.named 1 "a" 4)
  .op .mod [.op .add [.select [.value a, .row [.value n], .value n] n, a],
    .signal ((Signal.named 0 "n" 3).renamed "m")]

def countedState (count : Nat) : State :=
  (State.empty.setBits (.named 0 "n" 3) count).setBits (.named 1 "a" 4) 9

/-- With the next count for the counter there is a remainder after five, a division by zero after
seven and a whole row selected after zero. -/
theorem Value.eval_substitute_next :
    nextCount.shape = (Signal.named 0 "n" 3).shape ∧
      (∀ t ∈ countedRemainder.signals, t.id = 0 → t.shape = .ofUnsigned 3) ∧
      nextCount.eval (countedState 5) = .ok 6 ∧ nextCount.eval (countedState 7) = .ok 0 ∧
      nextCount.eval (countedState 0) = .ok 1 ∧
      let replaced := countedRemainder.substitute (.named 0 "n" 3) nextCount
      outcome (replaced.eval (countedState 5)) = .ok 3 ∧
        outcome (replaced.eval (countedState 7)) = .error .divisionByZero ∧
        outcome (replaced.eval (countedState 0)) = .error .nothingSelected := by
  have handles : ∀ t ∈ countedRemainder.signals, t.id = 0 → t.shape = .ofUnsigned 3 := by decide
  have hfive : nextCount.eval (countedState 5) = .ok 6 := rfl
  have hseven : nextCount.eval (countedState 7) = .ok 0 := rfl
  have hzero : nextCount.eval (countedState 0) = .ok 1 := rfl
  refine ⟨rfl, handles, hfive, hseven, hzero, ?_, ?_, ?_⟩
  · exact (Value.eval_substitute rfl hfive handles).1
  · exact (Value.eval_substitute rfl hseven handles).1
  · exact (Value.eval_substitute rfl hzero handles).1

end Gateware
