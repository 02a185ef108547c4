import Gateware.Eval.Block
import Gateware.Proofs.Eval.Value
import Gateware.Proofs.Induction

/-! # When stores and statements succeed

A store in a selection is a store in the element at the place of the index. A statement runs what
its condition or selector chooses, and a block runs its statements one after the other.
-/
namespace Gateware

theorem Row.storeAt_eq (read : State) (row : Row) (i bits : Nat) (write : State) :
    Row.storeAt read row i bits write =
      row[min i (row.length - 1)]?.bind fun e => Element.store read e bits write := by
  induction row generalizing i with
  | nil => simp [Row.storeAt]
  | cons e es ih =>
    cases es with
    | nil => simp [Row.storeAt]
    | cons f fs =>
      cases i with
      | zero => simp [Row.storeAt]
      | succ i =>
        rw [Row.storeAt, ih i]
        have hm : min (i + 1) ((e :: f :: fs).length - 1) = min i ((f :: fs).length - 1) + 1 := by
          simp only [List.length_cons]
          omega
        rw [hm, List.getElem?_cons_succ]

section

variable {read write out : State}

/-- Bits placed in the field of a slice, the others kept. -/
def mergeBits (current bits start stop : Nat) : Nat :=
  let field := Bits.shiftLeft (Bits.mask (stop - start)) start
  (current ^^^ (current &&& field)) |||
    Bits.shiftLeft (Bits.truncate bits (stop - start)) start

theorem Value.store_slice_eq_ok {v : Value} {start stop bits : Nat} :
    (Value.slice v start stop).store read bits write = .ok out ↔
      ∃ current, v.eval write = .ok current ∧
        v.store read (mergeBits current bits start stop) write = .ok out := by
  rw [Value.store, bind_eq_ok]
  rfl

theorem Value.storeParts_cons_eq_ok {v : Value} {vs : List Value} {bits : Nat} :
    Value.storeParts read (v :: vs) bits write = .ok out ↔
      ∃ next, v.store read (Bits.truncate bits v.width) write = .ok next ∧
        Value.storeParts read vs (bits >>> v.width) next = .ok out := by
  rw [Value.storeParts, bind_eq_ok]

theorem Value.store_select_eq_ok {row : Row} {index : Value} {bits : Nat} :
    (Value.select row index).store read bits write = .ok out ↔
      ∃ n, index.number read = .ok n ∧ ∃ u, row[row.place n]? = some (.value u) ∧
        u.store read bits write = .ok out := by
  rw [Value.store, bind_eq_ok]
  refine exists_congr fun n => and_congr_right fun _ => ?_
  rw [Row.storeAt_eq, ← Row.place]
  cases row[row.place n]? with
  | none => simp
  | some e =>
    cases e with
    | value u => simp [Element.store]
    | row es => simp [Element.store]

theorem Statement.execute_assign_eq_ok {target source : Value} :
    (Statement.assign target source).execute read write = .ok out ↔
      ∃ n, source.number read = .ok n ∧ target.store read (Bits.ofInt n) write = .ok out := by
  rw [Statement.execute, bind_eq_ok]

theorem Statement.execute_branch_eq_ok {condition : Value} {taken : Block}
    {otherwise : Option Block} :
    (Statement.branch condition taken otherwise).execute read write = .ok out ↔
      ∃ bits, condition.eval read = .ok bits ∧
        (if bits ≠ 0 then Block.execute read taken write
          else Block.executeOtherwise read otherwise write) = .ok out := by
  rw [Statement.execute, bind_eq_ok]

theorem Statement.execute_switch_eq_ok {selector : Value} {cases : List Case} :
    (Statement.switch selector cases).execute read write = .ok out ↔
      ∃ bits, selector.eval read = .ok bits ∧
        Case.execute read bits selector.width cases write = .ok out := by
  rw [Statement.execute, bind_eq_ok]

theorem Block.execute_cons_eq_ok {s : Statement} {rest : Block} :
    Block.execute read (s :: rest) write = .ok out ↔
      ∃ next, s.execute read write = .ok next ∧ Block.execute read rest next = .ok out := by
  rw [Block.execute, bind_eq_ok]

theorem Block.execute_singleton (s : Statement) :
    Block.execute read [s] write = s.execute read write := by
  simp only [Block.execute]
  cases s.execute read write <;> rfl

end

/-! ## Two runs side by side -/

section

variable {R : State → State → Prop} {read read' : State}

/-- Run from related states, two statements that succeed end in related states. -/
def Statement.Related (R : State → State → Prop) (read read' : State) (s s' : Statement) : Prop :=
  ∀ write write' out out', R write write' → s.execute read write = .ok out →
    s'.execute read' write' = .ok out' → R out out'

theorem Block.execute_related {block block' : Block}
    (h : List.Forall₂ (Statement.Related R read read') block block')
    {write write' out out' : State} (hw : R write write')
    (he : Block.execute read block write = .ok out)
    (he' : Block.execute read' block' write' = .ok out') : R out out' := by
  induction h generalizing write write' with
  | nil =>
    cases he
    cases he'
    exact hw
  | cons hs _ ih =>
    obtain ⟨next, hnext, hrest⟩ := Block.execute_cons_eq_ok.mp he
    obtain ⟨next', hnext', hrest'⟩ := Block.execute_cons_eq_ok.mp he'
    exact ih (hs _ _ _ _ hw hnext hnext') hrest hrest'

theorem Case.execute_related {cases cases' : List Case} {bits width : Nat}
    (h : List.Forall₂ (fun c c' : Case => c'.patterns = c.patterns ∧
      List.Forall₂ (Statement.Related R read read') c.body c'.body) cases cases')
    {write write' out out' : State} (hw : R write write')
    (he : Case.execute read bits width cases write = .ok out)
    (he' : Case.execute read' bits width cases' write' = .ok out') : R out out' := by
  induction h with
  | nil =>
    cases he
    cases he'
    exact hw
  | @cons c c' _ _ hc _ ih =>
    obtain ⟨patterns, body⟩ := c
    obtain ⟨patterns', body'⟩ := c'
    obtain ⟨hpatterns, hbody⟩ := hc
    have hfits : (Case.mk patterns' body').fits bits width =
        (Case.mk patterns body).fits bits width := by
      unfold Case.fits Case.isDefault
      rw [hpatterns]
    rw [Case.execute] at he he'
    rw [hfits] at he'
    split at he
    · rename_i hfit
      rw [if_pos hfit] at he'
      exact Block.execute_related hbody hw he he'
    · rename_i hfit
      rw [if_neg hfit] at he'
      exact ih he he'

end

end Gateware
