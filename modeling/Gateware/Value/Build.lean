import Gateware.Error

/-! # Building values with checks

The functions here refuse what no circuit can hold: operators with the wrong number of operands,
slices outside a value, repetitions that overflow a width, indices into rows that have no element.
Indexing a selection once more pushes the new index to every element of its row, so the outer
index is resolved first.
-/
namespace Gateware

def Value.int (value : Int) : Value := .const (.minimal value)

/-- The constant of a shape that is at most a word wide. -/
def Const.checked (value : Int) (shape : Shape) : Except ConstructionError Const :=
  if wordBits < shape.width then .error (.constWidth shape.width) else .ok (.wrap value shape)

def Value.constant (value : Int) (shape : Shape) : Except ConstructionError Value :=
  (Const.checked value shape).map .const

/-- An operator on exactly as many operands as it takes. -/
def Value.apply (op : Op) (operands : List Value) : Except ConstructionError Value :=
  if operands.length = op.arity then .ok (.op op operands)
  else .error (.operatorArity op operands.length)

/-- A bound that counts from the top if it is negative. -/
def fromTop (width : Nat) (bound : Int) : Int := if bound < 0 then bound + width else bound

/-- The bits from `start` up to, not including, `stop`. -/
def Value.bits (v : Value) (start stop : Int) : Except ConstructionError Value :=
  let s := fromTop v.width start
  let e := fromTop v.width stop
  if 0 ≤ s ∧ s ≤ e ∧ e ≤ v.width then .ok (.slice v s.toNat e.toNat)
  else .error (.sliceBounds start stop v.width)

def Value.bit (v : Value) (index : Int) : Except ConstructionError Value :=
  if -(v.width : Int) ≤ index ∧ index < v.width then
    let i := fromTop v.width index
    v.bits i (i + 1)
  else .error (.bitIndex index v.width)

/-- At least one copy, and no more than a width can count. -/
def Value.copies (v : Value) (count : Nat) : Except ConstructionError Value :=
  if count = 0 then .error (.replCount count)
  else if widthLimit < v.width * count then .error (.valueWidth (v.width * count))
  else .ok (.repl v count)

/-- The element at a position known while the design is built. -/
def Row.get (row : Row) (index : Nat) : Except ConstructionError Element :=
  match row[index]? with
  | some e => .ok e
  | none => .error (.rowIndex index row.length)

/-- The element at an index known only when the circuit runs. -/
def Row.index (row : Row) (index : Value) : Except ConstructionError Value :=
  if row.isEmpty then .error .emptyRow else .ok (.select row index)

mutual
/-- One more index on a selection whose elements are rows or selections again. -/
def Value.index : Value → Value → Except ConstructionError Value
  | .select row outer, index => do
    let inner ← Row.indexEach row index
    return .select inner outer
  | v, _ => .error (.notARow v)

def Row.indexEach : List Element → Value → Except ConstructionError (List Element)
  | [], _ => .ok []
  | e :: es, index => do
    let head ← Element.index e index
    let rest ← Row.indexEach es index
    return .value head :: rest

def Element.index : Element → Value → Except ConstructionError Value
  | .row elements, index => Row.index elements index
  | .value v, index => v.index index
end

/-! ## What may be assigned, and what is a value throughout -/

mutual
/-- Whether every part is a place: a signal, a clock, a reset, or bits, groups and selections of
places. -/
def Value.assignable : Value → Bool
  | .signal _ | .clock _ | .reset _ => true
  | .slice value _ _ => value.assignable
  | .concat parts => Value.allAssignable parts
  | .select row _ => Row.assignable row
  | .const _ | .op _ _ | .repl _ _ => false

def Value.allAssignable : List Value → Bool
  | [] => true
  | v :: vs => v.assignable && Value.allAssignable vs

def Row.assignable : List Element → Bool
  | [] => true
  | e :: es => Element.assignable e && Row.assignable es

def Element.assignable : Element → Bool
  | .value v => v.assignable
  | .row elements => Row.assignable elements
end

mutual
/-- Refuses a value in which some selection still picks a whole row. -/
def Value.checkComplete : Value → Except ConstructionError Unit
  | .const _ | .signal _ | .clock _ | .reset _ => .ok ()
  | .op _ operands => Value.checkAllComplete operands
  | .concat parts => Value.checkAllComplete parts
  | .slice value _ _ => value.checkComplete
  | .repl value _ => value.checkComplete
  | .select row index => do
    index.checkComplete
    Row.checkComplete row

def Value.checkAllComplete : List Value → Except ConstructionError Unit
  | [] => .ok ()
  | v :: vs => do
    v.checkComplete
    Value.checkAllComplete vs

def Row.checkComplete : List Element → Except ConstructionError Unit
  | [] => .ok ()
  | e :: es => do
    Element.checkComplete e
    Row.checkComplete es

def Element.checkComplete : Element → Except ConstructionError Unit
  | .value v => v.checkComplete
  | .row _ => .error .rowAsValue
end

/-- A new signal of the shape of a value; like a signal it also resets like one. -/
def Signal.like (id : Nat) (v : Value) (hint : String) : Signal :=
  match v with
  | .signal s =>
    { id, shape := s.shape, reset := s.reset, resetLess := s.resetLess, hint := some hint }
  | v => { id, shape := v.shape, hint := some hint }

end Gateware
