import Gateware.Eval.State
import Gateware.Value.Walk

/-! # The meaning of values

A value means bits of its width in a state. Operators compute on the numbers that the operands
stand for; the result is cut to the width of its shape. Values wider than `evalLimit` have no
meaning, and neither has the clock or the reset of a domain.
-/
namespace Gateware

/-- The widest value with a meaning. -/
def evalLimit : Nat := 127

inductive EvalError where
  | tooWide (value : Value)
  | domainSignal (value : Value)
  | divisionByZero (value : Value)
  /-- a selection whose index meets no value -/
  | nothingSelected (value : Value)
  | notAssignable (value : Value)
  | unsettled (passes : Nat)

def EvalError.message : EvalError → String
  | .tooWide value =>
    "`" ++ value.text ++ "` is " ++ toString value.width ++
      " bits wide; the evaluator handles at most " ++ toString evalLimit
  | .domainSignal value =>
    "`" ++ value.text ++ "` refers to a clock domain and cannot be evaluated"
  | .divisionByZero value => "division by zero in `" ++ value.text ++ "`"
  | .nothingSelected value => "`" ++ value.text ++ "` does not select a value"
  | .notAssignable value => "`" ++ value.text ++ "` cannot be assigned"
  | .unsettled passes =>
    "combinational logic did not settle after " ++ toString passes ++ " passes"

/-! ## Operators on numbers -/

/-- Bitwise complement of the infinite two's-complement digits. -/
def complement (a : Int) : Int := -1 - a

def without (m n : Nat) : Nat := m ^^^ (m &&& n)

/-- The digits that both numbers have. Here and below a negative number has the digits that its
complement has not. -/
def bitAnd : Int → Int → Int
  | .ofNat m, .ofNat n => .ofNat (m &&& n)
  | .ofNat m, .negSucc n => .ofNat (without m n)
  | .negSucc m, .ofNat n => .ofNat (without n m)
  | .negSucc m, .negSucc n => .negSucc (m ||| n)

def bitOr : Int → Int → Int
  | .ofNat m, .ofNat n => .ofNat (m ||| n)
  | .ofNat m, .negSucc n => .negSucc (without n m)
  | .negSucc m, .ofNat n => .negSucc (without m n)
  | .negSucc m, .negSucc n => .negSucc (m &&& n)

def bitXor : Int → Int → Int
  | .ofNat m, .ofNat n => .ofNat (m ^^^ n)
  | .ofNat m, .negSucc n => .negSucc (m ^^^ n)
  | .negSucc m, .ofNat n => .negSucc (m ^^^ n)
  | .negSucc m, .negSucc n => .ofNat (m ^^^ n)

/-- A number moved up by a whole number of bits. A word holds nothing beyond its bits, so that more
than a word of them leaves zero. -/
def shiftUp (a : Int) (amount : Nat) : Int :=
  if amount < wordBits then a * (1 <<< amount : Nat) else 0

def shiftDown (a : Int) (amount : Nat) : Int :=
  if amount < wordBits then a / (1 <<< amount : Nat) else if a < 0 then -1 else 0

/-- A shift up, or down by a negative amount. -/
def shift (a amount : Int) : Int :=
  if 0 ≤ amount then shiftUp a amount.toNat else shiftDown a (-amount).toNat

def truth (b : Bool) : Int := if b then 1 else 0

/-- What an operator computes; `none` is a division by zero. With the wrong number of operands it
computes zero. -/
def Op.compute : Op → List Int → Option Int
  | .not, [a] => some (complement a)
  | .neg, [a] => some (-a)
  | .bool, [a] => some (truth (a != 0))
  | .add, [a, b] => some (a + b)
  | .sub, [a, b] => some (a - b)
  | .mul, [a, b] => some (a * b)
  | .mod, [a, b] => if b = 0 then none else some (a.fmod b)
  | .shl, [a, n] => some (shift a n)
  | .shr, [a, n] => some (shift a (-n))
  | .and, [a, b] => some (bitAnd a b)
  | .or, [a, b] => some (bitOr a b)
  | .xor, [a, b] => some (bitXor a b)
  | .eq, [a, b] => some (truth (a == b))
  | .ne, [a, b] => some (truth (a != b))
  | .lt, [a, b] => some (truth (decide (a < b)))
  | .le, [a, b] => some (truth (decide (a ≤ b)))
  | .gt, [a, b] => some (truth (decide (b < a)))
  | .ge, [a, b] => some (truth (decide (b ≤ a)))
  | .mux, [sel, a, b] => some (if sel = 0 then b else a)
  | _, _ => some 0

/-! ## Evaluation -/

def repeatBits (bits width : Nat) : Nat → Nat
  | 0 => 0
  | n + 1 => bits ||| (repeatBits bits width n <<< width)

mutual
/-- The bits of a value, cut to its width. -/
def Value.eval (st : State) : Value → Except EvalError Nat
  | .const c =>
    if evalLimit < c.shape.width then .error (.tooWide (.const c))
    else .ok (Bits.truncate c.bits c.shape.width)
  | .signal s =>
    if evalLimit < s.shape.width then .error (.tooWide (.signal s))
    else .ok (Bits.truncate (st.get s) s.shape.width)
  | .clock domain => .error (.domainSignal (.clock domain))
  | .reset domain => .error (.domainSignal (.reset domain))
  | .op op operands =>
    let v := Value.op op operands
    if evalLimit < v.width then .error (.tooWide v)
    else do
      let numbers ← Value.evalAll st operands
      match op.compute numbers with
      | some result => .ok (Bits.truncate (Bits.ofInt result) v.width)
      | none => .error (.divisionByZero v)
  | .slice value start stop =>
    if evalLimit < stop - start then .error (.tooWide (.slice value start stop))
    else do
      let bits ← value.eval st
      .ok (Bits.truncate (bits >>> start) (stop - start))
  | .concat parts =>
    let v := Value.concat parts
    if evalLimit < v.width then .error (.tooWide v)
    else do
      let bits ← Value.evalParts st parts
      .ok (Bits.truncate bits v.width)
  | .repl value count =>
    let v := Value.repl value count
    if evalLimit < v.width then .error (.tooWide v)
    else do
      let bits ← value.eval st
      .ok (Bits.truncate (if value.width = 0 then 0 else repeatBits bits value.width count) v.width)
  | .select row index =>
    let v := Value.select row index
    if evalLimit < v.width then .error (.tooWide v)
    else do
      let bits ← index.eval st
      let position := index.shape.read bits
      match Row.evalAt st row (if 0 ≤ position then position.toNat else row.length) with
      | some result => do
        let number ← result
        .ok (Bits.truncate (Bits.ofInt number) v.width)
      | none => .error (.nothingSelected v)

def Value.evalAll (st : State) : List Value → Except EvalError (List Int)
  | [] => .ok []
  | v :: vs => do
    let bits ← v.eval st
    let rest ← Value.evalAll st vs
    .ok (v.shape.read bits :: rest)

/-- The bits of several values side by side, the first in the low bits. -/
def Value.evalParts (st : State) : List Value → Except EvalError Nat
  | [] => .ok 0
  | v :: vs => do
    let bits ← v.eval st
    let rest ← Value.evalParts st vs
    .ok (bits ||| (rest <<< v.width))

/-- The number of the element at a position, the last one beyond the end. -/
def Row.evalAt (st : State) : List Element → Nat → Option (Except EvalError Int)
  | [], _ => none
  | [e], _ => Element.eval st e
  | e :: _ :: _, 0 => Element.eval st e
  | _ :: e :: es, i + 1 => Row.evalAt st (e :: es) i

def Element.eval (st : State) : Element → Option (Except EvalError Int)
  | .value v => some do
    let bits ← v.eval st
    .ok (v.shape.read bits)
  | .row _ => none
end

@[simp]
theorem Value.eval_clock (st : State) (domain : String) :
    (Value.clock domain).eval st = .error (.domainSignal (.clock domain)) := by
  rw [Value.eval]

@[simp]
theorem Value.eval_reset (st : State) (domain : String) :
    (Value.reset domain).eval st = .error (.domainSignal (.reset domain)) := by
  rw [Value.eval]

def Value.number (st : State) (v : Value) : Except EvalError Int := do
  let bits ← v.eval st
  return v.shape.read bits

end Gateware
