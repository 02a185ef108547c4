import Gateware.Signal

/-! # Values

A value is an expression over constants, signals and the clock and reset of a domain. A selection
takes one element of a row by an index known only when the circuit runs; the elements of a row are
values or rows again, so a row is a nested array.

Every value has a shape. Functions on values come as families of mutual recursions, one for
values, one for lists of values and one or two for rows.
-/
namespace Gateware

/-- A constant: bits already cut to the width of the shape. -/
structure Const where
  bits : Nat
  shape : Shape
deriving DecidableEq, Repr

namespace Const

/-- The constant of a shape that agrees with `value` on the bits the shape has. -/
def wrap (value : Int) (shape : Shape) : Const :=
  ⟨Bits.truncate (Bits.ofInt value) shape.width, shape⟩

/-- The narrowest constant of a number; signed exactly if the number is negative. -/
def minimal (value : Int) : Const := wrap value ⟨Bits.needed value false, decide (value < 0)⟩

def value (c : Const) : Int := c.shape.read c.bits

def text (c : Const) : String :=
  "(const " ++ toString c.shape.width ++ (if c.shape.signed then "'sd" else "'d") ++
    toString c.value ++ ")"

end Const

mutual
inductive Value where
  | const (c : Const)
  | signal (s : Signal)
  /-- the clock of the named domain -/
  | clock (domain : String)
  /-- the reset of the named domain -/
  | reset (domain : String)
  | op (op : Op) (operands : List Value)
  /-- the bits from `start` up to, not including, `stop` -/
  | slice (value : Value) (start stop : Nat)
  /-- the parts side by side, the first in the low bits -/
  | concat (parts : List Value)
  | repl (value : Value) (count : Nat)
  /-- the element of the row at the value of the index; outside the row, the last one -/
  | select (row : List Element) (index : Value)
inductive Element where
  | value (v : Value)
  | row (elements : List Element)
end

abbrev Row := List Element

instance : Inhabited Value := ⟨.concat []⟩
instance : Inhabited Element := ⟨.row []⟩

/-! ## Shapes -/

mutual
def Value.shape : Value → Shape
  | .const c => c.shape
  | .signal s => s.shape
  | .clock _ | .reset _ => .ofUnsigned 1
  | .op op operands => op.resultShape (Value.shapes operands)
  | .slice _ start stop => .ofUnsigned (stop - start)
  | .concat parts => .ofUnsigned (Value.totalWidth parts)
  | .repl value count => .ofUnsigned (clampWidth (value.shape.width * count))
  | .select row _ => Row.shape row

def Value.shapes : List Value → List Shape
  | [] => []
  | v :: vs => v.shape :: Value.shapes vs

def Value.totalWidth : List Value → Nat
  | [] => 0
  | v :: vs => clampWidth (v.shape.width + Value.totalWidth vs)

/-- A shape wide enough for every element, a signed one counted with its sign, and signed if any
element is. -/
def Row.shape : List Element → Shape
  | [] => .ofUnsigned 0
  | e :: es =>
    let head := Element.shape e
    let rest := Row.shape es
    ⟨max head.widthWithSign rest.width, head.signed || rest.signed⟩

def Element.shape : Element → Shape
  | .value v => v.shape
  | .row elements => Row.shape elements
end

def Value.width (v : Value) : Nat := v.shape.width

/-! ## Text -/

mutual
def Value.text : Value → String
  | .const c => c.text
  | .signal s => s.text
  | .clock domain => "(clk " ++ domain ++ ")"
  | .reset domain => "(rst " ++ domain ++ ")"
  | .op op operands => "(" ++ op.symbol ++ Value.texts operands ++ ")"
  | .slice value start stop =>
    "(slice " ++ value.text ++ " " ++ toString start ++ ":" ++ toString stop ++ ")"
  | .concat parts => "(cat" ++ Value.texts parts ++ ")"
  | .repl value count => "(repl " ++ value.text ++ " " ++ toString count ++ ")"
  | .select row index => "(proxy (array" ++ Row.texts row ++ ") " ++ index.text ++ ")"

def Value.texts : List Value → String
  | [] => ""
  | v :: vs => " " ++ v.text ++ Value.texts vs

def Row.texts : List Element → String
  | [] => ""
  | e :: es => " " ++ Element.text e ++ Row.texts es

def Element.text : Element → String
  | .value v => v.text
  | .row elements => "(array" ++ Row.texts elements ++ ")"
end

def Row.text (row : Row) : String := "(array" ++ Row.texts row ++ ")"

/-! ## Equality

Two values are alike when they have the same tree over the same signals; hints do not count. -/

mutual
def Value.alike : Value → Value → Bool
  | .const a, .const b => a == b
  | .signal a, .signal b => a.same b
  | .clock a, .clock b => a == b
  | .reset a, .reset b => a == b
  | .op p as, .op q bs => p == q && Value.allAlike as bs
  | .slice v s t, .slice w s' t' => v.alike w && s == s' && t == t'
  | .concat as, .concat bs => Value.allAlike as bs
  | .repl v n, .repl w m => v.alike w && n == m
  | .select as i, .select bs j => Row.alike as bs && i.alike j
  | _, _ => false

def Value.allAlike : List Value → List Value → Bool
  | [], [] => true
  | a :: as, b :: bs => a.alike b && Value.allAlike as bs
  | _, _ => false

def Row.alike : List Element → List Element → Bool
  | [], [] => true
  | a :: as, b :: bs => Element.alike a b && Row.alike as bs
  | _, _ => false

def Element.alike : Element → Element → Bool
  | .value v, .value w => v.alike w
  | .row as, .row bs => Row.alike as bs
  | _, _ => false
end

end Gateware
