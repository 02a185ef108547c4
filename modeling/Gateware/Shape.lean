import Gateware.Bits

/-! # Shapes and the operators on them

A shape is the width and signedness of a value. Each operator has an arity, a symbol and a rule
that gives the shape of its result: sums grow by a carry, products by the other factor, and an
unsigned operand beside a signed one gains a sign bit. Widths stop at `widthLimit`.
-/
namespace Gateware

def widthLimit : Nat := 1 <<< 32 - 1

/-- A computed width, held at the limit. -/
def clampWidth (width : Nat) : Nat := min width widthLimit

structure Shape where
  width : Nat
  signed : Bool
deriving DecidableEq, Repr

namespace Shape

def ofUnsigned (width : Nat) : Shape := ⟨width, false⟩
def ofSigned (width : Nat) : Shape := ⟨width, true⟩

def forRange (low high : Int) : Shape :=
  let signed := decide (low < 0) || decide (high < 0)
  ⟨max (Bits.needed low signed) (Bits.needed high signed), signed⟩

/-- The width counted with one more bit for a sign. -/
def widthWithSign (s : Shape) : Nat := clampWidth (s.width + s.signed.toNat)

def read (s : Shape) (raw : Nat) : Int :=
  if s.signed then Bits.signExtend raw s.width else Bits.reading raw

/-- The shape of a bitwise combination: beside a signed operand an unsigned one needs a bit more
to stay non-negative. -/
def unify (a b : Shape) : Shape :=
  match a.signed, b.signed with
  | false, true => ofSigned (max (clampWidth (a.width + 1)) b.width)
  | true, false => ofSigned (max a.width (clampWidth (b.width + 1)))
  | signed, _ => ⟨max a.width b.width, signed⟩

def text (s : Shape) : String :=
  (if s.signed then "signed(" else "unsigned(") ++ toString s.width ++ ")"

end Shape

/-- The operators; the comment of a constructor says what it computes on numbers. -/
inductive Op where
  /-- bitwise complement -/
  | not
  /-- negation -/
  | neg
  /-- one if any bit is set -/
  | bool
  | add
  | sub
  | mul
  /-- remainder of the division rounded down -/
  | mod
  /-- shift towards the high bits -/
  | shl
  /-- shift towards the low bits, keeping the sign -/
  | shr
  | and
  | or
  | xor
  | eq
  | ne
  | lt
  | le
  | gt
  | ge
  /-- the second operand if the first is not zero, else the third -/
  | mux
deriving DecidableEq, Repr

namespace Op

def arity : Op → Nat
  | .not | .neg | .bool => 1
  | .mux => 3
  | _ => 2

def symbol : Op → String
  | .not => "~"
  | .neg => "-"
  | .bool => "b"
  | .add => "+"
  | .sub => "-"
  | .mul => "*"
  | .mod => "%"
  | .shl => "<<"
  | .shr => ">>"
  | .and => "&"
  | .or => "|"
  | .xor => "^"
  | .eq => "=="
  | .ne => "!="
  | .lt => "<"
  | .le => "<="
  | .gt => ">"
  | .ge => ">="
  | .mux => "m"

def label : Op → String
  | .not => "Not"
  | .neg => "Neg"
  | .bool => "Bool"
  | .add => "Add"
  | .sub => "Sub"
  | .mul => "Mul"
  | .mod => "Mod"
  | .shl => "Shl"
  | .shr => "Shr"
  | .and => "And"
  | .or => "Or"
  | .xor => "Xor"
  | .eq => "Eq"
  | .ne => "Ne"
  | .lt => "Lt"
  | .le => "Le"
  | .gt => "Gt"
  | .ge => "Ge"
  | .mux => "Mux"

/-- A power of two, held at the width limit once it no longer fits a width. -/
def cappedPow (exponent : Nat) : Nat := if exponent < 32 then 1 <<< exponent else widthLimit

/-- How far an amount of this shape can move bits up. -/
def shlGrowth (amount : Shape) : Nat :=
  cappedPow (if amount.signed then amount.width - 1 else amount.width) - 1

/-- How far a negative amount of this shape can move bits up. -/
def shrGrowth (amount : Shape) : Nat :=
  if amount.signed && decide (0 < amount.width) then cappedPow (amount.width - 1) else 0

/-- The shape of the result. Comparisons give one bit whatever they compare; any other operator
with the wrong number of operands has no bits. -/
def resultShape : Op → List Shape → Shape
  | .not, [a] => a
  | .neg, [a] => .ofSigned (clampWidth (a.width + 1))
  | .bool, [_] => .ofUnsigned 1
  | .add, [a, b] | .sub, [a, b] =>
    let s := a.unify b
    ⟨clampWidth (s.width + 1), s.signed⟩
  | .mul, [a, b] => ⟨clampWidth (a.width + b.width), a.signed || b.signed⟩
  | .mod, [a, _] => a
  | .and, [a, b] | .or, [a, b] | .xor, [a, b] => a.unify b
  | .eq, _ | .ne, _ | .lt, _ | .le, _ | .gt, _ | .ge, _ => .ofUnsigned 1
  | .shl, [a, b] => ⟨clampWidth (a.width + shlGrowth b), a.signed⟩
  | .shr, [a, b] => ⟨clampWidth (a.width + shrGrowth b), a.signed⟩
  | .mux, [_, a, b] => a.unify b
  | _, _ => .ofUnsigned 0

end Op

end Gateware
