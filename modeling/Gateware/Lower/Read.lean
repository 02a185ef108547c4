import Gateware.Value.Build
import Gateware.Value.Walk

/-! # Selections as chains of multiplexers

A value that is read turns each selection into a chain: one comparison of the index for every
position but the last, whose element is what remains if none holds. Positions that the index cannot
reach are left out.
-/
namespace Gateware

/-- The elements of a row that are values, with their positions, the first of them at `position`. -/
def Row.entriesFrom (position : Nat) : List Element → List (Nat × Value)
  | [] => []
  | .value v :: rest => (position, v) :: Row.entriesFrom (position + 1) rest
  | .row _ :: rest => Row.entriesFrom (position + 1) rest

def Row.entries (row : Row) : List (Nat × Value) := Row.entriesFrom 0 row

/-- Whether an index of this shape can reach a position. -/
def Shape.reaches (s : Shape) (position : Nat) : Bool :=
  let bits := if s.signed then s.width - 1 else s.width
  decide (wordBits ≤ bits) || decide (position < 1 <<< bits)

/-- The chain that compares the index with one position after the other. -/
def muxChain (index : Value) : List (Nat × Value) → Value
  | [] => .int 0
  | [(_, last)] => last
  | (position, v) :: next :: rest =>
    if index.shape.reaches position then
      .op .mux [.op .eq [index, .int position], v, muxChain index (next :: rest)]
    else muxChain index (next :: rest)

def Value.lowerSelect : Value → Value
  | .select row index => muxChain index (Row.entries row)
  | v => v

def Value.lowerReads (v : Value) : Value := v.rebuild Value.lowerSelect

mutual
def Value.selectCount : Value → Nat
  | .const _ | .signal _ | .clock _ | .reset _ => 0
  | .op _ operands => Value.selectCounts operands
  | .concat parts => Value.selectCounts parts
  | .slice value _ _ => value.selectCount
  | .repl value _ => value.selectCount
  | .select row index => Row.selectCount row + index.selectCount + 1

def Value.selectCounts : List Value → Nat
  | [] => 0
  | v :: vs => v.selectCount + Value.selectCounts vs

def Row.selectCount : List Element → Nat
  | [] => 0
  | e :: es => Element.selectCount e + Row.selectCount es

def Element.selectCount : Element → Nat
  | .value v => v.selectCount
  | .row elements => Row.selectCount elements
end

end Gateware
