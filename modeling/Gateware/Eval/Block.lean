import Gateware.Eval.Value
import Gateware.Statement.Walk

/-! # The meaning of statements

A block reads one state and writes another. Partial targets merge with what the written state holds
already. `settle` repeats a combinational block, each time from the reset values of what it drives,
until nothing changes; `tick` computes the registers after one clock edge.
-/
namespace Gateware

mutual
/-- The written state after bits are stored in a target. The indices of selections come from the
state that is read. -/
def Value.store (read : State) : Value → Nat → State → Except EvalError State
  | .signal s, bits, write => .ok (write.setBits s bits)
  | .slice value start stop, bits, write => do
    let width := stop - start
    let field := Bits.shiftLeft (Bits.mask width) start
    let current ← value.eval write
    let kept := current ^^^ (current &&& field)
    value.store read (kept ||| Bits.shiftLeft (Bits.truncate bits width) start) write
  | .concat parts, bits, write => Value.storeParts read parts bits write
  | .select row index, bits, write => do
    let position ← index.number read
    match Row.storeAt read row (if 0 ≤ position then position.toNat else row.length) bits write with
    | some result => result
    | none => .error (.nothingSelected (.select row index))
  | .clock domain, _, _ => .error (.domainSignal (.clock domain))
  | .reset domain, _, _ => .error (.domainSignal (.reset domain))
  | .const c, _, _ => .error (.notAssignable (.const c))
  | .op op operands, _, _ => .error (.notAssignable (.op op operands))
  | .repl value count, _, _ => .error (.notAssignable (.repl value count))

/-- Bits stored in several targets, the low bits in the first. -/
def Value.storeParts (read : State) : List Value → Nat → State → Except EvalError State
  | [], _, write => .ok write
  | v :: vs, bits, write => do
    let next ← v.store read (Bits.truncate bits v.width) write
    Value.storeParts read vs (bits >>> v.width) next

/-- Bits stored in the element at a position, the last one beyond the end. -/
def Row.storeAt (read : State) :
    List Element → Nat → Nat → State → Option (Except EvalError State)
  | [], _, _, _ => none
  | [e], _, bits, write => Element.store read e bits write
  | e :: _ :: _, 0, bits, write => Element.store read e bits write
  | _ :: e :: es, i + 1, bits, write => Row.storeAt read (e :: es) i bits write

def Element.store (read : State) : Element → Nat → State → Option (Except EvalError State)
  | .value v, bits, write => some (v.store read bits write)
  | .row _, _, _ => none
end

mutual
def Statement.execute (read : State) : Statement → State → Except EvalError State
  | .assign target source, write => do
    let number ← source.number read
    target.store read (Bits.ofInt number) write
  | .branch condition taken otherwise, write => do
    let bits ← condition.eval read
    if bits ≠ 0 then Block.execute read taken write
    else Block.executeOtherwise read otherwise write
  | .switch selector cases, write => do
    let bits ← selector.eval read
    Case.execute read bits selector.width cases write

def Block.execute (read : State) : List Statement → State → Except EvalError State
  | [], write => .ok write
  | s :: rest, write => do
    let next ← s.execute read write
    Block.execute read rest next

def Block.executeOtherwise (read : State) : Option (List Statement) → State → Except EvalError State
  | none, write => .ok write
  | some body, write => Block.execute read body write

def Case.execute (read : State) (bits width : Nat) : List Case → State → Except EvalError State
  | [], write => .ok write
  | ⟨patterns, body⟩ :: rest, write =>
    if (Case.mk patterns body).fits bits width then Block.execute read body write
    else Case.execute read bits width rest write
end

/-- One pass over a combinational block: what it drives starts at its reset value. -/
def Block.pass (block : Block) (current : State) : Except EvalError State :=
  Block.execute current block (current.resetAll (Block.drives block))

/-- Passes until one changes nothing, at most `left` of them; `limit` is what is reported. -/
def Block.iterate (block : Block) (limit : Nat) : Nat → State → Except EvalError State
  | 0, _ => .error (.unsettled limit)
  | left + 1, current => do
    let next ← Block.pass block current
    if next = current then return next
    Block.iterate block limit left next

def Block.settle (block : Block) (inputs : State) : Except EvalError State :=
  let driven := Block.drives block
  let limit := driven.length + 2
  Block.iterate block limit limit (inputs.resetAll driven)

def Block.tick (block : Block) (current : State) : Except EvalError State :=
  Block.execute current block current

end Gateware
