import Gateware.Value.Basic

/-! # Measuring values

A lowered selection is a chain of multiplexers, each with a comparison as its guard. `treeCount`
counts them, and what they choose from.
-/
namespace Gateware

structure TreeCount where
  muxes : Nat := 0
  /-- comparisons for equality -/
  guards : Nat := 0
  /-- inputs of multiplexers that are not multiplexers themselves -/
  leaves : Nat := 0
  selections : Nat := 0
deriving DecidableEq, Repr

instance : Add TreeCount :=
  ⟨fun a b =>
    ⟨a.muxes + b.muxes, a.guards + b.guards, a.leaves + b.leaves, a.selections + b.selections⟩⟩

def Value.isMux : Value → Bool
  | .op .mux _ => true
  | _ => false

def muxLeaves (values : List Value) : Nat := (values.filter fun v => !v.isMux).length

def Op.ownCount : Op → List Value → TreeCount
  | .mux, operands => { muxes := 1, leaves := muxLeaves operands.tail }
  | .eq, _ => { guards := 1 }
  | _, _ => {}

mutual
/-- The constructs inside a value. The elements of a selection do not count. -/
def Value.measure : Value → TreeCount
  | .const _ | .signal _ | .clock _ | .reset _ => {}
  | .op o operands => o.ownCount operands + Value.measureAll operands
  | .slice value _ _ => value.measure
  | .repl value _ => value.measure
  | .concat parts => Value.measureAll parts
  | .select _ index => { selections := 1 } + index.measure

def Value.measureAll : List Value → TreeCount
  | [] => {}
  | v :: vs => v.measure + Value.measureAll vs
end

/-- The count of a whole value; without multiplexers and selections it is one leaf. -/
def Value.treeCount (v : Value) : TreeCount :=
  let count := v.measure
  if count.muxes = 0 ∧ count.selections = 0 then { count with leaves := 1 } else count

end Gateware
