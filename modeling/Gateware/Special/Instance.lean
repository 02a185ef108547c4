import Gateware.Value.Build
import Gateware.Value.Walk

/-! # Instances of foreign primitives

An instance names a primitive and connects its parameters and ports to values. What the primitive
drives must be assignable, and a port driven from both sides cannot be an element selected while
the circuit runs.
-/
namespace Gateware

inductive PortRole where
  | parameter
  | input
  | output
  | inout
deriving DecidableEq, Repr

namespace PortRole

/-- How a connection key of this role begins. -/
def mark : PortRole → String
  | .parameter => "p_"
  | .input => "i_"
  | .output => "o_"
  | .inout => "io_"

def driving : PortRole → Bool
  | .output | .inout => true
  | .parameter | .input => false

/-- The role of a key and the name after its mark. -/
def ofKey? (key : String) : Option (PortRole × String) :=
  [PortRole.inout, .parameter, .input, .output].findSome? fun role =>
    if role.mark.toList.isPrefixOf key.toList then
      some (role, String.ofList (key.toList.drop role.mark.length))
    else none

end PortRole

structure InstancePort where
  role : PortRole
  name : String
  value : Value

structure Instance where
  kind : String
  ports : List InstancePort := []

namespace Instance

def connect (i : Instance) (role : PortRole) (name : String) (value : Value) :
    Except ConstructionError Instance := do
  value.checkComplete
  if role.driving && !value.assignable then throw (.notAssignable value)
  if role == .inout && value.selects then throw (.inoutSelection name)
  return { i with ports := i.ports ++ [⟨role, name, value⟩] }

def connectAll (i : Instance) : List (PortRole × String × Value) → Except ConstructionError Instance
  | [] => .ok i
  | (role, name, value) :: rest => do
    let next ← i.connect role name value
    next.connectAll rest

/-- Connections whose keys begin with the mark of their role. -/
def connectKeys (i : Instance) : List (String × Value) → Except ConstructionError Instance
  | [] => .ok i
  | (key, value) :: rest =>
    match PortRole.ofKey? key with
    | none => .error (.instanceKey key)
    | some (role, name) => do
      let next ← i.connect role name value
      next.connectKeys rest

end Instance

end Gateware
