import Gateware.Value.Build

/-! # Transforms of a subtree

A transform is recorded on a module and later changes the module and everything below it: it
renames clock domains, or gives the signals driven in a domain a reset or an enable.
-/
namespace Gateware

/-- The name under which combinational statements are kept; no clock domain has it. -/
def combDomain : String := "comb"

inductive Transform where
  /-- rename domains, pair by pair in this order -/
  | rename (pairs : List (String × String))
  /-- return the signals driven in the domain to their reset values while the control is not zero -/
  | insertReset (domain : String) (control : Value)
  /-- hold the signals driven in the domain while the control is zero -/
  | insertEnable (domain : String) (control : Value)

def checkControl (domain : String) (control : Value) : Except ConstructionError Unit :=
  if domain = combDomain then .error (.reservedDomain domain) else control.checkComplete

/-- Refuses a transform of the combinational domain and an incomplete control. -/
def Transform.validate : Transform → Except ConstructionError Unit
  | .rename pairs =>
    if pairs.any fun (old, new) => old == combDomain || new == combDomain then
      .error (.reservedDomain combDomain)
    else .ok ()
  | .insertReset domain control => checkControl domain control
  | .insertEnable domain control => checkControl domain control

end Gateware
