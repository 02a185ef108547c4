import Gateware.Distinct
import Gateware.Shape

/-! # Signals

A signal is a storage place with a shape, a reset value and hints for its later name. The number
`id` alone says which signal a handle refers to: two handles may carry different hints and still
be the same signal.
-/
namespace Gateware

structure Signal where
  id : Nat
  shape : Shape := .ofUnsigned 1
  reset : Int := 0
  /-- The reset of the clock domain leaves the signal alone. -/
  resetLess : Bool := false
  hint : Option String := none
  /-- Where the signal is named, outermost first; empty means the module that first mentions it. -/
  scope : List String := []
deriving DecidableEq, Repr

namespace Signal

def named (id : Nat) (hint : String) (width : Nat) : Signal :=
  { id, shape := .ofUnsigned width, hint := some hint }

def width (s : Signal) : Nat := s.shape.width

def resetBits (s : Signal) : Nat := Bits.truncate (Bits.ofInt s.reset) s.width

def renamed (s : Signal) (hint : String) : Signal := { s with hint := some hint }

def same (a b : Signal) : Bool := a.id == b.id

def text (s : Signal) : String :=
  match s.hint with
  | some hint => "(sig " ++ hint ++ " #" ++ toString s.id ++ ")"
  | none => "(sig #" ++ toString s.id ++ ")"

end Signal

/-- The signals of a list, each at its first mention. -/
def distinctSignals (signals : List Signal) : List Signal := keepFirst Signal.id [] signals

end Gateware
