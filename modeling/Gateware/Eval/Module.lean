import Gateware.Eval.Block
import Gateware.Module.Basic

/-! # The meaning of one module

The combinational block of a module settles, and each block of a clock domain computes the registers
after an edge of that clock. Children have no part in either.
-/
namespace Gateware

def Module.settle (m : Module) (inputs : State) : Except EvalError State :=
  Block.settle (m.block combDomain) inputs

def Module.tick (m : Module) (domain : String) (current : State) : Except EvalError State :=
  Block.tick (m.block domain) current

end Gateware
