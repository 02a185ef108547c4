import Gateware.Special.Instance
import Gateware.Special.Memory

/-! # Specials

What a module holds besides statements and children: instances and memories. Both drive signals and
mention others.
-/
namespace Gateware

inductive Special where
  | primitive (i : Instance)
  | memory (m : Memory)

namespace Special

/-- Every mention of a signal in the order of declaration, repeats kept. -/
def signals : Special → List Signal
  | .primitive i => i.ports.flatMap fun p => p.value.signals
  | .memory m => m.ports.flatMap MemoryPort.signals

def drives : Special → List Signal
  | .primitive i =>
    distinctSignals ((i.ports.filter fun p => p.role.driving).flatMap fun p => p.value.targets)
  | .memory m => distinctSignals (m.ports.map MemoryPort.datR)

def values : Special → List Value
  | .primitive i => i.ports.map InstancePort.value
  | .memory _ => []

/-- The domains a special depends on: those its values mention, or those that clock its ports. -/
def domains : Special → List String
  | .primitive i => i.ports.flatMap fun p => p.value.domains
  | .memory m => (m.ports.filter MemoryPort.clocked).filterMap MemoryPort.clockDomain

end Special

end Gateware
