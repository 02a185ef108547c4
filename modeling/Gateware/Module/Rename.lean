import Gateware.Module.Basic

/-! # Renaming a clock domain in a subtree

A domain name occurs in declarations, in resolved domains, as the label of a block, in clocks and
resets, at memory ports and in the record of drivers. Renaming changes all of them, in a module and
below it.
-/
namespace Gateware

def ClockDomain.renameTo (d : ClockDomain) (old new : String) : ClockDomain :=
  if d.name = old then d.rename new else d

def MemoryPort.renameDomain (p : MemoryPort) (old new : String) : MemoryPort :=
  if p.clockDomain = some old then { p with clockDomain := some new } else p

def Special.renameDomain (special : Special) (old new : String) : Special :=
  match special with
  | .primitive i =>
    .primitive
      { i with ports := i.ports.map fun p => { p with value := p.value.renameDomain old new } }
  | .memory m => .memory { m with ports := m.ports.map fun p => p.renameDomain old new }

def Node.renameDomain (n : Node) (old new : String) : Node :=
  { n with
    declared := n.declared.map fun d => d.renameTo old new
    resolved := n.resolved.map fun d => d.renameTo old new
    blocks := (n.blocks.rename old new).map fun (d, block) =>
      (d, Block.mapValues (fun v => v.renameDomain old new) block)
    specials := n.specials.map fun s => s.renameDomain old new
    drivers := n.drivers.map fun (id, d) => (id, if d = old then new else d) }

mutual
def Module.renameDomain (old new : String) : Module → Module
  | ⟨node, children⟩ => ⟨node.renameDomain old new, Module.renameDomainAll old new children⟩

def Module.renameDomainAll (old new : String) :
    List (Option String × Module) → List (Option String × Module)
  | [] => []
  | (name, m) :: rest => (name, m.renameDomain old new) :: Module.renameDomainAll old new rest
end

end Gateware
