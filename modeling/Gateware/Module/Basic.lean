import Gateware.Domain
import Gateware.Machine
import Gateware.Special.Basic

/-! # Modules

A module is a node and its children. The node holds the statements per clock domain, the specials,
the declared domains and, once the module is closed, the resolved ones; beside them it records which
domain drives a signal, the handle of a deferred construction and the transforms to come. A module
is open until it is finalized and takes no changes after that.
-/
namespace Gateware

/-- The blocks of a module by domain, in the order in which the domains were first used. -/
abbrev Blocks := List (String × Block)

namespace Blocks

def get (blocks : Blocks) (domain : String) : Block :=
  match blocks with
  | [] => []
  | (d, block) :: rest => if d = domain then block else get rest domain

/-- Statements added at the end of the block of a domain, which comes last if it is new. -/
def extend (blocks : Blocks) (domain : String) (more : Block) : Blocks :=
  match blocks with
  | [] => [(domain, more)]
  | (d, block) :: rest =>
    if d = domain then (d, block ++ more) :: rest else (d, block) :: extend rest domain more

def has (blocks : Blocks) (domain : String) : Bool := blocks.any fun (d, _) => d == domain

def erase (blocks : Blocks) (domain : String) : Blocks :=
  match blocks with
  | [] => []
  | (d, block) :: rest => if d = domain then rest else (d, block) :: erase rest domain

/-- The block of one domain given to another that has none. -/
def relabel (blocks : Blocks) (old new : String) : Blocks :=
  match blocks with
  | [] => []
  | (d, block) :: rest =>
    if d = old then (new, block) :: rest else (d, block) :: relabel rest old new

/-- The block of a domain moved to another domain, at the end of what that has. -/
def rename (blocks : Blocks) (old new : String) : Blocks :=
  if blocks.has old then
    if blocks.has new then (blocks.erase old).extend new (blocks.get old)
    else blocks.relabel old new
  else blocks

def values (blocks : Blocks) : List Value := blocks.flatMap fun (_, block) => Block.values block

end Blocks

/-- Which domain drives a signal, by the number of the signal. -/
abbrev Drivers := List (Nat × String)

namespace Drivers

def get? (drivers : Drivers) (id : Nat) : Option String :=
  match drivers with
  | [] => none
  | (i, domain) :: rest => if i = id then some domain else get? rest id

def set (drivers : Drivers) (id : Nat) (domain : String) : Drivers :=
  match drivers with
  | [] => [(id, domain)]
  | (i, d) :: rest => if i = id then (i, domain) :: rest else (i, d) :: set rest id domain

def setAll (drivers : Drivers) (signals : List Signal) (domain : String) : Drivers :=
  signals.foldl (fun record s => set record s.id domain) drivers

end Drivers

/-- What a module holds apart from its children. -/
structure Node where
  /-- the type of the module, and its place in paths if it has no name -/
  kind : String
  blocks : Blocks := []
  specials : List Special := []
  declared : List ClockDomain := []
  /-- the declared domains and those surfaced by the children -/
  resolved : List ClockDomain := []
  finalized : Bool := false
  drivers : Drivers := []
  /-- the handle of a deferred construction -/
  hook : Option Nat := none
  transforms : List Transform := []

/-- A tree of nodes; a child may have a name. -/
structure Module where
  node : Node
  children : List (Option String × Module) := []

instance : Inhabited Module := ⟨⟨{ kind := "" }, []⟩⟩

namespace Module

def empty (kind : String) : Module := { node := { kind } }

def kind (m : Module) : String := m.node.kind

/-- What a child adds to a path: its name or else the kind of its module. -/
def component (child : Option String × Module) : String := child.1.getD child.2.kind

def block (m : Module) (domain : String) : Block := m.node.blocks.get domain

def child? (m : Module) (name : String) : Option Module :=
  (m.children.find? fun c => c.1 == some name).map (·.2)

mutual
/-- The module and everything below it with their paths, parents first. -/
def walk (path : Path) : Module → List (Path × Node)
  | ⟨node, children⟩ => (path, node) :: walkAll path children

def walkAll (path : Path) : List (Option String × Module) → List (Path × Node)
  | [] => []
  | (name, m) :: rest =>
    walk (path.child (name.getD m.node.kind)) m ++ walkAll path rest
end

def nodes (m : Module) : List (Path × Node) := m.walk (.root m.kind)

end Module

end Gateware
