import Gateware.Module.Basic

/-! # Changing an open module

What adds to a module refuses a finalized one. Statements are refused if they drive a signal that
another domain of the module drives already; names of children and of declared domains are taken
once.
-/
namespace Gateware

namespace Node

/-- Refuses a node that takes no changes any more. -/
def checkOpen (n : Node) : Except ConstructionError Unit :=
  if n.finalized then .error (.closed n.kind) else .ok ()

/-- The first signal that another domain drives, with that domain. -/
def conflict? (n : Node) (domain : String) : List Signal → Option (Signal × String)
  | [] => none
  | s :: rest =>
    match n.drivers.get? s.id with
    | some previous => if previous = domain then conflict? n domain rest else some (s, previous)
    | none => conflict? n domain rest

/-- The node with statements added to a domain, and with that domain as their driver. -/
def addStatements (n : Node) (domain : String) (block : Block) : Except ConstructionError Node := do
  n.checkOpen
  let driven := Block.drives block
  match n.conflict? domain driven with
  | some (signal, previous) => throw (.driverConflict n.kind signal domain previous)
  | none =>
    return { n with
      drivers := n.drivers.setAll driven domain
      blocks := n.blocks.extend domain block }

/-- The switches of a machine added domain by domain. What was added before a refusal stays. -/
def addSwitches (n : Node) : List (String × Statement) → Node × Except ConstructionError Unit
  | [] => (n, .ok ())
  | (domain, s) :: rest =>
    match n.addStatements domain [s] with
    | .error e => (n, .error e)
    | .ok next => next.addSwitches rest

/-- The node with a state machine, as far as it could be added. -/
def addMachine (n : Node) (machine : Machine) : Node × Except ConstructionError Unit :=
  match n.checkOpen with
  | .error e => (n, .error e)
  | .ok _ =>
    match machine.switches with
    | .error e => (n, .error e)
    | .ok switches => n.addSwitches switches

def addSpecial (n : Node) (special : Special) : Except ConstructionError Node := do
  n.checkOpen
  return { n with specials := n.specials ++ [special] }

def addDomain (n : Node) (domain : ClockDomain) : Except ConstructionError Node := do
  n.checkOpen
  if domain.name = combDomain then throw (.reservedDomain domain.name)
  if n.declared.any fun d => d.name == domain.name then
    throw (.duplicateDomain n.kind domain.name)
  return { n with declared := n.declared ++ [domain] }

/-- The node with a deferred construction, in place of one it may have. -/
def setHook (n : Node) (hook : Nat) : Except ConstructionError Node := do
  n.checkOpen
  return { n with hook := some hook }

def addTransform (n : Node) (transform : Transform) : Except ConstructionError Node := do
  n.checkOpen
  transform.validate
  return { n with transforms := n.transforms ++ [transform] }

def takeTransforms (n : Node) : List Transform × Node := (n.transforms, { n with transforms := [] })

def markFinalized (n : Node) : Node := { n with finalized := true }

/-- The memory ports that name no domain get this one. -/
def resolveMemoryDomains (n : Node) (domain : String) : Node :=
  { n with specials := n.specials.map fun
      | .memory m =>
        .memory { m with ports := m.ports.map fun p =>
          { p with clockDomain := some (p.clockDomain.getD domain) } }
      | special => special }

end Node

namespace Module

/-- The module with a child, which may have a name no other child has. -/
def addChild (m : Module) (name : Option String) (child : Module) :
    Except ConstructionError Module := do
  m.node.checkOpen
  match name with
  | none => return { m with children := m.children ++ [(none, child)] }
  | some name =>
    if (m.child? name).isSome then throw (.duplicateChild m.kind name)
    return { m with children := m.children ++ [(some name, child)] }

/-- The module with the child at a position given a name, or none. Nothing is checked. -/
def nameChild (m : Module) (position : Nat) (name : Option String) : Module :=
  { m with children := m.children.modify position fun (_, child) => (name, child) }

end Module

end Gateware
