import Gateware.Module.Rename
import Gateware.Notice

/-! # Which domains a module sees

A module sees the domains it declares and those its children surface. If several children surface
one name, every one of them gets the name of its child in front, in its whole subtree; children
without names cannot be told apart that way. What is left must be free of clashes.
-/
namespace Gateware

structure Contribution where
  /-- the place of the child -/
  position : Nat
  /-- the name of the child -/
  child : Option String
  domain : ClockDomain

namespace Contribution

/-- The child as messages call it. -/
def owner (c : Contribution) : String :=
  c.child.getD ("<anonymous #" ++ toString c.position ++ ">")

end Contribution

def contributionsFrom (position : Nat) : List (Option String × Module) → List Contribution
  | [] => []
  | (name, m) :: rest =>
    (m.node.resolved.filter fun d => !d.isLocal).map (fun d => ⟨position, name, d⟩) ++
      contributionsFrom (position + 1) rest

def Module.contributions (m : Module) : List Contribution := contributionsFrom 0 m.children

/-- The names surfaced more than once, each with its contributions, in the order of first
mention. -/
def collisions (contributions : List Contribution) : List (String × List Contribution) :=
  let names := keepFirst id [] (contributions.map fun c => c.domain.name)
  (names.map fun name => (name, contributions.filter fun c => c.domain.name == name)).filter
    fun (_, group) => 1 < group.length

/-- Why the contributions of one name cannot be told apart by the names of their children. -/
def groupFault? (path : Path) (domain : String) (group : List Contribution) : Option NamingError :=
  if group.any fun c => c.child.isNone then
    some (.anonymousDomain path domain (group.map Contribution.owner))
  else
    (firstRepeat? [] (group.map Contribution.owner)).map fun name =>
      .sharedName path domain name

/-- The name of a contested domain: that of the child goes in front. -/
def contestedName (child domain : String) : String := child ++ "_" ++ domain

def renameGroup (domain : String) (group : List Contribution)
    (children : List (Option String × Module)) : List (Option String × Module) :=
  group.foldl (fun children c =>
    children.modify c.position fun (name, m) =>
      (name, m.renameDomain domain (contestedName c.owner domain))) children

def groupNotices (path : Path) (domain : String) (group : List Contribution) : List Notice :=
  group.map fun c => .domainRenamed path domain c.owner (contestedName c.owner domain)

/-- A module as far as its domains could be resolved, and what stopped that. -/
structure Resolution where
  module : Module
  notices : List Notice
  result : Except NamingError Unit

def settleCollisions (path : Path) (m : Module) : List (String × List Contribution) → Resolution
  | [] => ⟨m, [], .ok ()⟩
  | (domain, group) :: rest =>
    match groupFault? path domain group with
    | some e => ⟨m, [], .error e⟩
    | none =>
      let next :=
        settleCollisions path { m with children := renameGroup domain group m.children } rest
      { next with notices := groupNotices path domain group ++ next.notices }

/-- The surfaced domains, refused if one has the name of a declared domain or of one before it. -/
def collectSurfaced (path : Path) (declared : List ClockDomain) :
    List Contribution → List Contribution → Except NamingError (List ClockDomain)
  | surfaced, [] => .ok (declared ++ surfaced.map Contribution.domain)
  | surfaced, c :: rest =>
    if declared.any fun d => d.name == c.domain.name then
      .error (.shadowed path c.owner c.domain.name)
    else match surfaced.find? fun s => s.domain.name == c.domain.name with
      | some first => .error (.surfacedTwice path c.domain.name first.owner c.owner)
      | none => collectSurfaced path declared (surfaced ++ [c]) rest

/-- The module with the domains it sees. -/
def Module.resolve (path : Path) (m : Module) : Resolution :=
  let settled := settleCollisions path m (collisions m.contributions)
  match settled.result with
  | .error _ => settled
  | .ok _ =>
    match collectSurfaced path m.node.declared [] settled.module.contributions with
    | .error e => { settled with result := .error e }
    | .ok resolved =>
      { settled with
        module := { settled.module with node := { settled.module.node with resolved } } }

end Gateware
