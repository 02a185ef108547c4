import Gateware.Domain.Surface
import Gateware.Module.Edit

/-! # Every domain in use is visible

A module uses the domains of its blocks, of the clocks and resets it mentions and of its memory
ports, and sees what it or a module around it has resolved. A root that misses only `sync` may
declare it.
-/
namespace Gateware

/-- The domains one block uses: its own, unless it is empty, and those its values mention. -/
def blockDomains (domain : String) (block : Block) : List String :=
  (if block.isEmpty then [] else [domain]) ++ (Block.values block).flatMap Value.domains

def Node.usedDomains (n : Node) : List String :=
  keepFirst id [] (((n.blocks.flatMap fun (domain, block) => blockDomains domain block) ++
    n.specials.flatMap Special.domains).filter fun d => d != combDomain)

mutual
/-- The uses of domains that are not visible, parents first, with the path of the user. -/
def Module.undeclared (inherited : List String) (path : Path) : Module → List (Path × String)
  | ⟨node, children⟩ =>
    let visible := inherited ++ node.resolved.map ClockDomain.name
    ((node.usedDomains.filter fun d => !visible.contains d).map fun d => (path, d)) ++
      Module.undeclaredAll visible path children

def Module.undeclaredAll (visible : List String) (path : Path) :
    List (Option String × Module) → List (Path × String)
  | [] => []
  | (name, m) :: rest =>
    m.undeclared visible (path.child (name.getD m.node.kind)) ++
      Module.undeclaredAll visible path rest
end

/-- The first use of a domain that is not visible is an error. -/
def Module.checkVisible (path : Path) (m : Module) : Except ElabError Unit :=
  match m.undeclared [] path with
  | [] => .ok ()
  | (user, domain) :: _ => .error (.finalization (.undefinedDomain user domain))

structure UseCheck where
  module : Module
  /-- the number of the next new signal -/
  next : Nat
  notices : List Notice
  result : Except ElabError Unit

/-- The root with a `sync` domain of its own, whose signals are numbered from `next` on. -/
def Module.declareSync (path : Path) (m : Module) (next : Nat) : UseCheck :=
  match m.node.addDomain (.fresh next ClockDomain.default) with
  | .error e => ⟨m, next + 2, [.syncDeclared path], .error (.construction e)⟩
  | .ok node =>
    let resolution := Module.resolve path { m with node }
    let notices := .syncDeclared path :: resolution.notices
    match resolution.result with
    | .error e => ⟨resolution.module, next + 2, notices, .error (.naming e)⟩
    | .ok _ => ⟨resolution.module, next + 2, notices, resolution.module.checkVisible path⟩

/-- Checks every use of a domain in a resolved tree; a missing `sync` is declared if that is
allowed. -/
def Module.checkUses (createSync : Bool) (path : Path) (m : Module) (next : Nat) : UseCheck :=
  if createSync && (m.undeclared [] path).any fun (_, d) => d == ClockDomain.default then
    m.declareSync path next
  else ⟨m, next, [], m.checkVisible path⟩

end Gateware
