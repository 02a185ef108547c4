import Gateware.Config.Basic
import Gateware.Domain.Usage
import Gateware.Transform.Apply

/-! # Closing a tree of modules

A module is closed after its children. If it has a deferred construction, that is run round by
round, and the children of each round are closed, until a round adds none. Then the recorded
transforms are applied, the domains are resolved and the module takes no more changes. At the root
every domain in use must be visible.

What a deferred construction does is not data of the tree: a `Builder` gives each handle its
meaning and may keep a world of its own. Since the children it adds may defer constructions too,
nothing bounds the depth of the final tree, and closing takes the depth it may reach as an argument.
-/
namespace Gateware

structure Round (ω : Type) where
  module : Module
  /-- the number of the next new signal -/
  next : Nat
  world : ω
  result : Except ElabError Unit

/-- The meaning of the handles of deferred constructions. -/
abbrev Builder (ω : Type) := Nat → Module → Nat → ω → Round ω

structure Session (ω : Type) where
  /-- the number of the next new signal -/
  next : Nat
  notices : List Notice
  world : ω

def Session.note {ω : Type} (s : Session ω) (n : Notice) : Session ω :=
  { s with notices := s.notices ++ [n] }

/-- How closing ended; `exhausted` means that the tree grew deeper than allowed. -/
inductive Ending where
  | done
  | failed (e : ElabError)
  | exhausted

structure Progress (α ω : Type) where
  value : α
  session : Session ω
  ending : Ending

section

variable {ω : Type}

/-- Children closed in order by `close`; those after a failure are left alone. -/
def closeChildren (close : Path → Module → Session ω → Progress Module ω) (path : Path) :
    List (Option String × Module) → Session ω → Progress (List (Option String × Module)) ω
  | [], s => ⟨[], s, .done⟩
  | (name, m) :: rest, s =>
    let head := close (path.child (name.getD m.kind)) m s
    match head.ending with
    | .done =>
      let tail := closeChildren close path rest head.session
      { tail with value := (name, head.value) :: tail.value }
    | ending => ⟨(name, head.value) :: rest, head.session, ending⟩

def closeFrom (close : Path → Module → Session ω → Progress Module ω) (path : Path)
    (position : Nat) (m : Module) (s : Session ω) : Progress Module ω :=
  let added := closeChildren close path (m.children.drop position) s
  { added with value := { m with children := m.children.take position ++ added.value } }

/-- The rounds of a deferred construction. `left` more rounds may add children after `round` did. -/
def runRounds (build : Module → Session ω → Round ω)
    (close : Path → Module → Session ω → Progress Module ω) (path : Path) :
    Nat → Nat → Module → Session ω → Progress Module ω
  | left, round, m, s =>
    let before := m.children.length
    let r := build m s
    let s := { s with next := r.next, world := r.world }
    match r.result with
    | .error e => ⟨r.module, s, .failed e⟩
    | .ok _ =>
      if r.module.children.length = before then ⟨r.module, s, .done⟩
      else match left with
        | 0 => ⟨r.module, s, .failed (.finalization (.roundLimit path round))⟩
        | left + 1 =>
          let added := r.module.children.length - before
          let s := s.note (.childrenAdded path added (round + 1))
          let closed := closeFrom close path before r.module s
          match closed.ending with
          | .done => runRounds build close path left (round + 1) closed.value closed.session
          | _ => closed

/-- The deferred construction of a module, if it has one. A failure drops it. -/
def runHook (build : Builder ω) (close : Path → Module → Session ω → Progress Module ω)
    (maxRounds : Nat) (path : Path) (m : Module) (s : Session ω) : Progress Module ω :=
  match m.node.hook with
  | none => ⟨m, s, .done⟩
  | some hook =>
    let taken := { m with node := { m.node with hook := none } }
    let grown := runRounds (fun m s => build hook m s.next s.world) close path maxRounds 0 taken s
    match grown.ending with
    | .done =>
      let m := grown.value
      { grown with value := { m with node := { m.node with hook := some hook } } }
    | _ => grown

def applyTransforms (path : Path) : List Transform → Module → Session ω → Progress Module ω
  | [], m, s => ⟨m, s, .done⟩
  | t :: rest, m, s =>
    let s := s.note (.transforming path t)
    match t.apply m with
    | (m, .error e) => ⟨m, s, .failed (.construction e)⟩
    | (m, .ok _) => applyTransforms path rest m s

/-- The recorded transforms, which are used up. -/
def runTransforms (path : Path) (m : Module) (s : Session ω) : Progress Module ω :=
  let (transforms, node) := m.node.takeTransforms
  applyTransforms path transforms { m with node } s

/-- The domains of a module whose children are closed, checked for all uses if it is the root. -/
def settleDomains (config : DomainConfig) (root : Bool) (path : Path) (m : Module)
    (s : Session ω) : Progress Module ω :=
  let m := { m with node := m.node.resolveMemoryDomains config.defaultMemoryDomain }
  let resolution := m.resolve path
  let s := { s with notices := s.notices ++ resolution.notices }
  match resolution.result with
  | .error e => ⟨resolution.module, s, .failed (.naming e)⟩
  | .ok _ =>
    if root then
      let check := resolution.module.checkUses config.createSync path s.next
      let s := { s with next := check.next, notices := s.notices ++ check.notices }
      match check.result with
      | .error e => ⟨check.module, s, .failed e⟩
      | .ok _ => ⟨check.module, s, .done⟩
    else ⟨resolution.module, s, .done⟩

def markClosed (path : Path) (m : Module) (s : Session ω) : Progress Module ω :=
  ⟨{ m with node := m.node.markFinalized },
    s.note (.finalized path m.children.length m.node.resolved.length), .done⟩

/-- The next stage, unless this one failed. -/
def Progress.andThen (p : Progress Module ω) (f : Module → Session ω → Progress Module ω) :
    Progress Module ω :=
  match p.ending with
  | .done => f p.value p.session
  | _ => p

end

/-- A module and everything below it closed, down to a depth. -/
def Module.close {ω : Type} (config : Config) (build : Builder ω) :
    Nat → Bool → Path → Module → Session ω → Progress Module ω
  | 0, _, _, m, s => ⟨m, s, .exhausted⟩
  | depth + 1, root, path, m, s =>
    if m.node.finalized then ⟨m, s.note (.alreadyFinalized path), .done⟩
    else
      let close := Module.close config build depth false
      let children := closeFrom close path 0 m (s.note (.finalizing path))
      let grown := children.andThen (runHook build close config.finalize.maxRounds path)
      let transformed := grown.andThen (runTransforms path)
      let settled := transformed.andThen (settleDomains config.domains root path)
      settled.andThen (markClosed path)

def Module.finalize {ω : Type} (config : Config) (build : Builder ω) (depth : Nat) (m : Module)
    (s : Session ω) : Progress Module ω :=
  m.close config build depth true (.root m.kind) s

end Gateware
