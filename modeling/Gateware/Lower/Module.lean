import Gateware.Lower.Write
import Gateware.Module.Basic

/-! # Closed trees without selections

Every statement and every connection of a closed tree is lowered. An instance cannot drive a
selection, so it gets a new signal instead, which a combinational assignment passes on. A module
that is still open is refused; what comes before it stays lowered.
-/
namespace Gateware

structure LoweredPorts where
  ports : List InstancePort
  glue : Block
  count : LowerCount

/-- The connections of an instance of the given kind; new signals are numbered from `next` on. -/
def lowerPorts (kind : String) : Nat → List InstancePort → LoweredPorts
  | _, [] => ⟨[], [], {}⟩
  | next, p :: rest =>
    if p.role = .output then
      if p.value.selects then
        let s := Signal.like next p.value (kind ++ "_" ++ p.name)
        let tail := lowerPorts kind (next + 1) rest
        ⟨{ p with value := .signal s } :: tail.ports,
          lowerAssign p.value (.signal s) :: tail.glue,
          assignCount p.value (.signal s) + tail.count⟩
      else
        let tail := lowerPorts kind next rest
        { tail with ports := p :: tail.ports }
    else
      let tail := lowerPorts kind next rest
      { tail with
        ports := { p with value := p.value.lowerReads } :: tail.ports
        count := ⟨p.value.selectCount, 0⟩ + tail.count }

structure LoweredSpecials where
  specials : List Special
  glue : Block
  count : LowerCount

/-- The specials of a module; every new signal belongs to one statement. -/
def lowerSpecials : Nat → List Special → LoweredSpecials
  | _, [] => ⟨[], [], {}⟩
  | next, .memory m :: rest =>
    let tail := lowerSpecials next rest
    { tail with specials := .memory m :: tail.specials }
  | next, .primitive i :: rest =>
    let head := lowerPorts i.kind next i.ports
    let tail := lowerSpecials (next + head.glue.length) rest
    ⟨.primitive { i with ports := head.ports } :: tail.specials, head.glue ++ tail.glue,
      head.count + tail.count⟩

structure LoweredNode where
  node : Node
  next : Nat
  routed : Nat
  count : LowerCount

def Node.lower (n : Node) (next : Nat) : LoweredNode :=
  let blocks := n.blocks.map fun (domain, block) => (domain, Block.lower block)
  let inBlocks := Block.lowerCount (n.blocks.flatMap fun (_, block) => block)
  let lowered := lowerSpecials next n.specials
  { node := { n with
      blocks :=
        if lowered.glue.isEmpty then blocks else Blocks.extend blocks combDomain lowered.glue
      specials := lowered.specials }
    next := next + lowered.glue.length
    routed := lowered.glue.length
    count := inBlocks + lowered.count }

def LoweredNode.notices (l : LoweredNode) (path : Path) : List Notice :=
  (if l.routed = 0 then [] else [.outputsRouted path l.routed]) ++
    (if l.count = {} then [] else [.moduleLowered path l.count.reads l.count.writes])

/-- Something lowered as far as it was closed. -/
structure Lowering (α : Type) where
  value : α
  /-- the number of the next new signal -/
  next : Nat
  notices : List Notice
  count : LowerCount
  result : Except FinalizationError Unit

mutual
def Module.lowerFrom (path : Path) : Module → Nat → Lowering Module
  | ⟨node, children⟩, next =>
    if node.finalized then
      let l := node.lower next
      let below := Module.lowerAll path children l.next
      ⟨⟨l.node, below.value⟩, below.next, l.notices path ++ below.notices, l.count + below.count,
        below.result⟩
    else ⟨⟨node, children⟩, next, [], {}, .error (.notFinalized path)⟩

def Module.lowerAll (path : Path) :
    List (Option String × Module) → Nat → Lowering (List (Option String × Module))
  | [], next => ⟨[], next, [], {}, .ok ()⟩
  | (name, m) :: rest, next =>
    let head := m.lowerFrom (path.child (name.getD m.node.kind)) next
    match head.result with
    | .error e => ⟨(name, head.value) :: rest, head.next, head.notices, head.count, .error e⟩
    | .ok _ =>
      let tail := Module.lowerAll path rest head.next
      ⟨(name, head.value) :: tail.value, tail.next, head.notices ++ tail.notices,
        head.count + tail.count, tail.result⟩
end

/-- The tree without selections. -/
def Module.lower (m : Module) (next : Nat) : Lowering Module :=
  let l := m.lowerFrom (.root m.kind) next
  match l.result with
  | .error _ => l
  | .ok _ => { l with notices := l.notices ++ [.lowered l.count.reads l.count.writes] }

end Gateware
