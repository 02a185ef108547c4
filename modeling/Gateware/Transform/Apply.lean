import Gateware.Module.Rename

/-! # Applying a transform

A rename is refused if some module of the subtree declares both names; otherwise it reaches the
whole subtree. A reset or an enable appends one statement to the block of its domain in every module
of the subtree, after all others, so that it decides. What was done before a refusal stays done.
-/
namespace Gateware

/-- The kind of the first module of the subtree that declares both names. -/
def Module.declaresBoth? (m : Module) (a b : String) : Option String :=
  let declares (n : Node) (name : String) := n.declared.any fun d => d.name == name
  (m.nodes.find? fun (_, n) => declares n a && declares n b).map fun (_, n) => n.kind

/-- Renames one after the other; a pair of equal names does nothing. -/
def Module.renamePairs (m : Module) :
    List (String × String) → Module × Except ConstructionError Unit
  | [] => (m, .ok ())
  | (old, new) :: rest =>
    if old = new then m.renamePairs rest
    else match m.declaresBoth? old new with
      | some kind => (m, .error (.duplicateDomain kind new))
      | none => (m.renameDomain old new).renamePairs rest

/-- The assignments that return signals to their reset values, those without a reset left out. -/
def resetAssignments : List Signal → Except ConstructionError Block
  | [] => .ok []
  | s :: rest =>
    if s.resetLess then resetAssignments rest
    else do
      let reset ← Value.constant s.reset s.shape
      let head ← Statement.checkedAssign (.signal s) reset
      let tail ← resetAssignments rest
      return head :: tail

def resetStatement (control : Value) (driven : List Signal) :
    Except ConstructionError (Option Statement) := do
  let resets ← resetAssignments driven
  return if resets.isEmpty then none else some (.branch control resets none)

def holdAssignments (driven : List Signal) : Block :=
  driven.map fun s => .assign (.signal s) (.signal s)

def enableStatement (control : Value) (driven : List Signal) :
    Except ConstructionError (Option Statement) :=
  .ok (if driven.isEmpty then none
    else some (.branch control [] (some (holdAssignments driven))))

/-- The node with the statement for the signals it drives in the domain, if there is one. -/
def Node.insertControl (n : Node) (domain : String)
    (statement : List Signal → Except ConstructionError (Option Statement)) :
    Except ConstructionError Node := do
  match ← statement (Block.drives (n.blocks.get domain)) with
  | none => return n
  | some s => return { n with blocks := n.blocks.extend domain [s] }

mutual
/-- The statement appended in the module and then below it. -/
def Module.insertControl (domain : String)
    (statement : List Signal → Except ConstructionError (Option Statement)) :
    Module → Module × Except ConstructionError Unit
  | ⟨node, children⟩ =>
    match node.insertControl domain statement with
    | .error e => (⟨node, children⟩, .error e)
    | .ok node =>
      let (children, result) := Module.insertControlAll domain statement children
      (⟨node, children⟩, result)

def Module.insertControlAll (domain : String)
    (statement : List Signal → Except ConstructionError (Option Statement)) :
    List (Option String × Module) → List (Option String × Module) × Except ConstructionError Unit
  | [] => ([], .ok ())
  | (name, m) :: rest =>
    match m.insertControl domain statement with
    | (m, .error e) => ((name, m) :: rest, .error e)
    | (m, .ok _) =>
      let (rest, result) := Module.insertControlAll domain statement rest
      ((name, m) :: rest, result)
end

/-- The subtree after the transform, as far as it went. -/
def Transform.apply (t : Transform) (m : Module) : Module × Except ConstructionError Unit :=
  match t.validate with
  | .error e => (m, .error e)
  | .ok _ =>
    match t with
    | .rename pairs => m.renamePairs pairs
    | .insertReset domain control => m.insertControl domain (resetStatement control)
    | .insertEnable domain control => m.insertControl domain (enableStatement control)

end Gateware
