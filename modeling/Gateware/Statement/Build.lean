import Gateware.Notice
import Gateware.Statement.Walk

/-! # Building statements with checks

An assignment needs a place on its left and whole values on both sides. A switch refuses malformed
patterns and a second default case; integer patterns that no selector of its width can hold are
dropped with a notice, and so is a case left without patterns that way, which is not the same as a
case that never had any.
-/
namespace Gateware

def Statement.checkedAssign (target source : Value) : Except ConstructionError Statement :=
  if target.assignable then do
    target.checkComplete
    source.checkComplete
    return .assign target source
  else .error (.notAssignable target)

def Pattern.bitsNeeded (value : Nat) : Nat := max (Bits.length value) 1

/-- A bit pattern has one of `0`, `1` and `-` for every bit of the selector. -/
def checkBitPattern (pattern : String) (width : Nat) : Except ConstructionError Unit :=
  if pattern.length ≠ width then .error (.patternWidth pattern width)
  else match pattern.toList.find? fun c => c != '0' && c != '1' && c != '-' with
    | some c => .error (.patternChar pattern c)
    | none => .ok ()

structure Pruned (α : Type) where
  notices : List Notice
  result : Except ConstructionError α

def prunePatterns (selector : Value) : List Pattern → Pruned (List Pattern)
  | [] => ⟨[], .ok []⟩
  | .bits pattern :: rest =>
    match checkBitPattern pattern selector.width with
    | .error e => ⟨[], .error e⟩
    | .ok _ =>
      let tail := prunePatterns selector rest
      ⟨tail.notices, tail.result.map (.bits pattern :: ·)⟩
  | .int value :: rest =>
    let tail := prunePatterns selector rest
    if selector.width < Pattern.bitsNeeded value then
      ⟨.patternDropped value (Pattern.bitsNeeded value) selector.width selector :: tail.notices,
        tail.result⟩
    else ⟨tail.notices, tail.result.map (.int value :: ·)⟩

/-- The cases that a selector can take; `seen` tells that a default case came before. -/
def pruneCases (selector : Value) : Bool → List Case → Pruned (List Case)
  | _, [] => ⟨[], .ok []⟩
  | seen, ⟨[], body⟩ :: rest =>
    if seen then ⟨[], .error (.duplicateDefault selector)⟩
    else
      let tail := pruneCases selector true rest
      ⟨tail.notices, tail.result.map (⟨[], body⟩ :: ·)⟩
  | seen, ⟨patterns, body⟩ :: rest =>
    let head := prunePatterns selector patterns
    match head.result with
    | .error e => ⟨head.notices, .error e⟩
    | .ok [] =>
      let tail := pruneCases selector seen rest
      ⟨head.notices ++ .caseOmitted selector :: tail.notices, tail.result⟩
    | .ok kept =>
      let tail := pruneCases selector seen rest
      ⟨head.notices ++ tail.notices, tail.result.map (⟨kept, body⟩ :: ·)⟩

def Statement.checkedSwitch (selector : Value) (cases : List Case) : Pruned Statement :=
  match selector.checkComplete with
  | .error e => ⟨[], .error e⟩
  | .ok _ =>
    let kept := pruneCases selector false cases
    ⟨kept.notices, kept.result.map (.switch selector)⟩

/-- The arms after the first of a chain of conditions, each nested in the one before. -/
def chainArms : List (Value × Block) → Option Block → Except ConstructionError (Option Block)
  | [], otherwise => .ok otherwise
  | (condition, body) :: rest, otherwise => do
    let inner ← chainArms rest otherwise
    condition.checkComplete
    return some [.branch condition body inner]

/-- A chain of conditions, of which the first that holds decides. -/
def Statement.chain (condition : Value) (body : Block) (others : List (Value × Block))
    (otherwise : Option Block) : Except ConstructionError Statement := do
  let inner ← chainArms others otherwise
  condition.checkComplete
  return .branch condition body inner

end Gateware
