import Gateware.Lower.Read
import Gateware.Statement.Walk

/-! # Selected targets as switches

An assignment to a selection becomes a switch on its index, with one case for every position but
the last, whose element is the target of the default case. A target with several selections is
split at the outermost and leftmost one first, so the switches nest.
-/
namespace Gateware

/-- How many selections were replaced in what is read and in what is written. -/
structure LowerCount where
  reads : Nat := 0
  writes : Nat := 0
deriving DecidableEq, Repr

instance : Add LowerCount := ⟨fun a b => ⟨a.reads + b.reads, a.writes + b.writes⟩⟩

instance : Zero LowerCount := ⟨{}⟩

/-! ## The indices of targets -/

mutual
/-- A target with its indices lowered as values that are read. -/
def Value.lowerIndices : Value → Value
  | .select row index => .select (Row.lowerIndices row) index.lowerReads
  | .slice value start stop => .slice value.lowerIndices start stop
  | .concat parts => .concat (Value.lowerAllIndices parts)
  | v => v

def Value.lowerAllIndices : List Value → List Value
  | [] => []
  | v :: vs => v.lowerIndices :: Value.lowerAllIndices vs

def Row.lowerIndices : List Element → List Element
  | [] => []
  | e :: es => Element.lowerIndices e :: Row.lowerIndices es

def Element.lowerIndices : Element → Element
  | .value v => .value v.lowerIndices
  | .row elements => .row (Row.lowerIndices elements)
end

mutual
def Value.indexCount : Value → Nat
  | .select row index => Row.indexCount row + index.selectCount
  | .slice value _ _ => value.indexCount
  | .concat parts => Value.indexCounts parts
  | _ => 0

def Value.indexCounts : List Value → Nat
  | [] => 0
  | v :: vs => v.indexCount + Value.indexCounts vs

def Row.indexCount : List Element → Nat
  | [] => 0
  | e :: es => Element.indexCount e + Row.indexCount es

def Element.indexCount : Element → Nat
  | .value v => v.indexCount
  | .row elements => Row.indexCount elements
end

/-! ## Splitting -/

/-- A switch on the index over the statements of the reachable positions, the last one by
default. -/
def caseChain (index : Value) (arms : List (Nat × Statement)) (last : Statement) : Statement :=
  match arms.filter fun (position, _) => index.shape.reaches position with
  | [] => last
  | kept =>
    .switch index ((kept.map fun (position, s) => Case.mk [.int position] [s]) ++ [⟨[], [last]⟩])

mutual
/-- The statement for part of a target. `plug` puts a part back in its place, and `done` makes the
statement for a part without selections. A row without values stays as it is. -/
def Value.split (source : Value) : (Value → Value) → (Value → Statement) → Value → Statement
  | plug, done, .select row index =>
    match Row.splitFrom source plug done 0 row with
    | none => .assign (plug (.select row index)) source
    | some (arms, last) => caseChain index arms last
  | plug, done, .slice value start stop =>
    Value.split source (fun v => plug (.slice v start stop)) (fun v => done (.slice v start stop))
      value
  | plug, done, .concat parts =>
    Value.splitParts source (fun vs => plug (.concat vs)) (fun vs => done (.concat vs)) parts
  | _, done, v => done v

def Value.splitParts (source : Value) :
    (List Value → Value) → (List Value → Statement) → List Value → Statement
  | _, done, [] => done []
  | plug, done, v :: vs =>
    Value.split source (fun w => plug (w :: vs))
      (fun w => Value.splitParts source (fun ws => plug (w :: ws)) (fun ws => done (w :: ws)) vs) v

/-- The statements for the values of a row: those before the last with their positions, and the
last. -/
def Row.splitFrom (source : Value) : (Value → Value) → (Value → Statement) → Nat →
    List Element → Option (List (Nat × Statement) × Statement)
  | _, _, _, [] => none
  | plug, done, position, .row _ :: rest => Row.splitFrom source plug done (position + 1) rest
  | plug, done, position, .value v :: rest =>
    let head := Value.split source plug done v
    match Row.splitFrom source plug done (position + 1) rest with
    | none => some ([], head)
    | some (arms, last) => some ((position, head) :: arms, last)
end

mutual
/-- How many selections are split, over all cases; `after` counts what is split later in each. -/
def Value.splitCount (after : Nat) : Value → Nat
  | .select row index =>
    match Row.splitCountFrom after index.shape 0 row with
    | none => 1
    | some (arms, last) => 1 + arms + last
  | .slice value _ _ => value.splitCount after
  | .concat parts => Value.splitCounts after parts
  | _ => after

def Value.splitCounts (after : Nat) : List Value → Nat
  | [] => after
  | v :: vs => v.splitCount (Value.splitCounts after vs)

/-- The counts of the reachable values before the last one, added up, and of the last one. -/
def Row.splitCountFrom (after : Nat) (index : Shape) : Nat → List Element → Option (Nat × Nat)
  | _, [] => none
  | position, .row _ :: rest => Row.splitCountFrom after index (position + 1) rest
  | position, .value v :: rest =>
    let head := v.splitCount after
    match Row.splitCountFrom after index (position + 1) rest with
    | none => some (0, head)
    | some (arms, last) => some ((if index.reaches position then head else 0) + arms, last)
end

/-- The statement that assigns the source to a target without selections in its indices. -/
def splitAssign (target source : Value) : Statement :=
  Value.split source id (fun t => .assign t source) target

/-! ## Statements -/

def lowerAssign (target source : Value) : Statement :=
  splitAssign target.lowerIndices source.lowerReads

def assignCount (target source : Value) : LowerCount :=
  ⟨source.selectCount + target.indexCount, target.lowerIndices.splitCount 0⟩

mutual
def Statement.lower : Statement → Statement
  | .assign target source => lowerAssign target source
  | .branch condition taken otherwise =>
    .branch condition.lowerReads (Block.lower taken) (Block.lowerOtherwise otherwise)
  | .switch selector cases => .switch selector.lowerReads (Case.lower cases)

def Block.lower : List Statement → List Statement
  | [] => []
  | s :: rest => s.lower :: Block.lower rest

def Block.lowerOtherwise : Option (List Statement) → Option (List Statement)
  | none => none
  | some body => some (Block.lower body)

def Case.lower : List Case → List Case
  | [] => []
  | ⟨patterns, body⟩ :: rest => ⟨patterns, Block.lower body⟩ :: Case.lower rest
end

mutual
def Statement.lowerCount : Statement → LowerCount
  | .assign target source => assignCount target source
  | .branch condition taken otherwise =>
    ⟨condition.selectCount, 0⟩ + Block.lowerCount taken + Block.otherwiseCount otherwise
  | .switch selector cases => ⟨selector.selectCount, 0⟩ + Case.lowerCount cases

def Block.lowerCount : List Statement → LowerCount
  | [] => {}
  | s :: rest => s.lowerCount + Block.lowerCount rest

def Block.otherwiseCount : Option (List Statement) → LowerCount
  | none => {}
  | some body => Block.lowerCount body

def Case.lowerCount : List Case → LowerCount
  | [] => {}
  | ⟨_, body⟩ :: rest => Block.lowerCount body + Case.lowerCount rest
end

end Gateware
