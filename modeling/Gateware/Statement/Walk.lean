import Gateware.Statement.Basic

/-! # What statements mention

`drives` lists the signals a block can write and `reads` those its effect depends on: sources,
conditions, selectors and the indices of selected targets. `values` lists whole values in the order
of the text, and `mapValues` replaces them.
-/
namespace Gateware

mutual
/-- Every signal the statement can write, repeats kept. -/
def Statement.targets : Statement → List Signal
  | .assign target _ => target.targets
  | .branch _ taken otherwise => Block.targets taken ++ Block.otherwiseTargets otherwise
  | .switch _ cases => Case.targets cases

def Block.targets : List Statement → List Signal
  | [] => []
  | s :: rest => s.targets ++ Block.targets rest

def Block.otherwiseTargets : Option (List Statement) → List Signal
  | none => []
  | some body => Block.targets body

def Case.targets : List Case → List Signal
  | [] => []
  | ⟨_, body⟩ :: rest => Block.targets body ++ Case.targets rest
end

mutual
/-- Every signal the effect of the statement depends on, repeats kept. -/
def Statement.sources : Statement → List Signal
  | .assign target source => target.addressSignals ++ source.signals
  | .branch condition taken otherwise =>
    condition.signals ++ Block.sources taken ++ Block.otherwiseSources otherwise
  | .switch selector cases => selector.signals ++ Case.sources cases

def Block.sources : List Statement → List Signal
  | [] => []
  | s :: rest => s.sources ++ Block.sources rest

def Block.otherwiseSources : Option (List Statement) → List Signal
  | none => []
  | some body => Block.sources body

def Case.sources : List Case → List Signal
  | [] => []
  | ⟨_, body⟩ :: rest => Block.sources body ++ Case.sources rest
end

mutual
/-- Every value in the order of the text: targets before sources, conditions and selectors before
the bodies they guard. -/
def Statement.values : Statement → List Value
  | .assign target source => [target, source]
  | .branch condition taken otherwise =>
    condition :: (Block.values taken ++ Block.otherwiseValues otherwise)
  | .switch selector cases => selector :: Case.values cases

def Block.values : List Statement → List Value
  | [] => []
  | s :: rest => s.values ++ Block.values rest

def Block.otherwiseValues : Option (List Statement) → List Value
  | none => []
  | some body => Block.values body

def Case.values : List Case → List Value
  | [] => []
  | ⟨_, body⟩ :: rest => Block.values body ++ Case.values rest
end

mutual
def Statement.mapValues (f : Value → Value) : Statement → Statement
  | .assign target source => .assign (f target) (f source)
  | .branch condition taken otherwise =>
    .branch (f condition) (Block.mapValues f taken) (Block.mapOtherwise f otherwise)
  | .switch selector cases => .switch (f selector) (Case.mapValues f cases)

def Block.mapValues (f : Value → Value) : List Statement → List Statement
  | [] => []
  | s :: rest => s.mapValues f :: Block.mapValues f rest

def Block.mapOtherwise (f : Value → Value) : Option (List Statement) → Option (List Statement)
  | none => none
  | some body => some (Block.mapValues f body)

def Case.mapValues (f : Value → Value) : List Case → List Case
  | [] => []
  | ⟨patterns, body⟩ :: rest => ⟨patterns, Block.mapValues f body⟩ :: Case.mapValues f rest
end

def Block.drives (block : Block) : List Signal := distinctSignals (Block.targets block)

def Block.reads (block : Block) : List Signal := distinctSignals (Block.sources block)

end Gateware
