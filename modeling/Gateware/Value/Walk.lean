import Gateware.Value.Basic

/-! # What a value mentions, and replacing parts of it

The walks list signals, domains and driven signals in the order of the text, the elements of a row
before its index. `rebuild` replaces every node after its children; `Row.leaves` sees
through nested rows.
-/
namespace Gateware

mutual
/-- The leaf values of a row, those of nested rows included. -/
def Row.leaves : List Element → List Value
  | [] => []
  | e :: es => Element.leaves e ++ Row.leaves es

def Element.leaves : Element → List Value
  | .value v => [v]
  | .row elements => Row.leaves elements
end

mutual
/-- Every mention of a signal, repeats kept. -/
def Value.signals : Value → List Signal
  | .signal s => [s]
  | .const _ | .clock _ | .reset _ => []
  | .op _ operands => Value.allSignals operands
  | .concat parts => Value.allSignals parts
  | .slice value _ _ => value.signals
  | .repl value _ => value.signals
  | .select row index => Row.signals row ++ index.signals

def Value.allSignals : List Value → List Signal
  | [] => []
  | v :: vs => v.signals ++ Value.allSignals vs

def Row.signals : List Element → List Signal
  | [] => []
  | e :: es => Element.signals e ++ Row.signals es

def Element.signals : Element → List Signal
  | .value v => v.signals
  | .row elements => Row.signals elements
end

mutual
/-- The domain of every clock or reset mentioned, repeats kept. -/
def Value.domains : Value → List String
  | .clock domain | .reset domain => [domain]
  | .const _ | .signal _ => []
  | .op _ operands => Value.allDomains operands
  | .concat parts => Value.allDomains parts
  | .slice value _ _ => value.domains
  | .repl value _ => value.domains
  | .select row index => Row.domains row ++ index.domains

def Value.allDomains : List Value → List String
  | [] => []
  | v :: vs => v.domains ++ Value.allDomains vs

def Row.domains : List Element → List String
  | [] => []
  | e :: es => Element.domains e ++ Row.domains es

def Element.domains : Element → List String
  | .value v => v.domains
  | .row elements => Row.domains elements
end

mutual
/-- The signals an assignment to this value can write, repeats kept. -/
def Value.targets : Value → List Signal
  | .signal s => [s]
  | .slice value _ _ => value.targets
  | .concat parts => Value.allTargets parts
  | .select row _ => Row.targets row
  | _ => []

def Value.allTargets : List Value → List Signal
  | [] => []
  | v :: vs => v.targets ++ Value.allTargets vs

def Row.targets : List Element → List Signal
  | [] => []
  | e :: es => Element.targets e ++ Row.targets es

def Element.targets : Element → List Signal
  | .value v => v.targets
  | .row elements => Row.targets elements
end

mutual
/-- The signals that decide where an assignment to this value writes: those of the indices of its
selections. -/
def Value.addressSignals : Value → List Signal
  | .select row index => index.signals ++ Row.addressSignals row
  | .slice value _ _ => value.addressSignals
  | .concat parts => Value.allAddressSignals parts
  | _ => []

def Value.allAddressSignals : List Value → List Signal
  | [] => []
  | v :: vs => v.addressSignals ++ Value.allAddressSignals vs

def Row.addressSignals : List Element → List Signal
  | [] => []
  | e :: es => Element.addressSignals e ++ Row.addressSignals es

def Element.addressSignals : Element → List Signal
  | .value v => v.addressSignals
  | .row elements => Row.addressSignals elements
end

mutual
def Value.selects : Value → Bool
  | .select _ _ => true
  | .op _ operands => Value.anySelects operands
  | .concat parts => Value.anySelects parts
  | .slice value _ _ => value.selects
  | .repl value _ => value.selects
  | .const _ | .signal _ | .clock _ | .reset _ => false

def Value.anySelects : List Value → Bool
  | [] => false
  | v :: vs => v.selects || Value.anySelects vs
end

mutual
/-- The tree with every node replaced by `f`, children first. -/
def Value.rebuild (f : Value → Value) : Value → Value
  | .const c => f (.const c)
  | .signal s => f (.signal s)
  | .clock domain => f (.clock domain)
  | .reset domain => f (.reset domain)
  | .op op operands => f (.op op (Value.rebuildAll f operands))
  | .slice value start stop => f (.slice (value.rebuild f) start stop)
  | .concat parts => f (.concat (Value.rebuildAll f parts))
  | .repl value count => f (.repl (value.rebuild f) count)
  | .select row index => f (.select (Row.rebuild f row) (index.rebuild f))

def Value.rebuildAll (f : Value → Value) : List Value → List Value
  | [] => []
  | v :: vs => v.rebuild f :: Value.rebuildAll f vs

def Row.rebuild (f : Value → Value) : List Element → List Element
  | [] => []
  | e :: es => Element.rebuild f e :: Row.rebuild f es

def Element.rebuild (f : Value → Value) : Element → Element
  | .value v => .value (v.rebuild f)
  | .row elements => .row (Row.rebuild f elements)
end

def Value.substitute (v : Value) (s : Signal) (replacement : Value) : Value :=
  v.rebuild fun
    | .signal t => if t.same s then replacement else .signal t
    | node => node

def Value.renameDomain (v : Value) (old new : String) : Value :=
  v.rebuild fun
    | .clock d => .clock (if d = old then new else d)
    | .reset d => .reset (if d = old then new else d)
    | node => node

end Gateware
