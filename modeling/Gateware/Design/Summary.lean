import Gateware.Design.Basic

/-! # Summaries of designs

A summary counts what a design holds, after it has checked what a design promises: no selection is
left, and every signal has an identifier.
-/
namespace Gateware

structure Summary where
  modules : List Path
  domains : List String
  identifiers : List String
  /-- statements counted at the top of each block -/
  statements : Nat
  specials : Nat
deriving DecidableEq

inductive SummaryFault where
  | selection (module : Path)
  | unnamed (signal : Signal) (module : Path)
deriving DecidableEq

def SummaryFault.message : SummaryFault → String
  | .selection module => "module " ++ quoted module.text ++ " still contains an array access"
  | .unnamed signal module =>
    "signal " ++ signal.text ++ " in " ++ quoted module.text ++ " has no identifier"

def Node.values (n : Node) : List Value := n.blocks.values ++ n.specials.flatMap Special.values

def Node.fault? (names : NameMap) (path : Path) (n : Node) : Option SummaryFault :=
  if n.values.any Value.selects then some (.selection path)
  else
    ((n.values.flatMap Value.signals ++ n.specials.flatMap Special.signals).find? fun s =>
      (names.get? s.id).isNone).map fun s => .unnamed s path

/-- What a design holds, if it keeps its promises. -/
def Design.summary (d : Design) : Except SummaryFault Summary :=
  match d.modules.findSome? fun (path, n) => n.fault? d.names path with
  | some fault => .error fault
  | none => .ok {
      modules := d.modules.map (·.1)
      domains := d.domains.map ClockDomain.name
      identifiers := d.names.entries.map (·.2)
      statements := (d.modules.flatMap fun (_, n) => n.blocks.flatMap fun (_, b) => b).length
      specials := (d.modules.flatMap fun (_, n) => n.specials).length }

end Gateware
