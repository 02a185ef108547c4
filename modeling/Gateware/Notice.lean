import Gateware.Transform.Detail

/-! # Notices

What the library has to say besides its results: warnings about constructs that are accepted but
have no effect, and two finer levels that follow an elaboration.
-/
namespace Gateware

inductive Level where
  | warn
  | debug
  | trace
deriving DecidableEq, Repr

inductive Notice where
  /-- an integer pattern needs more bits than the selector has -/
  | patternDropped (value needed width : Nat) (selector : Value)
  | caseOmitted (selector : Value)
  /-- a read enable on a transparent memory port -/
  | readEnableLatches (memory : String)
  | elaborating (kind : String)
  | finalizing (path : Path)
  | alreadyFinalized (path : Path)
  | childrenAdded (path : Path) (count round : Nat)
  | transforming (path : Path) (transform : Transform)
  | domainRenamed (path : Path) (domain child name : String)
  | syncDeclared (path : Path)
  | finalized (path : Path) (children domains : Nat)
  | outputsRouted (path : Path) (count : Nat)
  | moduleLowered (path : Path) (reads writes : Nat)
  | lowered (reads writes : Nat)
  | signalNamed (signal : Signal) (name : String)
  | signalsNamed (count : Nat)

namespace Notice

def level : Notice → Level
  | .patternDropped .. | .caseOmitted .. | .readEnableLatches .. => .warn
  | .elaborating .. | .finalizing .. | .domainRenamed .. | .syncDeclared .. => .debug
  | .finalized .. | .lowered .. | .signalsNamed .. => .debug
  | .alreadyFinalized .. | .childrenAdded .. | .transforming .. | .outputsRouted .. => .trace
  | .moduleLowered .. | .signalNamed .. => .trace

def message : Notice → String
  | .patternDropped value needed width selector =>
    "case pattern " ++ toString value ++ " (" ++ toString needed ++ " bits) is wider than the " ++
      toString width ++ "-bit selector " ++ selector.text ++ " and can never match; dropping it"
  | .caseOmitted selector =>
    "no pattern of a case on " ++ selector.text ++ " can match; omitting the case"
  | .readEnableLatches memory =>
    "memory " ++ quoted memory ++
      ": a read enable on a write-first port only latches the address; " ++
      "the data still follows writes"
  | .elaborating kind => "elaborating " ++ quoted kind
  | .finalizing path => "finalizing " ++ quoted path.text
  | .alreadyFinalized path => quoted path.text ++ " is already finalized"
  | .childrenAdded path count round =>
    "hook of " ++ quoted path.text ++ " added " ++ toString count ++ " submodule(s) in round " ++
      toString round
  | .transforming path transform => "applying " ++ transform.detail ++ " to " ++ quoted path.text
  | .domainRenamed path domain child name =>
    quoted path.text ++ ": renaming domain " ++ quoted domain ++ " of submodule " ++ quoted child ++
      " to " ++ quoted name
  | .syncDeclared path => quoted path.text ++ ": declaring the default `sync` domain"
  | .finalized path children domains =>
    "finalized " ++ quoted path.text ++ " (" ++ toString children ++ " submodule(s), " ++
      toString domains ++ " visible domain(s))"
  | .outputsRouted path count =>
    quoted path.text ++ ": " ++ toString count ++ " instance output(s) routed through glue logic"
  | .moduleLowered path reads writes =>
    quoted path.text ++ ": " ++ toString reads ++ " read(s), " ++ toString writes ++
      " write(s) lowered"
  | .lowered reads writes =>
    "lowered " ++ toString reads ++ " array read(s) and " ++ toString writes ++ " array write(s)"
  | .signalNamed signal name => signal.text ++ " -> " ++ quoted name
  | .signalsNamed count => "named " ++ toString count ++ " signal(s)"

end Notice

end Gateware
