/-! # Configuration

The settings of an elaboration, in three sections. Every setting has a default, and `check` says
which values no elaboration can work with.
-/
namespace Gateware

structure FinalizeConfig where
  /-- how many rounds in a row a deferred construction may add children -/
  maxRounds : Nat := 64
deriving DecidableEq, Repr

structure NamingConfig where
  /-- stands between the parts of an identifier -/
  separator : String := "_"
  /-- the name of a signal without a hint -/
  defaultHint : String := "sig"
  /-- whether a number may end an identifier that is still taken -/
  numericSuffix : Bool := true
deriving DecidableEq, Repr

structure DomainConfig where
  /-- clocks the memory ports that name no domain -/
  defaultMemoryDomain : String := "sync"
  /-- whether the root declares a missing `sync` domain -/
  createSync : Bool := true
deriving DecidableEq, Repr

structure Config where
  finalize : FinalizeConfig := {}
  naming : NamingConfig := {}
  domains : DomainConfig := {}
deriving DecidableEq, Repr

inductive ConfigFault where
  | noRounds
  | emptySeparator
  | emptyHint
  | emptyDomain
  | combinationalDomain
deriving DecidableEq, Repr

namespace ConfigFault

def field : ConfigFault → String
  | .noRounds => "finalize.max_rounds"
  | .emptySeparator => "naming.separator"
  | .emptyHint => "naming.default_hint"
  | .emptyDomain | .combinationalDomain => "domains.default_memory_domain"

def reason : ConfigFault → String
  | .noRounds => "must be at least 1"
  | .emptySeparator | .emptyHint | .emptyDomain => "must not be empty"
  | .combinationalDomain => "memory ports cannot be clocked by the combinational domain"

def message (f : ConfigFault) : String := "invalid value for `" ++ f.field ++ "`: " ++ f.reason

end ConfigFault

def Config.fault? (c : Config) : Option ConfigFault :=
  if c.finalize.maxRounds = 0 then some .noRounds
  else if c.naming.separator.isEmpty then some .emptySeparator
  else if c.naming.defaultHint.isEmpty then some .emptyHint
  else if c.domains.defaultMemoryDomain.isEmpty then some .emptyDomain
  else if c.domains.defaultMemoryDomain = "comb" then some .combinationalDomain
  else none

end Gateware
