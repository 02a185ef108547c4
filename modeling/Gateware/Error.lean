import Gateware.Path
import Gateware.Value.Basic

/-! # What can go wrong while a design is built

Each error says its cause in the terms of the design; `code` gives the stable number of the cause
and `message` its wording. Construction causes have the numbers from 300 on, contested names those
from 400 on and causes met while a tree is closed those from 500 on.
-/
namespace Gateware

inductive Category where
  | error
  | warning
deriving DecidableEq, Repr

structure ErrorCode where
  category : Category
  number : Nat
deriving DecidableEq, Repr

/-- The letter of the category and at least three digits. -/
def ErrorCode.text (c : ErrorCode) : String :=
  let digits := toString c.number
  let padded := String.ofList (List.replicate (3 - digits.length) '0') ++ digits
  match c.category with
  | .error => "E" ++ padded
  | .warning => "W" ++ padded

def quoted (name : String) : String := "`" ++ name ++ "`"

inductive MemoryFault where
  | tooManyWords (count depth : Nat)
  | laneTooWide (granularity width : Nat)
  | lanesDoNotFit (granularity width : Nat)
  | asyncReadNotTransparent
deriving DecidableEq, Repr

def MemoryFault.message : MemoryFault → String
  | .tooManyWords count depth =>
    "initialization value count exceeds memory depth (" ++ toString count ++ " > " ++
      toString depth ++ ")"
  | .laneTooWide granularity width =>
    "write granularity " ++ toString granularity ++ " exceeds the " ++ toString width ++ "-bit word"
  | .lanesDoNotFit granularity width =>
    "write granularity " ++ toString granularity ++ " does not divide the " ++ toString width ++
      "-bit word"
  | .asyncReadNotTransparent => "an asynchronous read port must be write-first (transparent)"

inductive MachineFault where
  | combinational
  | noStates
  | repeatedState (state : String)
  | unknownReset (state : String)
  | unknownState (state : String)
deriving DecidableEq, Repr

def MachineFault.message : MachineFault → String
  | .combinational => "the state register cannot be driven by the `comb` domain"
  | .noStates => "no states were declared"
  | .repeatedState state => "state " ++ quoted state ++ " is declared twice"
  | .unknownReset state => "reset state " ++ quoted state ++ " is not declared"
  | .unknownState state => "state " ++ quoted state ++ " is not declared"

/-- A description that no design can have. -/
inductive ConstructionError where
  | sliceBounds (start stop : Int) (width : Nat)
  | bitIndex (index : Int) (width : Nat)
  | replCount (count : Nat)
  | constWidth (width : Nat)
  | valueWidth (width : Nat)
  | operatorArity (op : Op) (found : Nat)
  | patternWidth (pattern : String) (expected : Nat)
  | patternChar (pattern : String) (char : Char)
  | duplicateDefault (selector : Value)
  | notAssignable (target : Value)
  | notARow (value : Value)
  | rowAsValue
  | emptyRow
  | rowIndex (index length : Nat)
  | duplicateChild (module name : String)
  | duplicateDomain (module name : String)
  | reservedDomain (name : String)
  | closed (module : String)
  | driverConflict (module : String) (signal : Signal) (domain previous : String)
  | instanceKey (key : String)
  | inoutSelection (port : String)
  | memory (hint : String) (fault : MemoryFault)
  | machine (name : String) (fault : MachineFault)

namespace ConstructionError

def code (e : ConstructionError) : ErrorCode :=
  ⟨.error, match e with
    | .sliceBounds .. => 300
    | .bitIndex .. => 301
    | .replCount .. => 302
    | .constWidth .. => 303
    | .operatorArity .. => 304
    | .patternWidth .. => 305
    | .patternChar .. => 306
    | .duplicateDefault .. => 307
    | .notAssignable .. => 308
    | .notARow .. => 309
    | .rowAsValue => 310
    | .emptyRow => 311
    | .rowIndex .. => 312
    | .duplicateChild .. => 313
    | .duplicateDomain .. => 314
    | .reservedDomain .. => 315
    | .closed .. => 316
    | .driverConflict .. => 317
    | .instanceKey .. => 318
    | .memory .. => 319
    | .inoutSelection .. => 320
    | .valueWidth .. => 321
    | .machine .. => 322⟩

def message : ConstructionError → String
  | .sliceBounds start stop width =>
    "cannot slice bits [" ++ toString start ++ ":" ++ toString stop ++ "] of a " ++
      toString width ++ "-bit value"
  | .bitIndex index width =>
    "bit index " ++ toString index ++ " is out of range for a " ++ toString width ++ "-bit value"
  | .replCount count => "replication count must be at least 1, got " ++ toString count
  | .constWidth width =>
    "constant width " ++ toString width ++ " exceeds the " ++ toString wordBits ++ "-bit limit"
  | .valueWidth width =>
    "value width " ++ toString width ++ " exceeds the " ++ toString widthLimit ++ "-bit limit"
  | .operatorArity op found =>
    "operator " ++ quoted op.symbol ++ " takes " ++ toString op.arity ++ " operand(s), got " ++
      toString found
  | .patternWidth pattern expected =>
    "case pattern " ++ quoted pattern ++ " has " ++ toString pattern.length ++
      " bits but the selector is " ++ toString expected ++ " bits wide"
  | .patternChar pattern char =>
    "case pattern " ++ quoted pattern ++ " contains " ++ quoted (String.singleton char) ++
      "; only `0`, `1` and `-` are allowed"
  | .duplicateDefault selector => "switch on " ++ selector.text ++ " has more than one default case"
  | .notAssignable target => target.text ++ " cannot be assigned to"
  | .notARow value => value.text ++ " is not an array and cannot be indexed"
  | .rowAsValue => "an array of arrays must be fully indexed before it is used as a value"
  | .emptyRow => "cannot index an empty array"
  | .rowIndex index length =>
    "array index " ++ toString index ++ " is out of range for an array of " ++ toString length ++
      " elements"
  | .duplicateChild module name =>
    "module " ++ quoted module ++ " already has a submodule named " ++ quoted name
  | .duplicateDomain module name =>
    "module " ++ quoted module ++ " already declares clock domain " ++ quoted name
  | .reservedDomain name =>
    quoted name ++ " is reserved for combinational logic and cannot name a clock domain"
  | .closed module => "module " ++ quoted module ++ " is finalized and can no longer be modified"
  | .driverConflict module signal domain previous =>
    signal.text ++ " is driven from domain " ++ quoted domain ++ " but already has drivers in " ++
      quoted previous ++ " (module " ++ quoted module ++ ")"
  | .instanceKey key =>
    "instance key " ++ quoted key ++ " must start with `p_`, `i_`, `o_` or `io_`"
  | .inoutSelection port =>
    "inout port " ++ quoted port ++ " cannot connect to an array element selected at runtime"
  | .memory hint fault => "memory " ++ quoted hint ++ ": " ++ fault.message
  | .machine name fault => "state machine " ++ quoted name ++ ": " ++ fault.message

end ConstructionError

/-- Two things compete for one name. -/
inductive NamingError where
  /-- several children surface the domain and one of them has no name to tell it apart -/
  | anonymousDomain (module : Path) (domain : String) (contributors : List String)
  /-- several children of one name surface the domain -/
  | sharedName (module : Path) (domain name : String)
  /-- two children surface domains that end up with one name -/
  | surfacedTwice (module : Path) (domain first second : String)
  /-- a child surfaces a domain that the module declares itself -/
  | shadowed (module : Path) (child domain : String)
  /-- a signal has no identifier left to take -/
  | identifier (signal : Signal) (candidate : String)

namespace NamingError

def code (e : NamingError) : ErrorCode :=
  ⟨.error, match e with
    | .anonymousDomain .. => 400
    | .sharedName .. => 401
    | .surfacedTwice .. => 402
    | .shadowed .. => 403
    | .identifier .. => 404⟩

def message : NamingError → String
  | .anonymousDomain module domain contributors =>
    "domain " ++ quoted domain ++ " is defined by several submodules of " ++ quoted module.text ++
      " (" ++ ", ".intercalate contributors ++
      "), and anonymous submodules cannot be prefixed; name them or rename the domains explicitly"
  | .sharedName module domain name =>
    "domain " ++ quoted domain ++ " is defined by several submodules of " ++ quoted module.text ++
      " named " ++ quoted name ++ "; prefixing cannot tell them apart"
  | .surfacedTwice module domain first second =>
    "submodules " ++ quoted first ++ " and " ++ quoted second ++ " of " ++ quoted module.text ++
      " both surface domain " ++ quoted domain
  | .shadowed module child domain =>
    "domain " ++ quoted domain ++ " surfaced by submodule " ++ quoted child ++
      " collides with a domain declared in " ++ quoted module.text
  | .identifier signal candidate =>
    "no unique identifier for " ++ signal.text ++ ": " ++ quoted candidate ++
      " is already taken and numeric suffixes are disabled"

end NamingError

/-- A tree that cannot be closed, or is not closed yet. -/
inductive FinalizationError where
  | roundLimit (module : Path) (rounds : Nat)
  | notFinalized (module : Path)
  | undefinedDomain (module : Path) (domain : String)
deriving DecidableEq

namespace FinalizationError

def code (e : FinalizationError) : ErrorCode :=
  ⟨.error, match e with
    | .roundLimit .. => 500
    | .notFinalized .. => 501
    | .undefinedDomain .. => 502⟩

def message : FinalizationError → String
  | .roundLimit module rounds =>
    "finalization of " ++ quoted module.text ++
      " did not reach a fixpoint: its hook was still adding submodules after " ++
      toString rounds ++ " rounds"
  | .notFinalized module => "module " ++ quoted module.text ++ " must be finalized first"
  | .undefinedDomain module domain =>
    "module " ++ quoted module.text ++ " uses clock domain " ++ quoted domain ++
      ", which is not declared"

end FinalizationError

/-- Any failure on the way from a module tree to a design. -/
inductive ElabError where
  | construction (e : ConstructionError)
  | naming (e : NamingError)
  | finalization (e : FinalizationError)

namespace ElabError

def code : ElabError → ErrorCode
  | .construction e => e.code
  | .naming e => e.code
  | .finalization e => e.code

def message : ElabError → String
  | .construction e => e.message
  | .naming e => e.message
  | .finalization e => e.message

end ElabError

end Gateware
