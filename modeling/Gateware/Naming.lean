import Gateware.Config.Basic
import Gateware.Module.Basic
import Gateware.Notice

/-! # Identifiers

Every signal of a closed tree gets one identifier: its hint; if that is taken, the hint with the
components of its scope in front, the innermost first; and if that does not help, a number at the
end. Signals are named in the order in which the tree mentions them.
-/
namespace Gateware

/-- The identifiers given so far, by the number of the signal. -/
structure NameMap where
  entries : List (Nat × String) := []
deriving DecidableEq, Repr

namespace NameMap

def get? (names : NameMap) (id : Nat) : Option String :=
  (names.entries.find? fun e => e.1 == id).map (·.2)

def lookup? (names : NameMap) (name : String) : Option Nat :=
  (names.entries.find? fun e => e.2 == name).map (·.1)

def taken (names : NameMap) (name : String) : Bool := (names.lookup? name).isSome

def insert (names : NameMap) (id : Nat) (name : String) : NameMap := ⟨names.entries ++ [(id, name)]⟩

def size (names : NameMap) : Nat := names.entries.length

end NameMap

/-- The signals a node mentions: those of its domains, its statements and its specials. -/
def Node.signals (n : Node) : List Signal :=
  n.declared.flatMap ClockDomain.signals ++ n.blocks.values.flatMap Value.signals ++
    n.specials.flatMap Special.signals

/-- A signal where the tree mentions it, with the scope it is named in. -/
structure Mention where
  signal : Signal
  scope : List String
deriving DecidableEq, Repr

/-- The scope of a signal is its own or else the path of the module. -/
def Mention.at (path : Path) (s : Signal) : Mention :=
  ⟨s, if s.scope.isEmpty then path.components else s.scope⟩

/-- Every signal of the tree at its first mention. -/
def Module.mentions (m : Module) : List Mention :=
  keepFirst (fun mention => mention.signal.id) []
    (m.nodes.flatMap fun (path, n) => n.signals.map (Mention.at path))

/-- The handles that domains have for their signals; they carry the current hints. -/
def Module.domainSignals (m : Module) : List Signal :=
  m.nodes.flatMap fun (_, n) => n.declared.flatMap ClockDomain.signals

/-- The handle of a signal that the last domain with it has, or else the one at hand. -/
def currentHandle (handles : List Signal) (s : Signal) : Signal :=
  (handles.reverse.find? fun h => h.same s).getD s

/-- A name with one component in front after the other, from the innermost on. -/
def scopedNames (separator : String) : String → List String → List String
  | base, [] => [base]
  | base, component :: outer =>
    base :: scopedNames separator (component ++ separator ++ base) outer

def numbered (separator base : String) (n : Nat) : String := base ++ separator ++ toString n

/-- The first free number at the end of a name, from `n` on and before `n + tries`. -/
def firstNumbered (names : NameMap) (separator base : String) (n : Nat) : Nat → Option String
  | 0 => none
  | tries + 1 =>
    let name := numbered separator base n
    if names.taken name then firstNumbered names separator base (n + 1) tries else some name

/-- The identifier of a signal. One more number than there are names taken is enough to try. -/
def pickName (config : NamingConfig) (names : NameMap) (s : Signal) (scope : List String) :
    Except NamingError String :=
  let base := s.hint.getD config.defaultHint
  let candidates := scopedNames config.separator base scope.reverse
  match candidates.find? fun name => !names.taken name with
  | some name => .ok name
  | none =>
    let longest := candidates.getLastD base
    let found :=
      if config.numericSuffix then
        firstNumbered names config.separator longest 1 (names.size + 1)
      else none
    match found with
    | some name => .ok name
    | none => .error (.identifier s longest)

structure Named where
  notices : List Notice
  result : Except NamingError NameMap

def nameAll (config : NamingConfig) (handles : List Signal) : NameMap → List Mention → Named
  | names, [] => ⟨[.signalsNamed names.size], .ok names⟩
  | names, mention :: rest =>
    let s := currentHandle handles mention.signal
    match pickName config names s mention.scope with
    | .error e => ⟨[], .error e⟩
    | .ok name =>
      let tail := nameAll config handles (names.insert s.id name) rest
      { tail with notices := .signalNamed s name :: tail.notices }

def Module.firstOpen? (m : Module) : Option Path :=
  (m.nodes.find? fun (_, n) => !n.finalized).map (·.1)

def Module.resolveNames (config : NamingConfig) (m : Module) :
    List Notice × Except ElabError NameMap :=
  match m.firstOpen? with
  | some path => ([], .error (.finalization (.notFinalized path)))
  | none =>
    let named := nameAll config m.domainSignals {} m.mentions
    (named.notices, named.result.mapError .naming)

end Gateware
