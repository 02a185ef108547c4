import Gateware.Statement.Build

/-! # State machines

A machine names its states in the order of their codes and keeps the code of the current one in a
register just wide enough. Statements are given per state and per domain; each domain becomes one
switch on the register.
-/
namespace Gateware

structure Machine where
  name : String
  /-- the domain that clocks the state register -/
  domain : String
  state : Signal
  states : List String
  /-- per domain, in the order of first use, the bodies by state code -/
  bodies : List (String × List (Nat × Block)) := []

namespace Machine

def resetCode (name : String) (states : List String) :
    Option String → Except ConstructionError Nat
  | none => .ok 0
  | some s =>
    match states.idxOf? s with
    | some code => .ok code
    | none => .error (.machine name (.unknownReset s))

def build (id : Nat) (name : String) (states : List String) (reset : Option String)
    (domain : String) : Except ConstructionError Machine :=
  if domain = combDomain then .error (.machine name .combinational)
  else if states.isEmpty then .error (.machine name .noStates)
  else match firstRepeat? [] states with
    | some s => .error (.machine name (.repeatedState s))
    | none => do
      let code ← resetCode name states reset
      let width := Bits.needed (states.length - 1 : Nat) false
      let state := { Signal.named id (name ++ "_state") width with reset := code }
      return { name, domain, state, states }

def encoding (m : Machine) (state : String) : Except ConstructionError Nat :=
  match m.states.idxOf? state with
  | some code => .ok code
  | none => .error (.machine m.name (.unknownState state))

/-- A bit that is set while the machine is in the state. -/
def ongoing (m : Machine) (state : String) : Except ConstructionError Value := do
  let code ← m.encoding state
  return .op .eq [.signal m.state, .int code]

/-- The assignment that moves the machine to the state. -/
def next (m : Machine) (state : String) : Except ConstructionError Statement := do
  let code ← m.encoding state
  Statement.checkedAssign (.signal m.state) (.int code)

/-- The entries with the one of the key changed; without one, a changed empty entry comes last. -/
def amend {κ α : Type} [DecidableEq κ] (key : κ) (change : List α → List α) :
    List (κ × List α) → List (κ × List α)
  | [] => [(key, change [])]
  | (k, entry) :: rest =>
    if k = key then (k, change entry) :: rest else (k, entry) :: amend key change rest

def on (m : Machine) (state domain : String) (block : Block) :
    Except ConstructionError Machine := do
  let code ← m.encoding state
  return { m with bodies := amend domain (amend code (· ++ block)) m.bodies }

def comb (m : Machine) (state : String) (block : Block) : Except ConstructionError Machine :=
  m.on state combDomain block

/-- The machine with statements for the state that its own domain clocks. -/
def sync (m : Machine) (state : String) (block : Block) : Except ConstructionError Machine :=
  m.on state m.domain block

def switch (m : Machine) (bodies : List (Nat × Block)) : Except ConstructionError Statement :=
  (Statement.checkedSwitch (.signal m.state)
    (bodies.map fun (code, body) => ⟨[.int code], body⟩)).result

def switches (m : Machine) : Except ConstructionError (List (String × Statement)) :=
  go m.bodies
where
  go : List (String × List (Nat × Block)) → Except ConstructionError (List (String × Statement))
    | [] => .ok []
    | (domain, bodies) :: rest => do
      let head ← m.switch bodies
      let tail ← go rest
      return (domain, head) :: tail

end Machine

end Gateware
