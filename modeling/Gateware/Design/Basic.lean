import Gateware.Finalize
import Gateware.Lower.Module
import Gateware.Naming

/-! # Designs

A design is a closed tree without selections in which every signal has an identifier. `elaborate`
makes one from an open tree.
-/
namespace Gateware

structure Design where
  top : Module
  names : NameMap

namespace Design

def domains (d : Design) : List ClockDomain := d.top.node.resolved

/-- Every module with its path, parents first. -/
def modules (d : Design) : List (Path × Node) := d.top.nodes

end Design

inductive Outcome (α : Type) where
  | done (value : α)
  | failed (e : ElabError)
  | exhausted

def nameDesign {ω : Type} (config : Config) (m : Module) (s : Session ω) :
    Outcome Design × Session ω :=
  let (notices, result) := m.resolveNames config.naming
  let s := { s with notices := s.notices ++ notices }
  match result with
  | .error e => (.failed e, s)
  | .ok names => (.done ⟨m, names⟩, s)

/-- A tree closed, lowered and named. -/
def Module.elaborate {ω : Type} (config : Config) (build : Builder ω) (depth : Nat) (m : Module)
    (s : Session ω) : Outcome Design × Session ω :=
  let closed := m.finalize config build depth (s.note (.elaborating m.kind))
  match closed.ending with
  | .exhausted => (.exhausted, closed.session)
  | .failed e => (.failed e, closed.session)
  | .done =>
    let lowering := closed.value.lower closed.session.next
    let s := { closed.session with
      next := lowering.next
      notices := closed.session.notices ++ lowering.notices }
    match lowering.result with
    | .error e => (.failed (.finalization e), s)
    | .ok _ => nameDesign config lowering.value s

end Gateware
