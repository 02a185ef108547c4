import Gateware.Signal

/-! # Clock domains

A domain has a name, a clock and mostly a reset. A local domain stays in the subtree that declares
it; any other is surfaced to the modules around it. Renaming a domain keeps its signals and gives
them hints after the new name.
-/
namespace Gateware

structure ClockDomain where
  name : String
  clk : Signal
  rst : Option Signal
  asyncReset : Bool := false
  isLocal : Bool := false
deriving DecidableEq, Repr

namespace ClockDomain

/-- The domain whose signals have bare names and which a design may leave undeclared. -/
def default : String := "sync"

def hint (domain role : String) : String :=
  if domain = ClockDomain.default then role else domain ++ "_" ++ role

/-- A domain with a clock and a reset of its own, numbered from `id` on. -/
def fresh (id : Nat) (name : String) : ClockDomain :=
  { name, clk := .named id (hint name "clk") 1, rst := some (.named (id + 1) (hint name "rst") 1) }

def freshResetLess (id : Nat) (name : String) : ClockDomain :=
  { name, clk := .named id (hint name "clk") 1, rst := none }

def rename (d : ClockDomain) (name : String) : ClockDomain :=
  { d with
    name
    clk := d.clk.renamed (hint name "clk")
    rst := d.rst.map (·.renamed (hint name "rst")) }

def signals (d : ClockDomain) : List Signal := d.clk :: d.rst.toList

end ClockDomain

end Gateware
