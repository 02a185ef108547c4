/-! # Places in the module hierarchy

A path holds one component per level, from the root down: the name of a child or, for a child
without one, the kind of its module.
-/
namespace Gateware

structure Path where
  components : List String
deriving DecidableEq, Repr

namespace Path

def root (name : String) : Path := ⟨[name]⟩

def child (p : Path) (component : String) : Path := ⟨p.components ++ [component]⟩

def depth (p : Path) : Nat := p.components.length

def text (p : Path) : String := ".".intercalate p.components

end Path

end Gateware
