import Gateware.Notice

/-! # Memories

A memory is a number of words with ports that address them. A port has an address and read data, a
write enable and write data if it can write, and a read enable on request. Its clock domain may be
left open until the design is closed.
-/
namespace Gateware

/-- What a port reads while a word is written. -/
inductive WriteMode where
  /-- the old contents -/
  | readFirst
  /-- the data being written -/
  | writeFirst
  /-- what it read before -/
  | noChange
deriving DecidableEq, Repr

structure PortRequest where
  writeCapable : Bool := false
  asyncRead : Bool := false
  hasReadEnable : Bool := false
  /-- bits per write-enable lane; zero writes whole words -/
  granularity : Nat := 0
  mode : WriteMode := .writeFirst
  clockDomain : Option String := none

structure MemoryPort where
  adr : Signal
  datR : Signal
  we : Option Signal
  datW : Option Signal
  re : Option Signal
  asyncRead : Bool
  granularity : Nat
  mode : WriteMode
  clockDomain : Option String
deriving DecidableEq, Repr

namespace MemoryPort

/-- Address and read data, then whatever else the port has. -/
def signals (p : MemoryPort) : List Signal :=
  [p.adr, p.datR] ++ p.we.toList ++ p.datW.toList ++ p.re.toList

/-- Whether a clock edge means anything to the port. -/
def clocked (p : MemoryPort) : Bool := !p.asyncRead || p.we.isSome

end MemoryPort

structure Memory where
  hint : String := "mem"
  width : Nat
  depth : Nat
  init : List Int := []
  ports : List MemoryPort := []
deriving DecidableEq, Repr

namespace Memory

/-- The memory with initial contents; words after them are zero. -/
def withInit (m : Memory) (init : List Int) : Except ConstructionError Memory :=
  if m.depth < init.length then .error (.memory m.hint (.tooManyWords init.length m.depth))
  else .ok { m with init }

def fault? (m : Memory) (r : PortRequest) : Option MemoryFault :=
  if r.writeCapable && r.granularity != 0 && decide (m.width < r.granularity) then
    some (.laneTooWide r.granularity m.width)
  else if r.writeCapable && r.granularity != 0 && m.width % r.granularity != 0 then
    some (.lanesDoNotFit r.granularity m.width)
  else if r.asyncRead && r.mode != .writeFirst then some .asyncReadNotTransparent
  else none

def notices (m : Memory) (r : PortRequest) : List Notice :=
  if (m.fault? r).isNone && r.hasReadEnable && r.mode == .writeFirst then
    [.readEnableLatches m.hint]
  else []

def lanes (m : Memory) (r : PortRequest) : Nat :=
  if r.granularity = 0 then 1 else m.width / r.granularity

/-- A port whose signals are numbered from `id` on. -/
def newPort (m : Memory) (id : Nat) (r : PortRequest) : MemoryPort :=
  let name := fun role => m.hint ++ "_" ++ role
  let writing (signal : Signal) := if r.writeCapable then some signal else none
  let reId := if r.writeCapable then id + 4 else id + 2
  { adr := .named id (name "adr") (Bits.needed (m.depth - 1 : Nat) false)
    datR := .named (id + 1) (name "dat_r") m.width
    we := writing (.named (id + 2) (name "we") (m.lanes r))
    datW := writing (.named (id + 3) (name "dat_w") m.width)
    re := if r.hasReadEnable then some { Signal.named reId (name "re") 1 with reset := 1 } else none
    asyncRead := r.asyncRead
    granularity := r.granularity
    mode := r.mode
    clockDomain := r.clockDomain }

def addPort (m : Memory) (id : Nat) (r : PortRequest) :
    Except ConstructionError (Memory × MemoryPort) :=
  match m.fault? r with
  | some fault => .error (.memory m.hint fault)
  | none =>
    let port := m.newPort id r
    .ok ({ m with ports := m.ports ++ [port] }, port)

end Memory

end Gateware
