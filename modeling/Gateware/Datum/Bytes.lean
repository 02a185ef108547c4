import Gateware.Datum.Basic

/-! # Data as bytes

The binary form has no names. A number below 251 is one byte; a larger one has a mark for its size
and then two, four, eight or sixteen bytes, the lowest first. Signed numbers alternate around zero,
so that small ones stay short. Texts and lists begin with their length, alternatives with their
index, and data that may be absent with one byte.
-/
namespace Gateware

/-- The low `count` bytes of a number, the lowest first. -/
def littleEndian : Nat → Nat → List UInt8
  | 0, _ => []
  | count + 1, n => n.toUInt8 :: littleEndian count (n / 256)

/-- A natural number in as few bytes as its size allows. -/
def naturalBytes (n : Nat) : List UInt8 :=
  if n < 251 then [n.toUInt8]
  else if n < 1 <<< 16 then 251 :: littleEndian 2 n
  else if n < 1 <<< 32 then 252 :: littleEndian 4 n
  else if n < 1 <<< 64 then 253 :: littleEndian 8 n
  else 254 :: littleEndian 16 n

/-- The whole numbers counted as 0, -1, 1, -2, 2 and so on. -/
def zigzag : Int → Nat
  | .ofNat n => 2 * n
  | .negSucc n => 2 * n + 1

def utf8 (s : String) : List UInt8 := s.toUTF8.data.toList

mutual
def Datum.bytes : Datum → List UInt8
  | .natural n => naturalBytes n
  | .integer i => naturalBytes (zigzag i)
  | .truth b => [if b then 1 else 0]
  | .text s => naturalBytes (utf8 s).length ++ utf8 s
  | .absent => [0]
  | .present d => 1 :: d.bytes
  | .list items => naturalBytes items.length ++ Datum.itemBytes items
  | .tuple items => Datum.itemBytes items
  | .record fields => Datum.fieldBytes fields
  | .variant index _ => naturalBytes index
  | .tagged index _ content => naturalBytes index ++ content.bytes

def Datum.itemBytes : List Datum → List UInt8
  | [] => []
  | d :: ds => d.bytes ++ Datum.itemBytes ds

def Datum.fieldBytes : List (String × Datum) → List UInt8
  | [] => []
  | (_, d) :: rest => d.bytes ++ Datum.fieldBytes rest
end

end Gateware
