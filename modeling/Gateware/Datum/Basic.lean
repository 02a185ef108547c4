/-! # Data to be written out

A datum describes a piece of data without saying how it is written: with names it becomes text, and
without them bytes. Lists have any length, tuples a fixed one; a variant is one of several
alternatives, counted from zero.
-/
namespace Gateware

inductive Datum where
  | natural (n : Nat)
  | integer (i : Int)
  | truth (b : Bool)
  | text (s : String)
  | absent
  | present (d : Datum)
  | list (items : List Datum)
  | tuple (items : List Datum)
  | record (fields : List (String × Datum))
  /-- an alternative that holds nothing -/
  | variant (index : Nat) (name : String)
  /-- an alternative that holds a datum -/
  | tagged (index : Nat) (name : String) (content : Datum)

namespace Datum

def texts (strings : List String) : Datum := .list (strings.map .text)

def ofOption {α : Type} (describe : α → Datum) : Option α → Datum
  | none => .absent
  | some a => .present (describe a)

end Datum

end Gateware
