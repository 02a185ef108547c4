import Gateware.Datum.Basic

/-! # Data as JSON text

The compact form: records are objects in the order of their fields, lists and tuples are arrays, an
empty alternative is its name and any other an object of one field. There are no blanks.
-/
namespace Gateware

def hexDigit (n : Nat) : Char := "0123456789abcdef".toList.getD n '0'

def hexByte (n : Nat) : String := String.ofList [hexDigit (n / 16 % 16), hexDigit (n % 16)]

/-- A character inside quotes: quotes, backslashes and control characters are marked. -/
def jsonChar (c : Char) : String :=
  if c = '"' then "\\\""
  else if c = '\\' then "\\\\"
  else if c = '\x08' then "\\b"
  else if c = '\x0c' then "\\f"
  else if c = '\n' then "\\n"
  else if c = '\r' then "\\r"
  else if c = '\t' then "\\t"
  else if c.toNat < 32 then "\\u00" ++ hexByte c.toNat
  else String.singleton c

def jsonString (s : String) : String := "\"" ++ String.join (s.toList.map jsonChar) ++ "\""

mutual
def Datum.json : Datum → String
  | .natural n => toString n
  | .integer i => toString i
  | .truth b => if b then "true" else "false"
  | .text s => jsonString s
  | .absent => "null"
  | .present d => d.json
  | .list items => "[" ++ Datum.jsonItems items ++ "]"
  | .tuple items => "[" ++ Datum.jsonItems items ++ "]"
  | .record fields => "\x7b" ++ Datum.jsonFields fields ++ "\x7d"
  | .variant _ name => jsonString name
  | .tagged _ name content => "\x7b" ++ jsonString name ++ ":" ++ content.json ++ "\x7d"

def Datum.jsonItems : List Datum → String
  | [] => ""
  | [d] => d.json
  | d :: ds => d.json ++ "," ++ Datum.jsonItems ds

def Datum.jsonFields : List (String × Datum) → String
  | [] => ""
  | [(name, d)] => jsonString name ++ ":" ++ d.json
  | (name, d) :: rest => jsonString name ++ ":" ++ d.json ++ "," ++ Datum.jsonFields rest
end

end Gateware
