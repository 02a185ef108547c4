import Gateware.Transform.Basic
import Gateware.Unicode.Hidden
import Gateware.Unicode.Joining

/-! # Transforms in full

A rendering of transforms and of the values in them that names every constructor and field. It is
meant for following an elaboration step by step, not for reading back.
-/
namespace Gateware

/-- A character between quotes. One that cannot be seen or would join the quote is given by its
number. -/
def charDetail (c : Char) : String :=
  if c = '"' then "\\\"" else if c = '\\' then "\\\\"
  else if c = '\n' then "\\n" else if c = '\r' then "\\r" else if c = '\t' then "\\t"
  else if c = '\x00' then "\\0"
  else if Unicode.isHidden c || Unicode.isJoining c then
    "\\u\x7b" ++ String.ofList (Nat.toDigits 16 c.toNat) ++ "\x7d"
  else String.singleton c

def quotedDetail (s : String) : String :=
  "\"" ++ String.join (s.toList.map charDetail) ++ "\""

def Shape.detail (s : Shape) : String :=
  "Shape \x7b width: " ++ toString s.width ++ ", signed: " ++ toString s.signed ++ " \x7d"

mutual
def Value.detail : Value → String
  | .const c =>
    "Const(Const \x7b bits: " ++ toString c.bits ++ ", shape: " ++ c.shape.detail ++ " \x7d)"
  | .signal s => "Signal(" ++ s.text ++ ")"
  | .clock domain => "ClockSignal(" ++ quotedDetail domain ++ ")"
  | .reset domain => "ResetSignal(" ++ quotedDetail domain ++ ")"
  | .op op operands =>
    "Operator \x7b op: " ++ op.label ++ ", operands: [" ++ Value.details operands ++ "] \x7d"
  | .slice value start stop =>
    "Slice \x7b value: " ++ value.detail ++ ", start: " ++ toString start ++ ", end: " ++
      toString stop ++ " \x7d"
  | .concat parts => "Concat([" ++ Value.details parts ++ "])"
  | .repl value count =>
    "Repl \x7b value: " ++ value.detail ++ ", count: " ++ toString count ++ " \x7d"
  | .select row index =>
    "ArrayRef \x7b array: Array \x7b elements: [" ++ Row.details row ++ "] \x7d, index: " ++
      index.detail ++ " \x7d"

def Value.details : List Value → String
  | [] => ""
  | [v] => v.detail
  | v :: vs => v.detail ++ ", " ++ Value.details vs

def Row.details : List Element → String
  | [] => ""
  | [e] => Element.detail e
  | e :: es => Element.detail e ++ ", " ++ Row.details es

def Element.detail : Element → String
  | .value v => "Value(" ++ v.detail ++ ")"
  | .row elements => "Array(Array \x7b elements: [" ++ Row.details elements ++ "] \x7d)"
end

def Transform.detail : Transform → String
  | .rename pairs =>
    let pair := fun (old, new) => "(" ++ quotedDetail old ++ ", " ++ quotedDetail new ++ ")"
    "RenameDomains([" ++ ", ".intercalate (pairs.map pair) ++ "])"
  | .insertReset domain control =>
    "InsertReset \x7b domain: " ++ quotedDetail domain ++ ", control: " ++ control.detail ++ " \x7d"
  | .insertEnable domain control =>
    "InsertEnable \x7b domain: " ++ quotedDetail domain ++ ", control: " ++ control.detail ++
      " \x7d"

end Gateware
