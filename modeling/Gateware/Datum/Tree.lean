import Gateware.Datum.Basic
import Gateware.Module.Basic

/-! # Modules, statements and values as data

What is written out of a tree: everything but the record of drivers, the deferred construction and
the transforms to come.
-/
namespace Gateware

def Shape.datum (s : Shape) : Datum :=
  .record [("width", .natural s.width), ("signed", .truth s.signed)]

def Const.datum (c : Const) : Datum :=
  .record [("bits", .natural c.bits), ("shape", c.shape.datum)]

def Signal.datum (s : Signal) : Datum :=
  .record [
    ("id", .natural s.id), ("width", .natural s.shape.width), ("signed", .truth s.shape.signed),
    ("reset", .integer s.reset), ("reset_less", .truth s.resetLess),
    ("hint", .ofOption .text s.hint), ("scope", .texts s.scope)]

/-- The place of an operator in the list of all operators. -/
def Op.code : Op → Nat
  | .not => 0
  | .neg => 1
  | .bool => 2
  | .add => 3
  | .sub => 4
  | .mul => 5
  | .mod => 6
  | .shl => 7
  | .shr => 8
  | .and => 9
  | .or => 10
  | .xor => 11
  | .eq => 12
  | .ne => 13
  | .lt => 14
  | .le => 15
  | .gt => 16
  | .ge => 17
  | .mux => 18

mutual
def Value.datum : Value → Datum
  | .const c => .tagged 0 "Const" c.datum
  | .signal s => .tagged 1 "Signal" s.datum
  | .clock domain => .tagged 2 "ClockSignal" (.text domain)
  | .reset domain => .tagged 3 "ResetSignal" (.text domain)
  | .op o operands =>
    .tagged 4 "Operator"
      (.record [("op", .variant o.code o.label), ("operands", .list (Value.data operands))])
  | .slice value start stop =>
    .tagged 5 "Slice"
      (.record [("value", value.datum), ("start", .natural start), ("end", .natural stop)])
  | .concat parts => .tagged 6 "Concat" (.list (Value.data parts))
  | .repl value count =>
    .tagged 7 "Repl" (.record [("value", value.datum), ("count", .natural count)])
  | .select row index =>
    .tagged 8 "ArrayRef"
      (.record [("array", .record [("elements", .list (Row.data row))]), ("index", index.datum)])

def Value.data : List Value → List Datum
  | [] => []
  | v :: vs => v.datum :: Value.data vs

def Row.data : List Element → List Datum
  | [] => []
  | e :: es => Element.datum e :: Row.data es

def Element.datum : Element → Datum
  | .value v => .tagged 0 "Value" v.datum
  | .row elements => .tagged 1 "Array" (.record [("elements", .list (Row.data elements))])
end

def Row.datum (row : Row) : Datum := .record [("elements", .list (Row.data row))]

def Pattern.datum : Pattern → Datum
  | .int value => .tagged 0 "Int" (.natural value)
  | .bits pattern => .tagged 1 "Bits" (.text pattern)

mutual
def Statement.datum : Statement → Datum
  | .assign target source =>
    .tagged 0 "Assign" (.record [("lhs", target.datum), ("rhs", source.datum)])
  | .branch condition taken otherwise =>
    .tagged 1 "If"
      (.record [("cond", condition.datum), ("then", .list (Block.data taken)),
        ("otherwise", Block.otherwiseDatum otherwise)])
  | .switch selector cases =>
    .tagged 2 "Switch"
      (.record [("selector", selector.datum), ("cases", .list (Case.data cases))])

def Block.data : List Statement → List Datum
  | [] => []
  | s :: rest => s.datum :: Block.data rest

def Block.otherwiseDatum : Option (List Statement) → Datum
  | none => .absent
  | some body => .present (.list (Block.data body))

def Case.data : List Case → List Datum
  | [] => []
  | ⟨patterns, body⟩ :: rest =>
    .record [("patterns", .list (patterns.map Pattern.datum)), ("body", .list (Block.data body))] ::
      Case.data rest
end

def ClockDomain.datum (d : ClockDomain) : Datum :=
  .record [
    ("name", .text d.name), ("clk", d.clk.datum), ("rst", .ofOption Signal.datum d.rst),
    ("async_reset", .truth d.asyncReset), ("local", .truth d.isLocal)]

def PortRole.label : PortRole → String
  | .parameter => "Parameter"
  | .input => "Input"
  | .output => "Output"
  | .inout => "Inout"

def PortRole.datum (role : PortRole) : Datum :=
  .variant (match role with
    | .parameter => 0
    | .input => 1
    | .output => 2
    | .inout => 3) role.label

def WriteMode.label : WriteMode → String
  | .readFirst => "ReadFirst"
  | .writeFirst => "WriteFirst"
  | .noChange => "NoChange"

def WriteMode.datum (mode : WriteMode) : Datum :=
  .variant (match mode with
    | .readFirst => 0
    | .writeFirst => 1
    | .noChange => 2) mode.label

def InstancePort.datum (p : InstancePort) : Datum :=
  .record [("role", p.role.datum), ("name", .text p.name), ("value", p.value.datum)]

def MemoryPort.datum (p : MemoryPort) : Datum :=
  .record [
    ("adr", p.adr.datum), ("dat_r", p.datR.datum), ("we", .ofOption Signal.datum p.we),
    ("dat_w", .ofOption Signal.datum p.datW), ("re", .ofOption Signal.datum p.re),
    ("async_read", .truth p.asyncRead), ("we_granularity", .natural p.granularity),
    ("mode", p.mode.datum), ("clock_domain", .ofOption .text p.clockDomain)]

def Special.datum : Special → Datum
  | .primitive i =>
    .tagged 0 "Instance"
      (.record [("kind", .text i.kind), ("ports", .list (i.ports.map InstancePort.datum))])
  | .memory m =>
    .tagged 1 "Memory"
      (.record [
        ("hint", .text m.hint), ("width", .natural m.width), ("depth", .natural m.depth),
        ("init", .list (m.init.map .integer)), ("ports", .list (m.ports.map MemoryPort.datum))])

mutual
def Module.datum : Module → Datum
  | ⟨node, children⟩ =>
    .record [
      ("kind", .text node.kind),
      ("statements", .list (node.blocks.map fun (domain, block) =>
        .tuple [.text domain, .list (Block.data block)])),
      ("submodules", .list (Module.childData children)),
      ("specials", .list (node.specials.map Special.datum)),
      ("clock_domains", .list (node.declared.map ClockDomain.datum)),
      ("resolved_domains", .list (node.resolved.map ClockDomain.datum)),
      ("finalized", .truth node.finalized)]

def Module.childData : List (Option String × Module) → List Datum
  | [] => []
  | (name, m) :: rest =>
    .record [("name", .ofOption .text name), ("module", m.datum)] :: Module.childData rest
end

def Path.datum (p : Path) : Datum := .texts p.components

end Gateware
