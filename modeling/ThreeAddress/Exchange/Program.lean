import ThreeAddress.Code.Program
import ThreeAddress.Json.Value
import ThreeAddress.Text.Utf8

/-!
# Programs as JSON

The form in which programs are exchanged. A record is an object with its fields
in a fixed order, a choice is an object with the one chosen name. Reading also
takes a record as an array of its fields, and a function without parameters or
locals.
-/

namespace ThreeAddress

namespace Json

def ofText (text : String) : Json := .string (some text)

def ofInt (value : Int) : Json := .number (some value)

def ofRecord (fields : List (String × Json)) : Json :=
  .object (fields.map fun field => (some field.1, field.2))

/-- A choice with contents. -/
def ofChoice (name : String) (contents : Json) : Json :=
  ofRecord [(name, contents)]

def int32? (value : Json) : Option Int32 :=
  (value.int? (-2147483648) 2147483647).map Int32.ofInt

def uint32? (value : Json) : Option UInt32 :=
  (value.int? 0 4294967295).map fun number => UInt32.ofNat number.toNat

end Json

namespace Dest

def toJson : Dest → Json
  | temp number => .ofChoice "Temp" (.ofInt number.toNat)
  | var name => .ofChoice "Var" (.ofText name)

def ofJson? (value : Json) : Option Dest := do
  match ← value.choice? with
  | ("Temp", number) => return .temp (← number.uint32?)
  | ("Var", name) => return .var (← name.string?)
  | _ => none

end Dest

namespace Source

def toJson : Source → Json
  | temp number => .ofChoice "Temp" (.ofInt number.toNat)
  | var name => .ofChoice "Var" (.ofText name)
  | int value => .ofChoice "Int" (.ofInt value.toInt)
  | bool value => .ofChoice "Bool" (.bool value)
  | str text => .ofChoice "Str" (.ofText text)

def ofJson? (value : Json) : Option Source := do
  match ← value.choice? with
  | ("Temp", number) => return .temp (← number.uint32?)
  | ("Var", name) => return .var (← name.string?)
  | ("Int", number) => return .int (← number.int32?)
  | ("Bool", value) => return .bool (← value.bool?)
  | ("Str", text) => return .str (← text.string?)
  | _ => none

end Source

namespace Address

def toJson (address : Address) : Json :=
  .ofRecord [("base", address.base.toJson), ("offset", .ofInt address.offset.toInt)]

def ofJson? (value : Json) : Option Address := do
  match ← value.record? ["base", "offset"] 2 with
  | [some base, some offset] => return ⟨← Source.ofJson? base, ← offset.int32?⟩
  | _ => none

end Address

namespace ArithOp

def all : List ArithOp := [add, sub, mul, div, and, or]

def key : ArithOp → String
  | add => "Add"
  | sub => "Sub"
  | mul => "Mul"
  | div => "Div"
  | and => "And"
  | or => "Or"

def ofJson? (value : Json) : Option ArithOp := do
  let name ← value.unitChoice?
  all.find? (·.key == name)

end ArithOp

namespace RelOp

def all : List RelOp := [eq, ne, lt, le, gt, ge]

def key : RelOp → String
  | eq => "Eq"
  | ne => "Ne"
  | lt => "Lt"
  | le => "Le"
  | gt => "Gt"
  | ge => "Ge"

def ofJson? (value : Json) : Option RelOp := do
  let name ← value.unitChoice?
  all.find? (·.key == name)

end RelOp

namespace BinaryOp

def toJson : BinaryOp → Json
  | arith op => .ofChoice "Arith" (.ofText op.key)
  | rel op => .ofChoice "Rel" (.ofText op.key)

def ofJson? (value : Json) : Option BinaryOp := do
  match ← value.choice? with
  | ("Arith", op) => return .arith (← ArithOp.ofJson? op)
  | ("Rel", op) => return .rel (← RelOp.ofJson? op)
  | _ => none

end BinaryOp

namespace UnaryOp

def all : List UnaryOp := [neg, not]

def key : UnaryOp → String
  | neg => "Neg"
  | not => "Not"

def ofJson? (value : Json) : Option UnaryOp := do
  let name ← value.unitChoice?
  all.find? (·.key == name)

end UnaryOp

namespace Inst

def toJson : Inst → Json
  | binary op dst left right =>
      .ofChoice "Binop" (.ofRecord [("op", op.toJson), ("dst", dst.toJson),
        ("src1", left.toJson), ("src2", right.toJson)])
  | unary op dst src =>
      .ofChoice "Unop" (.ofRecord [("op", .ofText op.key), ("dst", dst.toJson),
        ("src", src.toJson)])
  | move dst src => .ofChoice "Move" (.ofRecord [("dst", dst.toJson), ("src", src.toJson)])
  | load dst address =>
      .ofChoice "Load" (.ofRecord [("dst", dst.toJson), ("addr", address.toJson)])
  | store address src =>
      .ofChoice "Store" (.ofRecord [("addr", address.toJson), ("src", src.toJson)])
  | label name => .ofChoice "LabelDecl" (.ofText name)
  | jump target => .ofChoice "Jump" (.ofText target)
  | branch op left right target =>
      .ofChoice "CJump" (.ofRecord [("op", .ofText op.key), ("src1", left.toJson),
        ("src2", right.toJson), ("label", .ofText target)])
  | call callee args dst =>
      .ofChoice "Call" (.ofRecord [("name", .ofText callee),
        ("args", .array (args.map Source.toJson)),
        ("dst", (dst.map Dest.toJson).getD .null)])
  | ret value => .ofChoice "Return" ((value.map Source.toJson).getD .null)

def ofJson? (value : Json) : Option Inst := do
  match ← value.choice? with
  | ("Binop", contents) =>
      match ← contents.record? ["op", "dst", "src1", "src2"] 4 with
      | [some op, some dst, some left, some right] =>
          return .binary (← BinaryOp.ofJson? op) (← Dest.ofJson? dst) (← Source.ofJson? left)
            (← Source.ofJson? right)
      | _ => none
  | ("Unop", contents) =>
      match ← contents.record? ["op", "dst", "src"] 3 with
      | [some op, some dst, some src] =>
          return .unary (← UnaryOp.ofJson? op) (← Dest.ofJson? dst) (← Source.ofJson? src)
      | _ => none
  | ("Move", contents) =>
      match ← contents.record? ["dst", "src"] 2 with
      | [some dst, some src] => return .move (← Dest.ofJson? dst) (← Source.ofJson? src)
      | _ => none
  | ("Load", contents) =>
      match ← contents.record? ["dst", "addr"] 2 with
      | [some dst, some address] =>
          return .load (← Dest.ofJson? dst) (← Address.ofJson? address)
      | _ => none
  | ("Store", contents) =>
      match ← contents.record? ["addr", "src"] 2 with
      | [some address, some src] =>
          return .store (← Address.ofJson? address) (← Source.ofJson? src)
      | _ => none
  | ("LabelDecl", name) => return .label (← name.string?)
  | ("Jump", target) => return .jump (← target.string?)
  | ("CJump", contents) =>
      match ← contents.record? ["op", "src1", "src2", "label"] 4 with
      | [some op, some left, some right, some target] =>
          return .branch (← RelOp.ofJson? op) (← Source.ofJson? left) (← Source.ofJson? right)
            (← target.string?)
      | _ => none
  | ("Call", contents) =>
      match ← contents.record? ["name", "args", "dst"] 3 with
      | [some callee, some args, dst] =>
          return .call (← callee.string?) (← args.list? Source.ofJson?)
            (← (dst.getD .null).option? Dest.ofJson?)
      | _ => none
  | ("Return", value) => return .ret (← value.option? Source.ofJson?)
  | _ => none

end Inst

namespace Function

def toJson (function : Function) : Json :=
  .ofRecord [("name", .ofText function.name),
    ("params", .array (function.params.map .ofText)),
    ("locals", .array (function.locals.map .ofText)),
    ("code", .array (function.code.map Inst.toJson))]

/-- Missing parameters or locals are none. -/
def ofJson? (value : Json) : Option Function := do
  match ← value.record? ["name", "params", "locals", "code"] 4 with
  | [some name, params, locals, some code] =>
      return {
        name := ← name.string?
        params := ← (params.getD (.array [])).list? Json.string?
        locals := ← (locals.getD (.array [])).list? Json.string?
        code := ← code.list? Inst.ofJson? }
  | _ => none

end Function

namespace Program

def toJson (program : Program) : Json :=
  .ofRecord [("functions", .array (program.functions.map Function.toJson))]

def ofJson? (value : Json) : Option Program := do
  match ← value.record? ["functions"] 1 with
  | [some functions] => return ⟨← functions.list? Function.ofJson?⟩
  | _ => none

/-- The program that a text stands for. -/
def ofText? (text : String) : Option Program :=
  (Json.ofChars? (text.toList.map some)).bind ofJson?

/-- The program that the bytes of a text stand for. -/
def ofBytes? (bytes : List UInt8) : Option Program :=
  (Json.ofChars? (Text.decode bytes)).bind ofJson?

end Program

end ThreeAddress
