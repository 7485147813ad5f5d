import ThreeAddress.Code.Program
import ThreeAddress.Text.Quoted

/-!
# Listings

The text of an instruction, and of a function with one instruction a line.
Labels stand at the margin and everything else is indented.
-/

namespace ThreeAddress

def Source.text : Source → String
  | .temp number => "t" ++ toString number.toNat
  | .var name => name
  | .int value => toString value.toInt
  | .bool value => if value then "true" else "false"
  | .str text => Text.quote text

def Dest.text (dest : Dest) : String :=
  dest.toSource.text

/-- The offset always shows its sign. -/
def Address.text (address : Address) : String :=
  let offset := address.offset.toInt
  "[" ++ address.base.text ++ (if offset < 0 then "" else "+") ++ toString offset ++ "]"

def ArithOp.text : ArithOp → String
  | .add => "+"
  | .sub => "-"
  | .mul => "*"
  | .div => "/"
  | .and => "&&"
  | .or => "||"

def RelOp.text : RelOp → String
  | .eq => "=="
  | .ne => "!="
  | .lt => "<"
  | .le => "<="
  | .gt => ">"
  | .ge => ">="

def BinaryOp.text : BinaryOp → String
  | .arith op => op.text
  | .rel op => op.text

def UnaryOp.text : UnaryOp → String
  | .neg => "-"
  | .not => "!"

def Inst.text : Inst → String
  | .binary op dst left right => s!"{dst.text} = {left.text} {op.text} {right.text}"
  | .unary op dst src => s!"{dst.text} = {op.text}{src.text}"
  | .move dst src => s!"{dst.text} = {src.text}"
  | .load dst address => s!"{dst.text} = {address.text}"
  | .store address src => s!"{address.text} = {src.text}"
  | .label name => name ++ ":"
  | .jump target => "goto " ++ target
  | .branch op left right target =>
      s!"if {left.text} {op.text} {right.text} goto {target}"
  | .call callee args dst =>
      (match dst with
        | some dst => dst.text ++ " = "
        | none => "") ++
        "call " ++ callee ++ "(" ++ ", ".intercalate (args.map Source.text) ++ ")"
  | .ret (some value) => "return " ++ value.text
  | .ret none => "return"

/-- One line of a function's listing. -/
def Inst.line (inst : Inst) : String :=
  match inst with
  | .label _ => inst.text ++ "\n"
  | _ => "  " ++ inst.text ++ "\n"

namespace Function

def header (function : Function) : String :=
  function.name ++ " (" ++ ", ".intercalate function.params ++ ")"

def text (function : Function) : String :=
  function.header ++ "\n" ++
    (if function.locals.isEmpty then ""
      else "  locals " ++ ", ".intercalate function.locals ++ "\n") ++
    String.join (function.code.map Inst.line)

end Function

/-- Functions in order, with a blank line between them. -/
def Program.text (program : Program) : String :=
  "\n".intercalate (program.functions.map Function.text)

end ThreeAddress
