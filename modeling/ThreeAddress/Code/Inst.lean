import ThreeAddress.Code.Operand

/-!
# Instructions

Every instruction names at most one destination. Which destinations it reads
and which it writes (`Inst.uses`, `Inst.def?`) is all that the analyses of a
function need to know about it, besides where control goes next.
-/

namespace ThreeAddress

inductive ArithOp where
  | add | sub | mul | div | and | or
deriving DecidableEq, Repr, Inhabited

/-- The operators on truth values; the others take integers. -/
def ArithOp.isLogical : ArithOp → Bool
  | .and | .or => true
  | .add | .sub | .mul | .div => false

inductive RelOp where
  | eq | ne | lt | le | gt | ge
deriving DecidableEq, Repr, Inhabited

/-- Equality and its negation compare any two values of one type; an ordering
compares integers only. -/
def RelOp.isOrdering : RelOp → Bool
  | .eq | .ne => false
  | .lt | .le | .gt | .ge => true

inductive BinaryOp where
  | arith (op : ArithOp)
  | rel (op : RelOp)
deriving DecidableEq, Repr, Inhabited

inductive UnaryOp where
  | neg | not
deriving DecidableEq, Repr, Inhabited

/-- One instruction. Labels are local to the function that declares them. -/
inductive Inst where
  | binary (op : BinaryOp) (dst : Dest) (left right : Source)
  | unary (op : UnaryOp) (dst : Dest) (src : Source)
  | move (dst : Dest) (src : Source)
  | load (dst : Dest) (address : Address)
  | store (address : Address) (src : Source)
  | label (name : String)
  | jump (label : String)
  | branch (op : RelOp) (left right : Source) (label : String)
  | call (callee : String) (args : List Source) (dst : Option Dest)
  | ret (value : Option Source)
deriving DecidableEq, Repr, Inhabited

namespace Inst

/-- The destination that an instruction writes. -/
def def? : Inst → Option Dest
  | binary _ dst _ _ | unary _ dst _ | move dst _ | load dst _ => some dst
  | call _ _ dst => dst
  | store _ _ | label _ | jump _ | branch _ _ _ _ | ret _ => none

/-- The operands of an instruction, in reading order. -/
def sources : Inst → List Source
  | binary _ _ left right | branch _ left right _ => [left, right]
  | unary _ _ src | move _ src => [src]
  | load _ address => [address.base]
  | store address src => [address.base, src]
  | call _ args _ => args
  | ret value => value.toList
  | label _ | jump _ => []

/-- The destinations that an instruction reads, in operand order. -/
def uses (inst : Inst) : List Dest :=
  inst.sources.filterMap Source.dest?

/-- The label that an instruction may transfer control to. -/
def target? : Inst → Option String
  | jump target | branch _ _ _ target => some target
  | _ => none

def isCall : Inst → Bool
  | call _ _ _ => true
  | _ => false

def isDivision : Inst → Bool
  | binary (.arith .div) _ _ _ => true
  | _ => false

end Inst

/-- The call targets that are always present. No function can take their names. -/
inductive Builtin where
  | printInt | printBool | printStr | malloc
deriving DecidableEq, Repr, Inhabited

namespace Builtin

def all : List Builtin := [printInt, printBool, printStr, malloc]

def name : Builtin → String
  | printInt => "printInt"
  | printBool => "printBool"
  | printStr => "printStr"
  | malloc => "malloc"

def ofName? (name : String) : Option Builtin :=
  all.find? (·.name == name)

@[simp] theorem ofName?_name (builtin : Builtin) : ofName? builtin.name = some builtin := by
  cases builtin <;> decide

end Builtin

end ThreeAddress
