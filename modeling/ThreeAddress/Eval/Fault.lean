import ThreeAddress.Code.Listing
import ThreeAddress.Eval.Value

/-!
# Faults

A fault ends a run. Each is a cause, with the values that its message names; a
run that fails also says at which instruction.
-/

namespace ThreeAddress

/-- Where a value of the wrong type was found. -/
inductive TypeError where
  | binary (op : BinaryOp) (left right : ValueType)
  | unary (op : UnaryOp) (operand : ValueType)
  | addressBase (found : ValueType)
  | mallocSize (found : ValueType)
deriving DecidableEq, Repr

def TypeError.message : TypeError → String
  | binary op left right => s!"{op.text} on {left.name} and {right.name}"
  | unary op operand => s!"{op.text} on {operand.name}"
  | addressBase found => s!"address base is {found.name}, expected integer"
  | mallocSize found => s!"malloc size is {found.name}, expected integer"

/-- What a run used more of than it may. -/
inductive Excess where
  | depth (used limit : Nat)
  | heap (used limit : Nat)
  | steps (used limit : UInt64)
  | addresses
deriving DecidableEq, Repr

def Excess.message : Excess → String
  | depth used limit => s!"call depth {used} exceeds limit {limit}"
  | heap used limit => s!"heap of {used} slots exceeds limit {limit}"
  | steps used limit => s!"step count {used.toNat} exceeds limit {limit.toNat}"
  | addresses => "heap exhausted"

inductive Fault where
  | typeMismatch (error : TypeError)
  | undefinedTemp (number : UInt32)
  | undefinedVariable (name : String)
  | undefinedLabel (label : String)
  | undefinedFunction (name : String)
  | divisionByZero
  | outOfBounds (index : Int) (size : Nat)
  | invalidAllocation (size : Int32)
  | arityMismatch (callee : String) (expected got : Nat)
  | limitExceeded (excess : Excess)
deriving DecidableEq, Repr

def Fault.message : Fault → String
  | typeMismatch error => "type mismatch: " ++ error.message
  | undefinedTemp number => s!"undefined temporary t{number.toNat}"
  | undefinedVariable name => "undefined variable " ++ name
  | undefinedLabel label => "undefined label " ++ label
  | undefinedFunction name => "undefined function " ++ name
  | divisionByZero => "division by zero"
  | outOfBounds index size => s!"heap access at {index} is out of bounds (heap size {size})"
  | invalidAllocation size => s!"invalid allocation size {size.toInt}"
  | arityMismatch callee expected got => s!"{callee} expects {expected} argument(s), got {got}"
  | limitExceeded excess => "resource limit exceeded: " ++ excess.message

/-- Why a run failed. -/
inductive RunError where
  | missingMain
  | fault (function : String) (index : Nat) (inst : Inst) (cause : Fault)
deriving DecidableEq, Repr

def RunError.message : RunError → String
  | missingMain => "program has no main function"
  | fault function index inst cause =>
      s!"{cause.message} (in {function} at #{index}: {inst.text})"

end ThreeAddress
