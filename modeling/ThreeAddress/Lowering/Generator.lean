import ThreeAddress.Asm.Instr
import ThreeAddress.Asm.LiteralPool
import ThreeAddress.Registers.LinearScan

/-!
# Generators

Code is written from its beginning to its end. A generator interns the texts that it
meets on the way in one pool, and the numbers that they get there stand in the code.
Where it fails, what it has interned and written before that point is still there.
-/

namespace ThreeAddress

/-- Why a function cannot be compiled. -/
inductive CompileError where
  | tooManyArguments (function callee : String) (count : Nat)
  | tooManyParameters (function : String) (count : Nat)
  | unassignedOperand (function : String) (dest : Dest)
  | outOfRegisters (error : OutOfRegisters)
deriving DecidableEq, Repr

def CompileError.message : CompileError → String
  | tooManyArguments function callee count =>
      s!"{function}: call to {callee} passes {count} arguments (limit 6)"
  | tooManyParameters function count => s!"{function}: {count} parameters (limit 6)"
  | unassignedOperand function dest =>
      s!"{function}: operand {dest.text} is read but has no register"
  | outOfRegisters error => error.message

/-- What code is written with; `Literal` is what stands for a text in the code. -/
class CodeWriter (Literal : outParam Type) (m : Type → Type) extends Monad m where
  fail {α : Type} : CompileError → m α
  /-- Writes a label or an instruction. -/
  item : Item Literal → m Unit
  /-- What is to stand for a text. -/
  literal : String → m Literal

def CodeWriter.instr {Literal : Type} {m : Type → Type} [CodeWriter Literal m]
    (code : Instr String String Literal) : m Unit :=
  item (.instr code)

/-- What has been interned and written so far. -/
structure Generator.State where
  pool : LiteralPool
  items : Array (Item Nat)

abbrev Generator := ExceptT CompileError (StateM Generator.State)

namespace Generator

def fail {α : Type} (error : CompileError) : Generator α := throw error

def item (item : Item Nat) : Generator Unit :=
  modify fun state => { state with items := state.items.push item }

/-- The number of a text, which is added to the pool if it is not there. -/
def intern (text : String) : Generator Nat :=
  modifyGet fun state =>
    let interned := state.pool.intern text
    (interned.1, { state with pool := interned.2 })

instance : CodeWriter Nat Generator where
  fail := fail
  item := item
  literal := intern

end Generator

end ThreeAddress
