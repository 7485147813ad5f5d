import ThreeAddress.Eval.Limits
import ThreeAddress.Registers.LinearScan

/-!
# Invocations

The command line names a command and a file with a program. Flags may stand
before the command or after it, and a number that is given after it wins. After
two dashes every argument is a word, whatever it looks like.
-/

namespace ThreeAddress

/-- What to do with a program. -/
inductive Command where
  | run | asm | jit | check
deriving DecidableEq, Repr, Inhabited

def Command.ofName? : String → Option Command
  | "run" => some .run
  | "asm" => some .asm
  | "jit" => some .jit
  | "check" => some .check
  | _ => none

/-- What a flag gives a number for. -/
inductive Quantity where
  | maxDepth | maxSteps | maxHeapSlots | seed
deriving DecidableEq, Repr, Inhabited

namespace Quantity

def all : List Quantity := [maxDepth, maxSteps, maxHeapSlots, seed]

def flag : Quantity → String
  | maxDepth => "--max-call-depth"
  | maxSteps => "--max-steps"
  | maxHeapSlots => "--max-heap-slots"
  | seed => "--seed"

def ofFlag? (text : String) : Option Quantity := all.find? (·.flag = text)

@[simp] theorem ofFlag?_flag (quantity : Quantity) : ofFlag? quantity.flag = some quantity := by
  cases quantity <;> rfl

end Quantity

/-- A number of 64 bits in decimal digits. A plus sign may precede it. -/
def wordOfText? (text : String) : Option Nat :=
  let digits := match text.toList with
    | '+' :: rest => rest
    | chars => chars
  let value := Nat.ofDigitChars 10 digits 0
  if digits ≠ [] ∧ digits.all Char.isDigit ∧ value < 18446744073709551616 then some value else none

/-- What an argument is, together with the number that belongs to it. -/
inductive Argument where
  | quantity (quantity : Quantity) (value : Nat)
  | verbose
  | word (text : String)
  | separator
deriving DecidableEq, Repr, Inhabited

namespace Argument

def isFlag : Argument → Bool
  | quantity _ _ | verbose => true
  | word _ | separator => false

def quantity? : Argument → Option (Quantity × Nat)
  | quantity name value => some (name, value)
  | _ => none

def word? : Argument → Option String
  | word text => some text
  | _ => none

/-- A flag, and what stands after an equals sign. -/
def splitFlag (text : String) : String × Option String :=
  let (name, rest) := text.toList.span (· ≠ '=')
  (String.ofList name, rest.tail?.map String.ofList)

/-- Reads arguments. The number of a flag follows after an equals sign or as the next argument. -/
def ofTexts? : List String → Option (List Argument)
  | [] => some []
  | text :: rest =>
      if text = "--" then some (separator :: rest.map word)
      else if text = "-v" ∨ text = "--verbose" then (ofTexts? rest).map (verbose :: ·)
      else if text.toList.head? = some '-' ∧ text ≠ "-" then
        match splitFlag text, rest with
        | (flag, some number), rest => do
            let argument := quantity (← Quantity.ofFlag? flag) (← wordOfText? number)
            return argument :: (← ofTexts? rest)
        | (flag, none), number :: rest => do
            let argument := quantity (← Quantity.ofFlag? flag) (← wordOfText? number)
            return argument :: (← ofTexts? rest)
        | (_, none), [] => none
      else (ofTexts? rest).map (word text :: ·)

/-- No flag stands twice. -/
def FlagsOnce (arguments : List Argument) : Prop :=
  ((arguments.filterMap quantity?).map (·.1)).Nodup ∧ arguments.count verbose ≤ 1

instance (arguments : List Argument) : Decidable (FlagsOnce arguments) :=
  inferInstanceAs (Decidable (_ ∧ _))

end Argument

structure Invocation where
  command : Command
  /-- Where the program is. -/
  path : String
  verbose : Bool
  /-- The numbers that were given; of two for the same quantity the first counts. -/
  quantities : List (Quantity × Nat)
deriving DecidableEq, Repr

namespace Invocation

/-- The first word is the command and the only other one is the path. A flag may stand once
before the command and once after it. -/
def ofArguments? (arguments : List Argument) : Option Invocation :=
  let outer := arguments.takeWhile Argument.isFlag
  match arguments.dropWhile Argument.isFlag with
  | .word name :: inner =>
      match Command.ofName? name, inner.filterMap Argument.word? with
      | some command, [path] =>
          if path ≠ "" ∧ Argument.FlagsOnce outer ∧ Argument.FlagsOnce inner then
            some {
              command
              path
              verbose := decide (.verbose ∈ arguments)
              quantities := (inner ++ outer).filterMap Argument.quantity? }
          else none
      | _, _ => none
  | _ => none

def ofTexts? (texts : List String) : Option Invocation :=
  (Argument.ofTexts? texts).bind ofArguments?

def quantity? (invocation : Invocation) (quantity : Quantity) : Option Nat :=
  invocation.quantities.lookup quantity

def limits (invocation : Invocation) : Limits where
  maxDepth := (invocation.quantity? .maxDepth).getD Limits.standard.maxDepth
  maxSteps := ((invocation.quantity? .maxSteps).map UInt64.ofNat).or Limits.standard.maxSteps
  maxHeapSlots := (invocation.quantity? .maxHeapSlots).getD Limits.standard.maxHeapSlots

def scan (invocation : Invocation) : LinearScan :=
  match invocation.quantity? .seed with
  | some seed => .seeded (UInt64.ofNat seed)
  | none => .standard

end Invocation

end ThreeAddress
