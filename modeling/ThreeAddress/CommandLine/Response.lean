import ThreeAddress.CommandLine.Invocation
import ThreeAddress.Eval.Machine
import ThreeAddress.Exchange.Program
import ThreeAddress.Lowering.Program
import ThreeAddress.Native.Machine
import ThreeAddress.Text.Quoted

/-!
# Responses

What the commands print. `run` interprets a program and `jit` runs its code;
`asm` prints the code, and `check` tells whether both ways of running print the
same lines.
-/

namespace ThreeAddress

/-- What a command ends with: whether it succeeded, what it printed, and what else there is to say
about it. -/
structure Response where
  succeeded : Bool
  output : String
  remark : Option String
deriving DecidableEq, Repr, Inhabited

namespace Response

/-- Zero stands for success. -/
def exitCode (response : Response) : Nat := if response.succeeded then 0 else 1

def success (output : String) : Response := ⟨true, output, none⟩

def failure (remark : String) : Response := ⟨false, "", some remark⟩

end Response

/-- Text of lines, each with its end. -/
def unlines (lines : List String) : String := String.join (lines.map (· ++ "\n"))

/-- Where two lists of lines differ first. -/
def firstDifference? : List String → List String → Option Nat
  | [], [] => none
  | line :: lines, line' :: lines' =>
      if line = line' then (firstDifference? lines lines').map (· + 1) else some 0
  | _, _ => some 0

theorem firstDifference?_eq_none_iff {lines lines' : List String} :
    firstDifference? lines lines' = none ↔ lines = lines' := by
  induction lines generalizing lines' with
  | nil => cases lines' <;> simp [firstDifference?]
  | cons line lines ih =>
      cases lines' with
      | nil => simp [firstDifference?]
      | cons line' lines' =>
          rw [firstDifference?]
          split <;> simp_all

/-- A line that may be missing, as it stands in a comparison. -/
def shownLine : Option String → String
  | some line => "Some(" ++ Text.quote line ++ ")"
  | none => "None"

/-- Compares what the interpreter and the native run printed. -/
def compareOutputs (interpreted native : List String) : Response :=
  match firstDifference? interpreted native with
  | none => .success s!"agree: {native.length} line(s)\n"
  | some index =>
      ⟨false, unlines [s!"disagree at line {index + 1}",
        s!"  interpreter: {shownLine interpreted[index]?}",
        s!"  native:      {shownLine native[index]?}"], none⟩

def NativeError.message : NativeError → String
  | assembly error => error.message
  | codeMemory error => error.message
  | trap .divideError => "trap: divide error"
  | trap (.badAccess address) => s!"trap: no access to address {address}"
  | trap .unknownFlags => "trap: the flags are not those of a comparison"
  | trap .badJump => "trap: no instruction to go on with"

namespace Program

/-- The response to a command, unless a run takes more than `fuel` steps or instructions. -/
def respond? (program : Program) (invocation : Invocation) (fuel : Nat) : Option Response :=
  match invocation.command with
  | .run =>
      (program.run? invocation.limits fuel).map fun execution =>
        match execution.result with
        | .ok value => ⟨true, unlines execution.output, some ("main returned " ++ value.text)⟩
        | .error error => ⟨false, unlines execution.output, some error.message⟩
  | .asm =>
      match program.compile invocation.scan.assign with
      | .error error => some (.failure error.message)
      | .ok asm => some (.success asm.text)
  | .jit =>
      match program.compile invocation.scan.assign with
      | .error error => some (.failure error.message)
      | .ok asm =>
          (asm.run? .standard fuel).map fun
            | .error error => .failure error.message
            | .ok native =>
                ⟨true, unlines native.output, some s!"main returned {native.exit.toInt}"⟩
  | .check =>
      match program.run? invocation.limits fuel with
      | none => none
      | some ⟨_, .error error⟩ =>
          some ⟨false, s!"interpreter failed, nothing to compare: {error.message}\n", none⟩
      | some ⟨interpreted, .ok _⟩ =>
          match program.compile invocation.scan.assign with
          | .error error => some (.failure error.message)
          | .ok asm =>
              (asm.run? .standard fuel).map fun
                | .error error => .failure error.message
                | .ok native => compareOutputs interpreted native.output

end Program

/-- The response to a command for the text of a file, if the file can be read. -/
def Invocation.respond? (invocation : Invocation) (text : Option String) (fuel : Nat) :
    Option Response :=
  match text with
  | none => some (.failure ("cannot read " ++ invocation.path))
  | some text =>
      match Program.ofText? text with
      | none => some (.failure (invocation.path ++ " does not hold a program"))
      | some program => program.respond? invocation fuel

end ThreeAddress
