import ThreeAddress.CommandLine.Response

/-!
# The command-line program

Reads the file, prints what the command prints, and ends with its exit code. A
command line that cannot be read ends with exit code 2.
-/

namespace ThreeAddress

/-- More steps than any run takes. -/
def unboundedFuel : Nat := 4611686018427387904

/-- The text of a file, if it can be read. -/
def readText? (path : String) : IO (Option String) := do
  try
    return some (← IO.FS.readFile path)
  catch _ =>
    return none

def usage : String :=
  "usage: (run | asm | jit | check) PROGRAM [--max-call-depth N] [--max-steps N] " ++
    "[--max-heap-slots N] [--seed N] [-v | --verbose]"

end ThreeAddress

open ThreeAddress in
def main (arguments : List String) : IO UInt32 := do
  match Invocation.ofTexts? arguments with
  | none =>
      IO.eprintln usage
      return 2
  | some invocation =>
      match invocation.respond? (← readText? invocation.path) unboundedFuel with
      | none => return 1
      | some response =>
          IO.print response.output
          if invocation.verbose || !response.succeeded then
            match response.remark with
            | some remark => IO.eprintln remark
            | none => pure ()
          return UInt32.ofNat response.exitCode
