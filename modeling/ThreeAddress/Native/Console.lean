import ThreeAddress.Text.Utf8

/-!
# Printing

What the built-ins print for a machine word or for bytes in memory, and where
the lines go: to the innermost capture that is running.
-/

namespace ThreeAddress

/-- The low 32 bits as a signed number. -/
def printedInt (value : Int64) : String := toString value.toInt32.toInt

def printedBool (value : Int64) : String := if value = 0 then "false" else "true"

/-- Bytes up to the first zero, as text. -/
def printedBytes (bytes : List UInt8) : String :=
  Text.lossyText (bytes.takeWhile (· ≠ 0))

/-- The lines of the captures that are running, the innermost first. -/
structure Console where
  captures : List (Array String)
deriving DecidableEq, Repr, Inhabited

namespace Console

def idle : Console := ⟨[]⟩

/-- Starts a capture. -/
def start (console : Console) : Console := ⟨#[] :: console.captures⟩

/-- Adds a line to the innermost capture. -/
def print (console : Console) (line : String) : Console :=
  match console.captures with
  | [] => console
  | innermost :: outer => ⟨innermost.push line :: outer⟩

/-- Ends the innermost capture, and gives its lines. -/
def stop (console : Console) : List String × Console :=
  match console.captures with
  | [] => ([], console)
  | innermost :: outer => (innermost.toList, ⟨outer⟩)

end Console

end ThreeAddress
