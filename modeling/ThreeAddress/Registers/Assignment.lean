import ThreeAddress.Code.Listing
import ThreeAddress.Registers.Register

/-!
# Register assignments

An assignment says for each destination of a function which register it lives
in, or that it lives in none because it is dead.
-/

namespace ThreeAddress

/-- The destinations are in order and do not repeat. -/
structure Assignment where
  entries : List (Dest × Option Register)
deriving DecidableEq, Repr, Inhabited

namespace Assignment

def empty : Assignment := ⟨[]⟩

def setEntry (dest : Dest) (register : Option Register) :
    List (Dest × Option Register) → List (Dest × Option Register)
  | [] => [(dest, register)]
  | entry :: rest =>
      if dest = entry.1 then (dest, register) :: rest
      else if dest < entry.1 then (dest, register) :: entry :: rest
      else entry :: setEntry dest register rest

/-- Places a destination, or places it anew. -/
def set (assignment : Assignment) (dest : Dest) (register : Option Register) : Assignment :=
  ⟨setEntry dest register assignment.entries⟩

/-- Of a repeated destination the last entry counts. -/
def ofList (entries : List (Dest × Option Register)) : Assignment :=
  entries.foldl (fun assignment entry => assignment.set entry.1 entry.2) empty

def find? (dest : Dest) : List (Dest × Option Register) → Option Register
  | [] => none
  | entry :: rest => if entry.1 = dest then entry.2 else find? dest rest

/-- The register that a destination lives in. -/
def register? (assignment : Assignment) (dest : Dest) : Option Register :=
  find? dest assignment.entries

def dests (assignment : Assignment) : List Dest :=
  assignment.entries.map (·.1)

/-- The registers that some destination lives in, in the order of their numbers. -/
def registers (assignment : Assignment) : List Register :=
  Register.all.filter fun register => assignment.entries.any (·.2 == some register)

/-- One line for each destination. -/
def text (assignment : Assignment) : String :=
  String.join (assignment.entries.map fun entry =>
    entry.1.text ++ "\t" ++ (entry.2.map Register.text).getD "-" ++ "\n")

end Assignment

end ThreeAddress
