import ThreeAddress.Json.Token

/-!
# Reading JSON tokens

The reader goes through the characters of a text once. After each it is between
two tokens or inside one; a character completes some tokens and leaves the
reader in a new place, or is refused. A malformed byte sequence counts as a
character without identity (`none`), which only a string may contain.
-/

namespace ThreeAddress.Json

/-- A part of a string: a character, a unit written by its code, or a malformed one. -/
inductive Piece where
  | char (value : Char)
  | unit (code : Nat)
  | gap
deriving DecidableEq, Repr

def isHighSurrogate (code : Nat) : Bool := decide (0xD800 ≤ code) && decide (code < 0xDC00)

def isLowSurrogate (code : Nat) : Bool := decide (0xDC00 ≤ code) && decide (code < 0xE000)

/-- The characters that the parts of a string make up. Two units make up one character if they
are the two halves of a surrogate pair. -/
def Piece.chars? : List Piece → Option (List Char)
  | [] => some []
  | char value :: rest => (chars? rest).map (value :: ·)
  | unit high :: unit low :: rest =>
      if isHighSurrogate high then
        if isLowSurrogate low then
          (chars? rest).map
            (Char.ofNat (0x10000 + (high - 0xD800) * 0x400 + (low - 0xDC00)) :: ·)
        else none
      else if isLowSurrogate high then none
      else (chars? (unit low :: rest)).map (Char.ofNat high :: ·)
  | unit code :: rest =>
      if isHighSurrogate code || isLowSurrogate code then none
      else (chars? rest).map (Char.ofNat code :: ·)
  | gap :: _ => none

/-- How far a number has been read. -/
inductive NumberPart where
  | sign | zero | digits | point | fraction | exponent | exponentSign | exponentDigits
deriving DecidableEq, Repr

/-- A number that has begun: its sign and the digits before the point. -/
structure NumberState where
  negative : Bool
  magnitude : Nat
  part : NumberPart
deriving DecidableEq, Repr

/-- The number token that may end here. -/
def NumberState.token? (state : NumberState) : Option Token :=
  match state.part with
  | .zero => some (.number (if state.negative then none else some 0))
  | .digits =>
      some (.number (some (if state.negative then -(state.magnitude : Int) else state.magnitude)))
  | .fraction | .exponentDigits => some (.number none)
  | .sign | .point | .exponent | .exponentSign => none

def digitValue (char : Char) : Nat := char.toNat - '0'.toNat

/-- The number with one more character, if the character can belong to it. -/
def NumberState.extend (state : NumberState) (char : Char) : Option NumberState :=
  let go (part : NumberPart) := some { state with part }
  match state.part with
  | .sign =>
      if char = '0' then go .zero
      else if char.isDigit then some ⟨state.negative, digitValue char, .digits⟩ else none
  | .zero => if char = '.' then go .point else if char = 'e' || char = 'E' then go .exponent else none
  | .digits =>
      if char.isDigit then
        some ⟨state.negative, state.magnitude * 10 + digitValue char, .digits⟩
      else if char = '.' then go .point
      else if char = 'e' || char = 'E' then go .exponent else none
  | .point => if char.isDigit then go .fraction else none
  | .fraction =>
      if char.isDigit then go .fraction
      else if char = 'e' || char = 'E' then go .exponent else none
  | .exponent =>
      if char.isDigit then go .exponentDigits
      else if char = '+' || char = '-' then go .exponentSign else none
  | .exponentSign | .exponentDigits => if char.isDigit then go .exponentDigits else none

/-- Where the reader is. The parts of a string are kept with the latest first. -/
inductive Place where
  | between
  /-- The letters that are missing from a word. -/
  | word (missing : List Char) (token : Token)
  | number (state : NumberState)
  | string (pieces : List Piece)
  | escape (pieces : List Piece)
  /-- A unit code of which `missing` digits are missing. -/
  | code (pieces : List Piece) (missing value : Nat)
deriving Repr

/-- What a character completes, and where it leaves the reader. -/
abbrev Advance := Option (List Token × Place)

/-- A character between tokens. -/
def begin? (char : Char) : Advance :=
  if char = ' ' || char = '\n' || char = '\t' || char = '\r' then some ([], .between)
  else if char = '\x7b' then some ([.openBrace], .between)
  else if char = '\x7d' then some ([.closeBrace], .between)
  else if char = '[' then some ([.openBracket], .between)
  else if char = ']' then some ([.closeBracket], .between)
  else if char = ':' then some ([.colon], .between)
  else if char = ',' then some ([.comma], .between)
  else if char = '"' then some ([], .string [])
  else if char = 'n' then some ([], .word ['u', 'l', 'l'] .null)
  else if char = 't' then some ([], .word ['r', 'u', 'e'] (.bool true))
  else if char = 'f' then some ([], .word ['a', 'l', 's', 'e'] (.bool false))
  else if char = '-' then some ([], .number ⟨true, 0, .sign⟩)
  else if char = '0' then some ([], .number ⟨false, 0, .zero⟩)
  else if char.isDigit then some ([], .number ⟨false, digitValue char, .digits⟩)
  else none

/-- The character that a letter after a backslash stands for. -/
def escaped? (char : Char) : Option Char :=
  match char with
  | '"' => some '"'
  | '\\' => some '\\'
  | '/' => some '/'
  | 'b' => some '\x08'
  | 'f' => some '\x0c'
  | 'n' => some '\n'
  | 'r' => some '\r'
  | 't' => some '\t'
  | _ => none

def hexValue? (char : Char) : Option Nat :=
  if char.isDigit then some (digitValue char)
  else if 'a' ≤ char ∧ char ≤ 'f' then some (char.toNat - 'a'.toNat + 10)
  else if 'A' ≤ char ∧ char ≤ 'F' then some (char.toNat - 'A'.toNat + 10)
  else none

/-- The token of a string whose parts are given with the latest first. -/
def stringToken (pieces : List Piece) : Token :=
  .string ((Piece.chars? pieces.reverse).map String.ofList)

/-- One character of the text. -/
def Place.read : Place → Option Char → Advance
  | between, some char => begin? char
  | between, none => none
  | word [] _, some _ => none
  | word (letter :: missing) token, some char =>
      if char = letter then
        if missing.isEmpty then some ([token], .between) else some ([], .word missing token)
      else none
  | word _ _, none => none
  | number state, some char =>
      match state.extend char with
      | some state => some ([], .number state)
      | none =>
          match state.token? with
          | some token => (begin? char).map fun next => (token :: next.1, next.2)
          | none => none
  | number _, none => none
  | string pieces, some char =>
      if char = '"' then some ([stringToken pieces], .between)
      else if char = '\\' then some ([], .escape pieces)
      else if char.toNat < 0x20 then none
      else some ([], .string (.char char :: pieces))
  | string pieces, none => some ([], .string (.gap :: pieces))
  | escape pieces, some char =>
      if char = 'u' then some ([], .code pieces 4 0)
      else (escaped? char).map fun char => ([], .string (.char char :: pieces))
  | escape _, none => none
  | code pieces missing value, some char =>
      match hexValue? char with
      | none => none
      | some digit =>
          if missing ≤ 1 then some ([], .string (.unit (value * 16 + digit) :: pieces))
          else some ([], .code pieces (missing - 1) (value * 16 + digit))
  | code _ _ _, none => none

/-- The tokens that the end of the text completes. -/
def Place.finish : Place → Option (List Token)
  | between => some []
  | number state => state.token?.map ([·])
  | word _ _ | string _ | escape _ | code _ _ _ => none

/-- The tokens of a text; those already read are given with the latest first. -/
def tokensFrom (done : List Token) (place : Place) : List (Option Char) → Option (List Token)
  | [] => place.finish.map fun last => done.reverse ++ last
  | char :: rest =>
      match place.read char with
      | none => none
      | some (tokens, next) => tokensFrom (tokens.reverse ++ done) next rest

def tokens? (text : List (Option Char)) : Option (List Token) :=
  tokensFrom [] .between text

end ThreeAddress.Json
