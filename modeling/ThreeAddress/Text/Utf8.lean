/-!
# UTF-8

Bytes are read as characters from left to right. Where they are malformed,
the longest beginning of a character is given up as one gap, and reading goes
on with the byte that did not fit. A text is the reading without gaps; a lossy
text shows the replacement character for each gap.
-/

namespace ThreeAddress.Text

/-- A character that has begun: how many continuation bytes it still needs, the range of the
next one, and the bits read so far. -/
structure Partial where
  needed : Nat
  least : UInt8
  greatest : UInt8
  bits : Nat
deriving DecidableEq, Repr

/-- What reading a byte yields: the characters and gaps that are complete, and the character
that has begun. -/
abbrev Reading := List (Option Char) × Option Partial

/-- Reads a byte where a character may begin. -/
def readFirst (byte : UInt8) : Reading :=
  if byte < 0x80 then ([some (Char.ofNat byte.toNat)], none)
  else if byte < 0xC2 then ([none], none)
  else if byte < 0xE0 then ([], some ⟨1, 0x80, 0xBF, byte.toNat - 0xC0⟩)
  else if byte = 0xE0 then ([], some ⟨2, 0xA0, 0xBF, 0⟩)
  else if byte = 0xED then ([], some ⟨2, 0x80, 0x9F, 0xD⟩)
  else if byte < 0xF0 then ([], some ⟨2, 0x80, 0xBF, byte.toNat - 0xE0⟩)
  else if byte = 0xF0 then ([], some ⟨3, 0x90, 0xBF, 0⟩)
  else if byte < 0xF4 then ([], some ⟨3, 0x80, 0xBF, byte.toNat - 0xF0⟩)
  else if byte = 0xF4 then ([], some ⟨3, 0x80, 0x8F, 4⟩)
  else ([none], none)

/-- Reads a byte after a character has begun, or where one may begin. -/
def readByte : Option Partial → UInt8 → Reading
  | none, byte => readFirst byte
  | some started, byte =>
      if started.least ≤ byte ∧ byte ≤ started.greatest then
        let bits := started.bits * 64 + (byte.toNat - 0x80)
        if started.needed ≤ 1 then ([some (Char.ofNat bits)], none)
        else ([], some ⟨started.needed - 1, 0x80, 0xBF, bits⟩)
      else (none :: (readFirst byte).1, (readFirst byte).2)

/-- The characters of a byte sequence, with `none` for each gap, after a character has begun. -/
def decodeFrom : Option Partial → List UInt8 → List (Option Char)
  | none, [] => []
  | some _, [] => [none]
  | pending, byte :: rest =>
      let reading := readByte pending byte
      reading.1 ++ decodeFrom reading.2 rest

def decode (bytes : List UInt8) : List (Option Char) :=
  decodeFrom none bytes

/-- The text of a byte sequence, with the replacement character for each gap. -/
def lossyText (bytes : List UInt8) : String :=
  String.ofList ((decode bytes).map (·.getD '\uFFFD'))

/-- The bytes of a text. -/
def encode (text : String) : List UInt8 :=
  text.toList.flatMap String.utf8EncodeChar

end ThreeAddress.Text
