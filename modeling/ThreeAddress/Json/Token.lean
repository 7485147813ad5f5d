/-!
# JSON tokens

The tokens of a JSON text. A token keeps only what a reader can ask of it: a
number keeps its value if it is written as an integer, a string its text if it
is one.
-/

namespace ThreeAddress.Json

inductive Token where
  | openBrace | closeBrace | openBracket | closeBracket | colon | comma
  | null
  | bool (value : Bool)
  /-- `none` for a number that is not written as an integer: one with a fraction or an
  exponent, or minus zero. -/
  | number (value : Option Int)
  /-- `none` for a string that no text corresponds to: one with malformed bytes or with half of
  a surrogate pair. -/
  | string (text : Option String)
deriving DecidableEq, Repr

/-- Four hexadecimal digits. -/
def hexDigits4 (code : Nat) : List Char :=
  [code / 4096 % 16, code / 256 % 16, code / 16 % 16, code % 16].map Nat.digitChar

/-- One character inside a string. Only what has to be escaped is. -/
def escapeChar (char : Char) : List Char :=
  match char with
  | '"' => ['\\', '"']
  | '\\' => ['\\', '\\']
  | '\x08' => ['\\', 'b']
  | '\t' => ['\\', 't']
  | '\n' => ['\\', 'n']
  | '\x0c' => ['\\', 'f']
  | '\r' => ['\\', 'r']
  | _ => if char.toNat < 0x20 then '\\' :: 'u' :: hexDigits4 char.toNat else [char]

def stringChars (text : String) : List Char :=
  ('"' :: text.toList.flatMap escapeChar) ++ ['"']

/-- The shortest way to write a token that stands for a value. -/
def Token.chars : Token → List Char
  | openBrace => ['\x7b']
  | closeBrace => ['\x7d']
  | openBracket => ['[']
  | closeBracket => [']']
  | colon => [':']
  | comma => [',']
  | null => ['n', 'u', 'l', 'l']
  | bool true => ['t', 'r', 'u', 'e']
  | bool false => ['f', 'a', 'l', 's', 'e']
  | number value => (toString (value.getD 0)).toList
  | string text => stringChars (text.getD "")

end ThreeAddress.Json
