import ThreeAddress.Text.Visible

/-!
# Quoted text

A quoted text stands between double quotes on one line. A quote, a backslash
and the usual control characters are escaped with a backslash; whatever else
does not stand alone is written by its code point.
-/

namespace ThreeAddress.Text

/-- One character inside quotes. -/
def quoteChar (char : Char) : List Char :=
  match char with
  | '"' => ['\\', '"']
  | '\\' => ['\\', '\\']
  | '\x00' => ['\\', '0']
  | '\t' => ['\\', 't']
  | '\n' => ['\\', 'n']
  | '\r' => ['\\', 'r']
  | _ =>
      if standsAlone char then [char]
      else ['\\', 'u', '\x7b'] ++ Nat.toDigits 16 char.toNat ++ ['\x7d']

def quote (text : String) : String :=
  String.ofList (('"' :: text.toList.flatMap quoteChar) ++ ['"'])

end ThreeAddress.Text
