import ThreeAddress.Json.Lexer

/-!
# JSON values

A value is read from its tokens with a stack of the containers that are still
open, so that values may nest to any depth. Fields keep their order and may
repeat; what a repetition means is for the reader of the object to say.
-/

namespace ThreeAddress

inductive Json where
  | null
  | bool (value : Bool)
  | number (value : Option Int)
  | string (text : Option String)
  | array (items : List Json)
  | object (fields : List (Option String × Json))

namespace Json

/-- Puts a comma token between the token lists of items. -/
def separate : List (List Token) → List Token
  | [] => []
  | [item] => item
  | item :: rest => item ++ .comma :: separate rest

mutual

/-- The tokens of a value. -/
def tokens : Json → List Token
  | null => [.null]
  | bool value => [.bool value]
  | number value => [.number value]
  | string text => [.string text]
  | array items => .openBracket :: separate (itemTokens items) ++ [.closeBracket]
  | object fields => .openBrace :: separate (fieldTokens fields) ++ [.closeBrace]

def itemTokens : List Json → List (List Token)
  | [] => []
  | item :: rest => item.tokens :: itemTokens rest

def fieldTokens : List (Option String × Json) → List (List Token)
  | [] => []
  | (key, value) :: rest => (.string key :: .colon :: value.tokens) :: fieldTokens rest

end

/-- A value written without spaces. -/
def text (value : Json) : String :=
  String.ofList (value.tokens.flatMap Token.chars)

/-- A container that is still open, with its contents so far, the latest first. An object also
has the key of the value that is being read. -/
inductive Container where
  | array (items : List Json)
  | object (fields : List (Option String × Json)) (key : Option String)

/-- What the reader has to see next. -/
inductive Expected where
  /-- A value, or the end of an array that has just been opened. -/
  | value (mayClose : Bool)
  /-- A key of an object with the given fields, or the end of one that has just been opened. -/
  | key (fields : List (Option String × Json)) (mayClose : Bool)
  | colon (fields : List (Option String × Json)) (key : Option String)
  /-- What may follow a value. -/
  | afterValue (value : Json)

/-- One token, with the containers that are open, the innermost first. -/
def Expected.read : Expected → List Container → Token → Option (Expected × List Container)
  | .value _, containers, .null => some (.afterValue .null, containers)
  | .value _, containers, .bool b => some (.afterValue (.bool b), containers)
  | .value _, containers, .number n => some (.afterValue (.number n), containers)
  | .value _, containers, .string text => some (.afterValue (.string text), containers)
  | .value _, containers, .openBracket => some (.value true, .array [] :: containers)
  | .value _, containers, .openBrace => some (.key [] true, containers)
  | .value true, .array [] :: outer, .closeBracket => some (.afterValue (.array []), outer)
  | .key fields _, containers, .string name => some (.colon fields name, containers)
  | .key [] true, containers, .closeBrace => some (.afterValue (.object []), containers)
  | .colon fields name, containers, .colon =>
      some (.value false, .object fields name :: containers)
  | .afterValue item, .array items :: outer, .comma =>
      some (.value false, .array (item :: items) :: outer)
  | .afterValue item, .array items :: outer, .closeBracket =>
      some (.afterValue (.array (item :: items).reverse), outer)
  | .afterValue item, .object fields name :: outer, .comma =>
      some (.key ((name, item) :: fields) false, outer)
  | .afterValue item, .object fields name :: outer, .closeBrace =>
      some (.afterValue (.object ((name, item) :: fields).reverse), outer)
  | _, _, _ => none

def ofTokensFrom : Expected → List Container → List Token → Option Json
  | .afterValue value, [], [] => some value
  | _, _, [] => none
  | expected, containers, token :: rest =>
      match expected.read containers token with
      | none => none
      | some (expected, containers) => ofTokensFrom expected containers rest

/-- The value that tokens make up. -/
def ofTokens? (tokens : List Token) : Option Json :=
  ofTokensFrom (.value false) [] tokens

/-- The value that a text stands for. A character is `none` where bytes are malformed. -/
def ofChars? (text : List (Option Char)) : Option Json :=
  (tokens? text).bind ofTokens?

/-! ## Reading a value as something else -/

/-- An integer from `least` up to `greatest`. -/
def int? (least greatest : Int) : Json → Option Int
  | number (some value) => if least ≤ value ∧ value ≤ greatest then some value else none
  | _ => none

def bool? : Json → Option Bool
  | bool value => some value
  | _ => none

def string? : Json → Option String
  | string text => text
  | _ => none

def list? {α : Type} (read : Json → Option α) : Json → Option (List α)
  | array items => items.mapM read
  | _ => none

/-- Either null or a value to be read. -/
def option? {α : Type} (read : Json → Option α) : Json → Option (Option α)
  | null => some none
  | value => (read value).map some

/-- A choice without contents is its name, or an object with null under that name. -/
def unitChoice? : Json → Option String
  | string text => text
  | object [(key, null)] => key
  | _ => none

/-- A choice with contents is an object with the contents under its name. -/
def choice? : Json → Option (String × Json)
  | object [(some key, value)] => some (key, value)
  | _ => none

/-- The value of a field, if it is there; `none` if it is there twice. -/
def field? (fields : List (Option String × Json)) (name : String) : Option (Option Json) :=
  match fields.filter (·.1 == some name) with
  | [] => some none
  | [field] => some (some field.2)
  | _ => none

/-- The fields of a record, in the order of their names, each missing or not. A record is an
object, in which other fields are passed over, or an array of the fields in order, of which
`least` must be there. -/
def record? (names : List String) (least : Nat) : Json → Option (List (Option Json))
  | object fields =>
      if fields.all (·.1.isSome) then names.mapM (field? fields) else none
  | array items =>
      if least ≤ items.length ∧ items.length ≤ names.length then
        some (items.map some ++ List.replicate (names.length - items.length) none)
      else none
  | _ => none

end Json

end ThreeAddress
