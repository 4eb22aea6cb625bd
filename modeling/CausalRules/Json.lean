/-!
# JSON text

- `Json`: values whose numbers are natural numbers and whose object members keep their order.
- `Json.pretty`: the text of a value over several lines, indented by two spaces a level.
-/

namespace CausalRules

/-- A JSON value. -/
inductive Json
  | null
  | bool (value : Bool)
  | number (value : Nat)
  | string (text : String)
  | array (items : List Json)
  | object (members : List (String × Json))
  deriving Repr, Inhabited

namespace Json

/-- How a character stands inside a JSON string. -/
def escape (c : Char) : String :=
  match c with
  | '"' => "\\\""
  | '\\' => "\\\\"
  | '\n' => "\\n"
  | '\r' => "\\r"
  | '\t' => "\\t"
  | '\x08' => "\\b"
  | '\x0c' => "\\f"
  | c =>
    if c.toNat < 0x20 then
      "\\u00" ++ String.ofList [Nat.digitChar (c.toNat / 16), Nat.digitChar (c.toNat % 16)]
    else c.toString

/-- A text as a JSON string. -/
def quote (text : String) : String :=
  text.toList.foldl (fun out c => out ++ escape c) "\"" ++ "\""

/-- The line end and the indentation of a level. -/
def lineBreak (level : Nat) : String :=
  "\n".pushn ' ' (2 * level)

mutual

/-- Appends a value that stands at a level. -/
def appendPretty (level : Nat) (out : String) : Json → String
  | null => out ++ "null"
  | bool true => out ++ "true"
  | bool false => out ++ "false"
  | number value => out ++ toString value
  | string text => out ++ quote text
  | array [] => out ++ "[]"
  | array (item :: items) =>
    let out := appendPretty (level + 1) (out ++ "[" ++ lineBreak (level + 1)) item
    appendItems (level + 1) out items ++ lineBreak level ++ "]"
  | object [] => out ++ "\x7b\x7d"
  | object (member :: members) =>
    let out := appendMember (level + 1) (out ++ "\x7b" ++ lineBreak (level + 1)) member
    appendMembers (level + 1) out members ++ lineBreak level ++ "\x7d"

/-- Appends an object member. -/
def appendMember (level : Nat) (out : String) : String × Json → String
  | (name, value) => appendPretty level (out ++ quote name ++ ": ") value

/-- Appends array items after the first. -/
def appendItems (level : Nat) (out : String) : List Json → String
  | [] => out
  | item :: items =>
    appendItems level (appendPretty level (out ++ "," ++ lineBreak level) item) items

/-- Appends object members after the first. -/
def appendMembers (level : Nat) (out : String) : List (String × Json) → String
  | [] => out
  | member :: members =>
    appendMembers level (appendMember level (out ++ "," ++ lineBreak level) member) members

end

/-- The text of a value over several lines. -/
def pretty (value : Json) : String :=
  appendPretty 0 "" value

end Json

end CausalRules
