import CausalRules.Rule

/-!
# Constants in a generated script

- `quote`: a text as a Python string in single quotes, in which a backslash stands before a quote, a
  backslash, and the letter `n` for a line end.
- `Constant`: a quoted text or a number, with its text in the script.
-/

namespace CausalRules.Script

/-- How a character stands between single quotes. -/
def quoteChar : Char → List Char
  | '\\' => ['\\', '\\']
  | '\'' => ['\\', '\'']
  | '\n' => ['\\', 'n']
  | c => [c]

/-- A text as a string literal. -/
def quote (text : String) : String :=
  String.ofList ('\'' :: (text.toList.flatMap quoteChar ++ ['\'']))

/-- A value that is written out in a script. -/
inductive Constant
  | text (value : String)
  | number (value : Number)
  deriving DecidableEq, Repr

/-- A constant as it stands in a script. -/
def Constant.render : Constant → String
  | text value => quote value
  | number value => value.text

end CausalRules.Script

/-- The constant that an argument is, if it is one. -/
def CausalRules.Arg.constant? : CausalRules.Arg → Option CausalRules.Script.Constant
  | .literal text => some (.text text)
  | .number value => some (.number value)
  | _ => none
