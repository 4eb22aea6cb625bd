/-!
# Tokens

The words and signs that a rule program is made of.

- `Token`: one token; names, digits, continuation digits and inline code are kept as written.
- `Token.text`: how a token is written; scanning a text gives back tokens with these texts.
- `Token.kind`: the name of a token's kind in a token listing.
- `Located`: a token with the byte offset at which it begins.
-/

namespace CausalRules

/-- A token of a rule program. -/
inductive Token
  | openParen
  | closeParen
  | comma
  | openBracket
  | closeBracket
  | openBrace
  | closeBrace
  | semicolon
  | equal
  | notEqual
  | less
  | greater
  | lessEqual
  | greaterEqual
  | and
  | or
  | colon
  /-- The sign `:=` between an intention and its effects. -/
  | causes
  | dot
  | quote
  | minus
  | rulesWord
  | typeWord
  | allWord
  | stateWord
  | ifWord
  /-- A letter followed by letters, digits, hyphens and underscores. -/
  | ident (name : String)
  /-- A run of decimal digits, kept as written. -/
  | digits (run : String)
  /-- `CONT` with the digits that follow it, possibly none. -/
  | continuation (suffix : String)
  /-- The code between `PYTHON(#` and `#)`. -/
  | python (code : String)
  | endOfInput
  deriving DecidableEq, Repr, Inhabited

namespace Token

/-- How a token is written. -/
def text : Token → String
  | openParen => "("
  | closeParen => ")"
  | comma => ","
  | openBracket => "["
  | closeBracket => "]"
  | openBrace => "\x7b"
  | closeBrace => "\x7d"
  | semicolon => ";"
  | equal => "="
  | notEqual => "!="
  | less => "<"
  | greater => ">"
  | lessEqual => "<="
  | greaterEqual => ">="
  | and => "&&"
  | or => "||"
  | colon => ":"
  | causes => ":="
  | dot => "."
  | quote => "'"
  | minus => "-"
  | rulesWord => "RULES"
  | typeWord => "TYPE"
  | allWord => "ALL"
  | stateWord => "STATE"
  | ifWord => "if"
  | ident name => name
  | digits run => run
  | continuation suffix => "CONT" ++ suffix
  | python code => "PYTHON(#" ++ code ++ "#)"
  | endOfInput => "end of input"

/-- The name of a token's kind in a token listing. -/
def kind : Token → String
  | openParen => "LPAREN"
  | closeParen => "RPAREN"
  | comma => "COMMA"
  | openBracket => "LBRACKET"
  | closeBracket => "RBRACKET"
  | openBrace => "LBRACE"
  | closeBrace => "RBRACE"
  | semicolon => "SEMI"
  | equal => "EQUALS"
  | notEqual => "NEQUALS"
  | less => "LESS"
  | greater => "GREATER"
  | lessEqual => "LESSEQ"
  | greaterEqual => "GREATEREQ"
  | and => "AND"
  | or => "OR"
  | colon => "COLON"
  | causes => "CAUSES"
  | dot => "DOT"
  | quote => "QUOTE"
  | minus => "NEG"
  | rulesWord => "RULES"
  | typeWord => "TYPE"
  | allWord => "ALL"
  | stateWord => "STATE"
  | ifWord => "IF"
  | ident _ => "ID"
  | digits _ => "INTEGER"
  | continuation _ => "CONT"
  | python _ => "PYTHON"
  | endOfInput => "EOF"

/-- Whether a token compares two operands. -/
def isComparison : Token → Bool
  | equal | notEqual | less | greater | lessEqual | greaterEqual => true
  | _ => false

end Token

/-- A token and the byte offset at which it begins. -/
structure Located where
  token : Token
  position : Nat
  deriving DecidableEq, Repr, Inhabited

end CausalRules
