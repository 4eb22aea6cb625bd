/-!
# Why a text is no rule program

- `Expected`: what the reader was looking for, with its wording.
- `ContinuationFault`: why a continuation marker was refused.
- `ReadError`: the causes, each with the byte offset it points at, when there is one.
- `ReadError.message`: the wording of a cause.
-/

namespace CausalRules

/-- What a text should have held where something else stands. -/
inductive Expected
  | notEqualSign
  | andSign
  | orSign
  | pythonOpening
  | rulesWord
  | openBrace
  | oneRule
  | ruleEnd
  | conditionOpening
  | conditionClosing
  | conditionColon
  | actionName
  | actionOpening
  | actionClosing
  | causesSign
  | literalText
  | closingQuote
  | stateOpening
  | stateClosing
  | argument
  | number
  | fractionDigits
  | groupClosing
  | allName
  | typeName
  | callOpening
  | callClosing
  | listClosing
  deriving DecidableEq, Repr

/-- The wording of an expectation. -/
def Expected.text : Expected → String
  | .notEqualSign => "!="
  | .andSign => "&&"
  | .orSign => "||"
  | .pythonOpening => "`(#` after PYTHON"
  | .rulesWord => "`RULES`"
  | .openBrace => "`\x7b`"
  | .oneRule => "at least one rule"
  | .ruleEnd => "`;` or `\x7d`"
  | .conditionOpening => "`(` after `if`"
  | .conditionClosing => "`)` after condition"
  | .conditionColon => "`:` after condition"
  | .actionName => "action name"
  | .actionOpening => "`(` after action name"
  | .actionClosing => "`,` or `)` after arguments"
  | .causesSign => "`:=`"
  | .literalText => "literal text after `'`"
  | .closingQuote => "closing `'`"
  | .stateOpening => "`(` after STATE"
  | .stateClosing => "`,` or `)` after STATE arguments"
  | .argument => "argument"
  | .number => "number"
  | .fractionDigits => "digits after `.`"
  | .groupClosing => "`)` after grouped condition"
  | .allName => "type name in ALL(...)"
  | .typeName => "variable in TYPE(...)"
  | .callOpening => "`(`"
  | .callClosing => "`)`"
  | .listClosing => "`,` or `]` after list items"

/-- Why a continuation marker was refused. -/
inductive ContinuationFault
  | outOfRange
  | zero
  | notLast
  | beforeFirst
  | outsideList
  deriving DecidableEq, Repr

/-- The wording of a refusal. -/
def ContinuationFault.text : ContinuationFault → String
  | .outOfRange => "offset is out of range"
  | .zero => "offset must be at least 1"
  | .notLast => "continuation must be the last argument"
  | .beforeFirst => "continuation reaches before the first argument"
  | .outsideList => "continuations in conditions must appear inside a list"

/-- Why a text is no rule program. -/
inductive ReadError
  /-- The text holds nothing but spaces, tabs and line ends. -/
  | emptyInput
  | inputTooLarge (limit actual : Nat)
  /-- A group, state or list was opened inside as many others as the limit allows. -/
  | nestingTooDeep (limit position : Nat)
  | unexpectedCharacter (found : Char) (position : Nat)
  | unexpectedToken (expected : Expected) (found : String) (position : Nat)
  | unterminatedPython (position : Nat)
  | invalidContinuation (fault : ContinuationFault) (position : Nat)
  | trailingInput (position : Nat)
  deriving DecidableEq, Repr

namespace ReadError

/-- The byte offset that an error points at. -/
def position? : ReadError → Option Nat
  | emptyInput | inputTooLarge .. => none
  | nestingTooDeep _ position | unexpectedCharacter _ position | unexpectedToken _ _ position
  | unterminatedPython position | invalidContinuation _ position | trailingInput position =>
    some position

/-- The wording of an error. -/
def message : ReadError → String
  | emptyInput => "input is empty"
  | inputTooLarge limit actual =>
    s!"input exceeds size limit: {actual} bytes (max {limit})"
  | nestingTooDeep limit position =>
    s!"input nesting exceeds limit: depth {limit + 1} (max {limit}) at {position}"
  | unexpectedCharacter found position =>
    s!"unexpected character `{found}` at {position}"
  | unexpectedToken expected found position =>
    s!"unexpected token `{found}` at {position}, expected {expected.text}"
  | unterminatedPython position =>
    s!"inline python starting at {position} is missing its closing `#)`"
  | invalidContinuation fault position =>
    s!"invalid continuation at {position}: {fault.text}"
  | trailingInput position => s!"unexpected trailing input at {position}"

end ReadError

end CausalRules
