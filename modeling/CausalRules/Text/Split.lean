/-!
# Splitting a text at a character

- `splitAll`: the parts of a text between the occurrences of a character, of which there is one more
  than there are occurrences.
-/

namespace CausalRules.Text

/-- Splits what is left; the current part and the finished parts are held in reverse. -/
def splitFrom (separator : Char) : List Char → List Char → List (List Char) → List (List Char)
  | [], part, parts => (part.reverse :: parts).reverse
  | c :: rest, part, parts =>
    if c = separator then splitFrom separator rest [] (part.reverse :: parts)
    else splitFrom separator rest (c :: part) parts

/-- The parts between the occurrences of a character. -/
def splitAll (separator : Char) (text : List Char) : List (List Char) :=
  splitFrom separator text [] []

end CausalRules.Text
