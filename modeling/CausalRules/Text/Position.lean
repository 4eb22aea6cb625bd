/-!
# Positions in a text

A position is an offset in bytes of the UTF-8 form of a text. People read lines and columns, which
count characters.

- `Place`: a line and a column, both from 1.
- `placeAt`: the place of a byte offset; an offset past the end has the place of the end.
-/

namespace CausalRules.Text

/-- A line and a column, both counted from 1; columns count characters. -/
structure Place where
  line : Nat
  column : Nat
  deriving DecidableEq, Repr

/-- The first place of every text. -/
def Place.start : Place := ⟨1, 1⟩

/-- The place after a character. -/
def Place.after (p : Place) (c : Char) : Place :=
  if c = '\n' then ⟨p.line + 1, 1⟩ else ⟨p.line, p.column + 1⟩

/-- Moves over every character that begins before `offset` bytes have passed. -/
def Place.advance (p : Place) : List Char → Nat → Place
  | [], _ => p
  | c :: cs, offset => if offset = 0 then p else (p.after c).advance cs (offset - c.utf8Size)

/-- The line and column of a byte offset. -/
def placeAt (text : String) (offset : Nat) : Place :=
  Place.start.advance text.toList offset

end CausalRules.Text
