/-!
# Lines of a generated script

A line is kept with its depth of indentation apart from its text, so that blocks can be nested.
-/

namespace CausalRules.Script

/-- One level of indentation. -/
def indent : String := "    "

/-- A line of a script. -/
structure Line where
  /-- The levels by which the line is indented. -/
  depth : Nat
  text : String
  deriving DecidableEq, Repr

namespace Line

/-- The blanks in front of the text of a line. -/
def margin (line : Line) : String :=
  String.join (List.replicate line.depth indent)

/-- A line with its indentation and its line end. -/
def render (line : Line) : String :=
  line.margin ++ line.text ++ "\n"

/-- Lines one after the other. -/
def renderAll (lines : List Line) : String :=
  lines.foldl (fun out line => out ++ line.render) ""

end Line

end CausalRules.Script
