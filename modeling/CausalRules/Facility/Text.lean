import CausalRules.Facility.Block
import CausalRules.Script.Line
import CausalRules.Script.Name
import CausalRules.Script.Sign

/-!
# The text of facility blocks

- `Block.lines`: the lines of a block inside the function that collects causes.
- `Domain`: what is put into the facility script, from `Domain.ofProgram`.
-/

namespace CausalRules.Facility

open Script (identifier membersName quote Line)

/-- An observed argument. -/
def Slot.render (slot : Slot) : String :=
  s!"arguments[{slot.effect}][{slot.arg}]"

/-- A part of a tuple, itself a tuple. -/
def Piece.render : Piece → String
  | .item slot => s!"({slot.render}, )"
  | .constant value => s!"({value.render}, )"
  | .tail slot => s!"arguments[{slot.effect}][{slot.arg}:]"

/-- The concatenation of parts. -/
def renderPieces (parts : List Piece) : String :=
  if parts.isEmpty then "()" else "+".intercalate (parts.map Piece.render)

/-- The variable that holds the type of the object that a rule variable stands for. -/
def typeOfName (variableName : String) : String :=
  identifier variableName ++ "_type"

/-- A value in a condition. -/
def Term.render : Term → String
  | .item slot => slot.render
  | .constant value => value.render
  | .python code => code
  | .typeOf variableName _ => typeOfName variableName

/-- A test in a condition. -/
def Test.render : Test → String
  | .python code => code
  | .sameMembers typeName members =>
    s!"set({membersName typeName}) == set({renderPieces members})"
  | .compare left op right => s!"{left.render} {op.scriptSign} {right.render}"

/-- The variable that a setup assigns. -/
def Setup.name : Setup → String
  | .members typeName => membersName typeName
  | .typeOf variableName _ => typeOfName variableName

/-- What a setup computes. -/
def Setup.value : Setup → String
  | .members typeName =>
    "[obj_id for (obj_id, obj_type,_,_,_,_) in states[0] if obj_type == " ++ quote typeName ++ "]"
  | .typeOf _ slot => s!"lookup_type({slot.render}, states[0])"

/-- The assignment of a setup. -/
def Setup.render (setup : Setup) : String :=
  setup.name ++ " = " ++ setup.value

/-- A condition in the script. -/
def renderGuard (guard : Formula Test) : String :=
  guard.render Test.render Connective.scriptWord

namespace Block

/-- The tuple of the effects' names. -/
def actionsTuple (block : Block) : String :=
  "(" ++ String.join (block.effects.map fun name => quote name ++ ",") ++ ")"

/-- The statement that adds the intention as a possible cause. -/
def addStatement (block : Block) : String :=
  s!"g.add((states[0],{quote block.intention},{renderPieces block.args}))"

/-- The lines of a block, at the depth of a function body. -/
def lines (block : Block) : List Line :=
  ⟨1, s!"if actions == {block.actionsTuple}:"⟩ ::
    match block.guard with
    | none => [⟨2, block.addStatement⟩]
    | some guard =>
      block.setup.map (fun setup => ⟨2, setup.render⟩) ++
        [⟨2, s!"if {renderGuard guard}:"⟩, ⟨3, block.addStatement⟩]

end Block

/-- What is put into the facility script. -/
structure Domain where
  /-- The body of the function that collects causes. -/
  causes : String
  /-- The largest number of effects of any rule. -/
  maxEffects : Nat
  deriving DecidableEq, Repr

/-- The domain of a program. -/
def Domain.ofProgram (program : Program) : Except EmitError Domain := do
  let blocks ← Facility.ofProgram program
  return ⟨Line.renderAll (blocks.flatMap Block.lines), program.maxEffects⟩

end CausalRules.Facility
