import CausalRules.Proofs.Imitation.Spelling
import CausalRules.Proofs.Imitation.Tuples

/-!
# Running the text of methods

The lines of a method are statements in blocks. Running them lists the objects of types, tests the
guard of each rule and assigns the rule's calls. When an intention has one rule these are returned.
When it has several, a nested loop gathers what the calls use, and they are returned if that is
everything the intention was called with; otherwise the next rule is tried.

- `Code`, `Code.lines`, `Code.run?`: statements, their lines and what running them comes to.
- `Method.code`, `Method.inside_eq`: the statements of a method, whose lines are those inside it.

The variables of the statements themselves begin with an underscore. No name of a rule does, so they
are kept apart from what parameters and lists hold.
-/

namespace CausalRules.Imitation

open Script (Line membersName)

/-! ## Statements -/

/-- Statements that stand alone. -/
inductive Statement
  /-- Lists the objects of a type. -/
  | list (typeName : String)
  /-- Flattens the star parameter. -/
  | flattenStar (star : String)
  | calls (variableName : String) (written : List Call)
  | empty (variableName : String)
  | append (variableName : String) (value : String)
  /-- Lists the lists of arguments that a method was called with. -/
  | arguments (variableName : String) (signature : Signature)
  | flatten (variableName : String)

/-- What a block depends on. -/
inductive Question
  | always
  | formula (written : Formula Test)
  /-- Each element of one list is an element of the other. -/
  | contained (part whole : String)

/-- Statements, each with those after it. -/
inductive Code
  | done
  | act (statement : Statement) (rest : Code)
  | when (question : Question) (block : Code) (rest : Code)
  | each (variableName : String) (sequence : String) (block : Code) (rest : Code)
  | give (variableName : String) (rest : Code)

/-! ### Text -/

def Statement.text : Statement → String
  | .list typeName => listStatement typeName
  | .flattenStar star => s!"{star} = flatten({star})"
  | .calls name written => s!"{name} = [" ++ ",".intercalate (written.map Call.render) ++ "]"
  | .empty name => s!"{name} = []"
  | .append name value => s!"{name}.append({value})"
  | .arguments name signature => s!"{name} = " ++ signature.renderArgs
  | .flatten name => s!"{name} = flatten({name})"

def Question.text : Question → String
  | .always => "True"
  | .formula written => renderFormula written
  | .contained part whole => s!"set({part}).issubset(set({whole}))"

/-- The lines of statements at a depth. -/
def Code.lines (depth : Nat) : Code → List Line
  | .done => []
  | .act statement rest => ⟨depth, statement.text⟩ :: rest.lines depth
  | .when question block rest =>
    ⟨depth, s!"if {question.text}:"⟩ :: (block.lines (depth + 1) ++ rest.lines depth)
  | .each name sequence block rest =>
    ⟨depth, s!"for {name} in {sequence}:"⟩ :: (block.lines (depth + 1) ++ rest.lines depth)
  | .give name rest => ⟨depth, s!"return {name}"⟩ :: rest.lines depth

/-! ### Running -/

/-- What a variable of the statements may hold. -/
inductive Held (V : Type)
  | single (value : V)
  | several (values : List V)
  | nested (values : List (List V))

/-- What a list holds that is made flat. Values themselves are no lists. -/
def Held.flatten? {V : Type} : Held V → Option (List V)
  | single _ => none
  | several values => some values
  | nested values => some values.flatten

/-- The elements of a list or tuple. -/
def Held.elements? {V : Type} : Held V → Option (List (Held V))
  | single _ => none
  | several values => some (values.map single)
  | nested values => some (values.map several)

/-- What is known while statements run. -/
structure State (V : Type) where
  /-- What parameters and lists hold. -/
  frame : Frame V
  /-- What the variables of the statements hold. -/
  own : String → Option (Held V)

namespace State

variable {V : Type} (state : State V)

/-- Assigns to a variable of the statements. -/
def assign (name : String) (held : Held V) : State V :=
  { state with own := fun other => if other = name then some held else state.own other }

@[simp] theorem own_assign (name : String) (held : Held V) (other : String) :
    (state.assign name held).own other = if other = name then some held else state.own other := rfl

@[simp] theorem frame_assign (name : String) (held : Held V) :
    (state.assign name held).frame = state.frame := rfl

/-- The values of a flat list. -/
def several? (name : String) : Option (List V) :=
  match state.own name with
  | some (.several values) => some values
  | _ => none

end State

/-- What running statements comes to: it goes on after them, or they returned something. -/
inductive Outcome (S V : Type)
  | goesOn (state : S)
  | returned (held : Held V)

namespace Outcome

variable {S T V : Type}

/-- Goes on with what comes next, unless something was returned. -/
def andThen (outcome : Outcome S V) (next : S → Option (Outcome S V)) : Option (Outcome S V) :=
  match outcome with
  | goesOn state => next state
  | returned held => some (.returned held)

/-- What matters of the state in which it goes on. -/
def map (f : S → T) : Outcome S V → Outcome T V
  | goesOn state => .goesOn (f state)
  | returned held => .returned held

/-- What was returned. -/
def returned? : Outcome S V → Option (Held V)
  | goesOn _ => none
  | returned held => some held

end Outcome

section Run

variable {V : Type} (m : Interpretation V) (scene : Scene V)

/-- The values of the tuple of a call. -/
def Call.tuple (call : String × List V) : List V :=
  m.constant (.text call.1) :: call.2

/-- The lists of arguments that a method was called with. -/
def Signature.arguments? (signature : Signature) (frame : Frame V) : Option (List (List V)) := do
  let fixed ← signature.fixed.mapM fun param => ([·]) <$> frame.one? param
  match signature.star with
  | some star => return fixed ++ [← frame.all? star]
  | none => return fixed

/-- A frame in which the objects of a type are listed. -/
def Frame.list (frame : Frame V) (typeName : String) : Frame V :=
  fun name =>
    if name = membersName typeName then some (.several (scene.ofType m typeName)) else frame name

/-- The state after a statement. -/
def Statement.next? (statement : Statement) (state : State V) : Option (State V) :=
  match statement with
  | .list typeName => some { state with frame := state.frame.list m scene typeName }
  | .flattenStar star => do
    let _ ← state.frame.all? star
    return state
  | .calls name written => do
    let values ← written.mapM (Call.value? m scene state.frame)
    return state.assign name (.nested (values.map (Call.tuple m)))
  | .empty name => some (state.assign name (.several []))
  | .append name value => do
    let values ← state.several? name
    match ← state.own value with
    | .single last => return state.assign name (.several (values ++ [last]))
    | _ => none
  | .arguments name signature => do
    return state.assign name (.nested (← signature.arguments? state.frame))
  | .flatten name => do
    return state.assign name (.several (← (← state.own name).flatten?))

/-- Whether a block is run. -/
def Question.holds? (question : Question) (state : State V) : Option Bool :=
  match question with
  | .always => some true
  | .formula written => written.value? (Test.truth? m scene state.frame)
  | .contained part whole => do
    let values ← state.several? part
    let others ← state.several? whole
    return values.all fun value => others.any (m.compare .equal value)

/-- What running statements comes to. -/
def Code.run? : Code → State V → Option (Outcome (State V) V)
  | .done, state => some (.goesOn state)
  | .act statement rest, state => do rest.run? (← statement.next? m scene state)
  | .when question block rest, state => do
    if ← question.holds? m scene state then (← block.run? state).andThen rest.run?
    else rest.run? state
  | .each name sequence block rest, state => do
    let elements ← (← state.own sequence).elements?
    let outcome ← elements.foldlM
      (fun (outcome : Outcome (State V) V) held =>
        outcome.andThen fun state => block.run? (state.assign name held))
      (Outcome.goesOn state)
    outcome.andThen rest.run?
  | .give name _, state => .returned <$> state.own name

end Run

/-! ## Methods -/

/-- The statements that gather what calls use. -/
def gathering : Code :=
  .each "__action" "__ret_val"
    (.each "__arg" "__action" (.act (.append "__all_args" "__arg") .done) .done) .done

/-- Statements one after the other. -/
def Code.append : Code → Code → Code
  | .done, next => next
  | .act statement rest, next => .act statement (rest.append next)
  | .when question block rest, next => .when question block (rest.append next)
  | .each name sequence block rest, next => .each name sequence block (rest.append next)
  | .give name rest, next => .give name (rest.append next)

/-- The statements that return calls if what was gathered is everything that the method was called
with. -/
def comparing (signature : Signature) : Code :=
  .act (.arguments "__all_intention_args" signature) <|
    .act (.flatten "__all_intention_args") <|
    .act (.flatten "__all_args") <|
    .when (.contained "__all_intention_args" "__all_args") (.give "__ret_val" .done) .done

/-- The statements that return the calls of a rule. -/
def returning : Option Signature → Code
  | none => .give "__ret_val" .done
  | some signature => .act (.empty "__all_args") (gathering.append (comparing signature))

namespace Clause

/-- The statements that assign and return the calls. -/
def body (compared : Option Signature) (clause : Clause) : Code :=
  .act (.calls "__ret_val" clause.calls) (returning compared)

/-- The statements of a clause. -/
def code (compared : Option Signature) (clause : Clause) : Code :=
  clause.listed.foldr (fun typeName => .act (.list typeName)) <|
    match clause.guard with
    | .absent => clause.body compared
    | .satisfied => .when .always (clause.body compared) .done
    | .test formula => .when (.formula formula) (clause.body compared) .done

end Clause

/-- The statements of clauses, one clause after the other. -/
def codeOf (compared : Option Signature) (clauses : List Clause) : Code :=
  clauses.foldr (fun clause => (clause.code compared).append) .done

namespace Method

/-- The signature whose arguments the calls of a rule have to use, when there are several rules. -/
def compared (method : Method) : Option Signature :=
  if 1 < method.clauses.length then some method.signature else none

/-- The statements of a method. -/
def code (method : Method) : Code :=
  match method.signature.star with
  | some star => .act (.flattenStar star) (codeOf method.compared method.clauses)
  | none => codeOf method.compared method.clauses

end Method

/-! ### Text -/

theorem Code.lines_append (depth : Nat) (code next : Code) :
    (code.append next).lines depth = code.lines depth ++ next.lines depth := by
  induction code with
  | done => rfl
  | act statement rest ih | give name rest ih => rw [append, lines, lines, ih, List.cons_append]
  | when question block rest _ ih | each name sequence block rest _ ih =>
    rw [append, lines, lines, ih, List.cons_append, List.append_assoc]

theorem lines_returning (depth : Nat) (compared : Option Signature) :
    (returning compared).lines depth = returnLines depth (compared.map Signature.renderArgs) := by
  cases compared <;> rfl

namespace Clause

theorem lines_body (depth : Nat) (compared : Option Signature) (clause : Clause) :
    (clause.body compared).lines depth =
      clause.bodyLines depth (compared.map Signature.renderArgs) := by
  rw [body, Code.lines, lines_returning]
  rfl

/-- The lines of a clause are those of its statements. -/
theorem lines_code (compared : Option Signature) (clause : Clause) :
    (clause.code compared).lines 1 = clause.lines (compared.map Signature.renderArgs) := by
  have hlisted : ∀ (listed : List String) (code : Code),
      (listed.foldr (fun typeName => .act (.list typeName)) code).lines 1 =
        listed.map (fun typeName => ⟨1, listStatement typeName⟩) ++ code.lines 1 := by
    intro listed code
    induction listed with
    | nil => rfl
    | cons typeName listed ih =>
      rw [List.foldr_cons, Code.lines, ih]
      rfl
  rw [code, lines, hlisted]
  refine congrArg _ ?_
  cases clause.guard with
  | absent => exact lines_body 1 compared clause
  | satisfied | test =>
    dsimp only
    rw [Code.lines, lines_body, Code.lines, List.append_nil]
    rfl

end Clause

/-- **The lines inside a method are those of its statements.** -/
theorem Method.inside_eq (method : Method) : method.inside = method.code.lines 1 := by
  have hcompared : method.comparedArgs = method.compared.map Signature.renderArgs := by
    unfold comparedArgs compared
    split <;> rfl
  have hclauses : ∀ clauses : List Clause,
      (codeOf method.compared clauses).lines 1 =
        clauses.flatMap (·.lines method.comparedArgs) := by
    intro clauses
    induction clauses with
    | nil => rfl
    | cons clause clauses ih =>
      rw [codeOf, List.foldr_cons, ← codeOf, Code.lines_append, ih, Clause.lines_code,
        ← hcompared, List.flatMap_cons]
  unfold inside code
  cases method.signature.star with
  | none => exact (hclauses method.clauses).symm
  | some star => exact congrArg _ (hclauses method.clauses).symm

end CausalRules.Imitation
