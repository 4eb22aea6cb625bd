import CausalRules.Compile
import CausalRules.Proofs.Indentation
import CausalRules.Proofs.Rule
import CausalRules.Proofs.Script.Words

/-!
# Generated names and the script around them

The methods are put into a script that imports and defines names of its own, and read some of them.
Reserved words are kept out of the way; which names that leaves is said here, for every program.

- `scriptGlobals`, `calledBuiltins`: the names that the script and the methods find outside of
  functions.
- `exposedNames`: those of them that are not reserved. `exposed_iff` says when a function has one.
- `words_head`, `topLevelNames_lines`: the names in the head of a method, and what a method binds.
- `shadowed_iff`: when the function of an intention, or a parameter, hides a name that is used.
- `explaining_hidden`: an intention whose function takes the place of the one that explains.
-/

namespace CausalRules.Imitation

open Script (identifier underscored reservedNames words topLevelNames IsWord isIdentifierChar Line)

/-! ## Names that are used -/

/-- A name that the script uses, with a line that binds it at the top level and an indented one that
reads it, which runs when the methods are there. -/
structure ScriptUse where
  name : String
  binds : String
  reads : String

/-- The names that the script imports or defines, and reads later. -/
def scriptUses : List ScriptUse :=
  [⟨"load_demo", "from load_facility_demo import load_demo",
      "    demo = load_demo(demo_directory='./SMILE-1.1.0/room_demo/')"⟩,
    ⟨"causes", "from facility_domain import causes, M",
      "    _, tlcovs, _ = copct.explain(causes, demo, M=M)"⟩,
    ⟨"M", "from facility_domain import causes, M",
      "    _, tlcovs, _ = copct.explain(causes, demo, M=M)"⟩,
    ⟨"copct", "import copct", "    _, tlcovs, _ = copct.explain(causes, demo, M=M)"⟩,
    ⟨"pyhop", "import pyhop", "    state = pyhop.State('')"⟩,
    ⟨"math", "import math", "    radians = dest_angle*math.pi/180"⟩,
    ⟨"ops", "ops = pyhop.declare_operators(grasp, release)", "        action_fun = ops[action[0]]"⟩,
    ⟨"deep_copy", "def deep_copy(state):", "    new_state = deep_copy(state)"⟩,
    ⟨"toXML", "def toXML(state, xml_file_path):",
      "    toXML(state,'./SMILE-1.1.0/tablesetup/room2.xml')"⟩,
    ⟨"flatten", "def flatten(l):", "            out.extend(flatten(item))"⟩]

/-- The names that the script finds at its top level. -/
def scriptGlobals : List String :=
  scriptUses.map ScriptUse.name

/-- The lines are those of the script. -/
theorem scriptUses_mem : ∀ use ∈ scriptUses,
    use.binds ∈ Template.imitationLines ∧ use.reads ∈ Template.imitationLines := by
  -- each line is found by its number, counted from 0
  have hline : ∀ {line : String} (i : Nat), Template.imitationLines[i]? = some line →
      line ∈ Template.imitationLines := fun _ => List.mem_of_getElem?
  simp only [scriptUses, List.forall_mem_cons]
  exact ⟨⟨hline 3 rfl, hline 65 rfl⟩, ⟨hline 4 rfl, hline 66 rfl⟩, ⟨hline 4 rfl, hline 66 rfl⟩,
    ⟨hline 5 rfl, hline 66 rfl⟩, ⟨hline 6 rfl, hline 73 rfl⟩, ⟨hline 7 rfl, hline 43 rfl⟩,
    ⟨hline 48 rfl, hline 95 rfl⟩, ⟨hline 11 rfl, hline 40 rfl⟩, ⟨hline 15 rfl, hline 84 rfl⟩,
    ⟨hline 53 rfl, hline 57 rfl⟩, List.forall_mem_nil _⟩

/-- They bind and read the names. -/
theorem scriptUses_used : ∀ use ∈ scriptUses, use.name ∈ topLevelNames use.binds ∧
    use.reads.toList.head? = some ' ' ∧ use.name ∈ words use.reads := by
  simp only [scriptUses, List.forall_mem_cons]
  refine ⟨?_, ?_, ?_, ?_, ?_, ?_, ?_, ?_, ?_, ?_, List.forall_mem_nil _⟩
  all_goals decide +kernel

/-- The built-in functions that methods call: `set` to compare arguments, `tuple` for the rest of a
sequence, `len` when a type has to have no objects. -/
def calledBuiltins : List String :=
  ["set", "tuple", "len"]

/-- The names that methods find outside of themselves, and `state`, which is their own. -/
def methodGlobals : List String :=
  "state" :: "flatten" :: calledBuiltins

/-- The names in use that are not reserved. -/
def exposedNames : List String :=
  ["load_demo", "causes", "M", "deep_copy", "toXML"] ++ calledBuiltins

/-- Each name in use is either reserved or exposed. -/
theorem used_iff_exposed : ∀ w ∈ scriptGlobals ++ calledBuiltins,
    w ∈ reservedNames ∨ w ∈ exposedNames := by
  decide

theorem exposed_used : ∀ w ∈ exposedNames, w ∈ scriptGlobals ++ calledBuiltins ∧
    w ∉ reservedNames ∧ ∀ r ∈ reservedNames, r ++ "_" ≠ w := by
  decide

/-- An identifier is a name in use exactly if the name is spelled like an exposed one. -/
theorem exposed_iff {name : String} : identifier name ∈ scriptGlobals ++ calledBuiltins ↔
    underscored name ∈ exposedNames := by
  constructor
  · intro h
    -- an identifier is never reserved
    have hexposed := (used_iff_exposed _ h).resolve_left (Script.identifier_not_reserved name)
    obtain ⟨-, hreserved, hescaped⟩ := exposed_used _ hexposed
    rw [(Script.identifier_eq_iff_underscored hreserved hescaped).mp rfl]
    exact hexposed
  · intro h
    obtain ⟨hused, hreserved, hescaped⟩ := exposed_used _ h
    rw [(Script.identifier_eq_iff_underscored hreserved hescaped).mpr rfl]
    exact hused

theorem methodGlobals_reserved : ∀ w ∈ methodGlobals,
    w ∈ reservedNames ∨ w ∈ calledBuiltins ∧ '_' ∉ w.toList := by
  decide

/-- A parameter is a name that methods use exactly if its variable is spelled like a built-in
function. -/
theorem param_mem_iff {name : String} : identifier name ∈ methodGlobals ↔ name ∈ calledBuiltins := by
  constructor
  · intro h
    obtain ⟨hcalled, hplain⟩ :=
      (methodGlobals_reserved _ h).resolve_left (Script.identifier_not_reserved name)
    rwa [Script.eq_of_identifier_eq hplain rfl]
  · revert name
    decide

/-! ## Names in the text of a method -/

theorem isWord_identifier {name : String} (h : IsName name) : IsWord (identifier name) := by
  have hword : ∀ c, isWordChar c = true → c ≠ '-' → isIdentifierChar c = true := by
    intro c hc hne
    simpa [isWordChar, isIdentifierChar, hne] using hc
  refine ⟨Script.over_identifier_of_ne (h.over fun _ hc => hc) hword (by decide), ?_⟩
  intro hempty
  obtain ⟨c, rest, hcons, -⟩ := h.flush_identifier.exists_cons
  rw [hempty] at hcons
  cases hcons

variable {method : Method}

/-- The words in the head of a method are its function and its parameters, after `state`. -/
theorem words_head (hname : IsName method.name)
    (hparams : ∀ param ∈ method.signature.fixed ++ method.signature.star.toList, IsWord param) :
    words method.head = "def" :: method.function :: "state" ::
      (method.signature.fixed ++ method.signature.star.toList) := by
  obtain ⟨hfixed, hstar⟩ := List.forall_mem_append.mp hparams
  have hdef : IsWord "def" := ⟨by decide, by decide⟩
  have hfunction : IsWord method.function := isWord_identifier hname
  have hstate : IsWord "state" := ⟨by decide, by decide⟩
  -- what is after the fixed parameters
  have htail : ∃ tail, method.signature.renderParams ++ "):" =
      String.join (method.signature.fixed.map (", " ++ ·)) ++ tail ∧
        Script.EndsWord tail.toList ∧ words tail = method.signature.star.toList := by
    unfold Signature.renderParams
    cases hsome : method.signature.star with
    | none => exact ⟨"" ++ "):", String.append_assoc, by decide, by decide⟩
    | some star =>
      rw [hsome] at hstar
      have hword := hstar star (List.mem_singleton_self star)
      refine ⟨", *" ++ star ++ "):", String.append_assoc, ?_, ?_⟩
      · rw [String.append_assoc]
        exact Script.endsWord_separator (by decide) (by decide)
      · rw [String.append_assoc, Script.words_separator (by decide)]
        exact Script.words_append hword (by decide)
  obtain ⟨tail, htext, hends, hwords⟩ := htail
  have hhead : method.head = "def" ++ (" " ++ (method.function ++ ("(" ++ ("state" ++
      (String.join (method.signature.fixed.map (", " ++ ·)) ++ tail))))) := by
    have hopen : "def " = "def" ++ " " := rfl
    have hparen : "(state" = "(" ++ "state" := rfl
    show "def " ++ method.function ++ "(state" ++ method.signature.renderParams ++ "):" = _
    rw [← htext, hopen, hparen]
    simp only [String.append_assoc]
  rw [hhead, Script.words_append_separator hdef (by decide) (by decide),
    Script.words_append_separator hfunction (by decide) (by decide),
    Script.words_join hstate hfixed (by decide) (by decide) hends, hwords]

/-- The statement that declares a method binds nothing. -/
theorem topLevelNames_declaration : topLevelNames method.declaration = [] := by
  have hpyhop : IsWord "pyhop" := ⟨by decide, by decide⟩
  obtain ⟨rest, hrest⟩ : ∃ rest, method.declaration = "pyhop" ++ ("." ++ rest) := by
    refine ⟨"declare_methods(" ++ Script.quote method.name ++ "," ++ method.function ++ ")", ?_⟩
    have hopen : "pyhop.declare_methods(" = "pyhop" ++ ("." ++ "declare_methods(") := rfl
    show "pyhop.declare_methods(" ++ _ ++ _ ++ _ ++ _ = _
    rw [hopen]
    simp only [String.append_assoc]
    rfl
  have hlist : method.declaration.toList = 'p' :: 'y' :: 'h' :: 'o' :: 'p' :: '.' :: rest.toList := by
    rw [hrest, String.toList_append, String.toList_append]
    rfl
  have hunassigned : ("pyhop" ++ " = ").toList.isPrefixOf method.declaration.toList = false := by
    rw [hlist]
    rfl
  have hwords : words method.declaration = "pyhop" :: words rest := by
    rw [hrest, Script.words_append_separator hpyhop (by decide) (by decide)]
  unfold topLevelNames
  rw [if_neg (isStatement_declaration method).flush.head_ne, hwords]
  show (if ("pyhop" ++ " = ").toList.isPrefixOf method.declaration.toList then ["pyhop"] else []) = _
  rw [hunassigned]
  rfl

/-- A method binds its function at the top level, and nothing else. -/
theorem topLevelNames_lines {name : String} {rules : List Rule} {params : List String}
    (hrules : ∀ rule ∈ rules, rule.WellFormed) (h : Method.ofRules name rules = .ok method)
    (hwords : words method.head = "def" :: method.function :: params) :
    (method.lines.map Line.raw).flatMap topLevelNames = [method.function] := by
  have hhead : topLevelNames method.head = [method.function] := by
    unfold topLevelNames
    rw [if_neg (isHeader_head method).flush.head_ne, hwords]
    rfl
  have hinside : (method.inside.map Line.raw).flatMap topLevelNames = [] := by
    rw [List.flatMap_eq_nil_iff, List.forall_mem_map]
    intro line hline
    exact Script.topLevelNames_indented ((suite_inside hrules h).le_depth line hline)
  rw [Method.lines_eq, List.map_cons, List.map_append, List.map_singleton, List.flatMap_cons,
    List.flatMap_append, hinside, List.flatMap_singleton, Line.raw_zero, Line.raw_zero, hhead,
    topLevelNames_declaration]
  rfl

/-! ## Programs -/

/-- **Which generated names hide a name in use.** The head of a method has its function and, after
`state`, the identifiers of variables; a method binds nothing but its function at the top level. The
function is a name that the script or the methods use exactly if the intention is spelled like an
exposed one, and a parameter exactly if its variable is spelled like a built-in function. -/
theorem shadowed_iff {limits : Limits} {text : String} {program : Program} {methods : List Method}
    (hread : Program.read limits text = .ok program) (h : ofProgram program = .ok methods) :
    ∀ method ∈ methods, ∃ (first : Rule) (rest : List Rule) (params : List String),
      rulesOf program.rules method.name = first :: rest ∧ params <+: first.variables ∧
      (method.lines.map Line.raw).flatMap topLevelNames = [method.function] ∧
      (∃ head, (method.lines.map Line.raw).head? = some head ∧
        words head = "def" :: method.function :: "state" :: params.map identifier) ∧
      (method.function ∈ scriptGlobals ++ calledBuiltins ↔
        underscored method.name ∈ exposedNames) ∧
      ∀ param ∈ params, identifier param ∈ methodGlobals ↔ param ∈ calledBuiltins := by
  intro method hmethod
  have hprogram := Program.wellFormed_of_read hread
  obtain ⟨first, rest, hfirst, hisName, hsubset, hof⟩ := exists_rules_of_mem hprogram h hmethod
  obtain ⟨-, hsignature, -⟩ := eq_of_ofRules hof
  have hrules : ∀ rule ∈ first :: rest, rule.WellFormed :=
    fun rule hrule => hprogram.rules rule (hsubset rule hrule)
  have hparams : ∀ param ∈ method.signature.fixed ++ method.signature.star.toList,
      IsWord param := by
    intro param hparam
    obtain ⟨name, hname, rfl⟩ := isName_of_param hrules hsignature param hparam
    exact isWord_identifier hname
  have hwords := words_head hisName hparams
  have hbinds := topLevelNames_lines hrules hof hwords
  obtain ⟨-, params, hprefix, hidentifiers⟩ := params_of_ofRules hsignature
  rw [hidentifiers] at hwords
  have hhead : (method.lines.map Line.raw).head? = some method.head := by
    rw [Method.lines_eq, List.map_cons, Line.raw_zero]
    rfl
  exact ⟨first, rest, params, hfirst, hprefix, hbinds, ⟨method.head, hhead, hwords⟩, exposed_iff,
    fun param _ => param_mem_iff⟩

/-- An intention and parameters with names in use. -/
def operatingText : String :=
  "RULES \x7b ops(state, dx, len) := grasp(state, dx, len) \x7d"

/-- The rule of `operatingText`. -/
def operating : Rule where
  condition := none
  intention := ⟨"ops", [.variable "state", .variable "dx", .variable "len"], 8⟩
  effects := [⟨"grasp", [.variable "state", .variable "dx", .variable "len"], 31⟩]
  position := 8

/-- The method of `operating`. -/
def operatingMethod : Method where
  name := "ops"
  signature := ⟨["state_", "dx", "len"], none⟩
  clauses := [⟨[], .absent, [⟨"grasp", [.value (.param "state_"), .value (.param "dx"),
    .value (.param "len")], none⟩]⟩]

/-- Reserved words are kept out of the way in it, and `len` is not. -/
theorem operating_names : ∃ params : List String, params <+: operating.variables ∧
    (∃ head, (operatingMethod.lines.map Line.raw).head? = some head ∧
      words head = "def" :: "ops_" :: "state" :: params.map identifier) ∧
    ("ops_" ∈ scriptGlobals ++ calledBuiltins ↔ underscored "ops" ∈ exposedNames) ∧
    ∀ param ∈ params, identifier param ∈ methodGlobals ↔ param ∈ calledBuiltins := by
  have hread : Program.read ⟨200, 0⟩ operatingText = .ok ⟨[operating]⟩ := by
    decide +kernel
  have hmethods : ofProgram ⟨[operating]⟩ = .ok [operatingMethod] := rfl
  obtain ⟨first, rest, params, hrules, hprefix, -, hhead, hfunction, hparams⟩ :=
    shadowed_iff hread hmethods operatingMethod (List.mem_singleton_self _)
  obtain rfl : operating = first := List.head_eq_of_cons_eq hrules
  exact ⟨params, hprefix, hhead, hfunction, hparams⟩

/-- An intention with the name of the function that explains, and a parameter with that of a built-in
function. -/
def explainingText : String :=
  "RULES \x7b causes(set) := grasp(set) \x7d"

/-- The rule of `explainingText`. -/
def explaining : Rule where
  condition := none
  intention := ⟨"causes", [.variable "set"], 8⟩
  effects := [⟨"grasp", [.variable "set"], 23⟩]
  position := 8

/-- The method of `explaining`. -/
def explainingMethod : Method where
  name := "causes"
  signature := ⟨["set"], none⟩
  clauses := [⟨[], .absent, [⟨"grasp", [.value (.param "set")], none⟩]⟩]

/-- The script goes on with this function where it means to explain a demonstration. -/
theorem explaining_hidden : Program.read ⟨200, 0⟩ explainingText = .ok ⟨[explaining]⟩ ∧
    ofProgram ⟨[explaining]⟩ = .ok [explainingMethod] ∧
    explainingMethod.lines.head? = some ⟨0, "def causes(state, set):"⟩ ∧
    explainingMethod.function ∈ scriptGlobals ∧
    ∃ param ∈ explainingMethod.signature.fixed, param ∈ methodGlobals := by
  have hread : Program.read ⟨200, 0⟩ explainingText = .ok ⟨[explaining]⟩ := by
    decide +kernel
  have hhead : explainingMethod.lines.head? = some ⟨0, "def causes(state, set):"⟩ := by
    decide
  have hfunction : explainingMethod.function ∈ scriptGlobals := by
    decide
  exact ⟨hread, rfl, hhead, hfunction, "set", List.mem_singleton_self _, by decide⟩

end CausalRules.Imitation
