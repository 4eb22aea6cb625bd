import CausalRules.Imitation.Text
import CausalRules.Proofs.Imitation.Methods
import CausalRules.Proofs.Script.Rendered
import Mathlib.Data.List.Nodup

/-!
# Intentions are compiled independently

The method of an intention depends on the rules of that intention only. So the script of a program is
put together from those of its intentions, each compiled by itself, and rules of different intentions
may change places as long as intentions first appear in the same order.

- `checkFunctions_eq_ok_iff`: no two names share a function.
- `flatMap_rulesOf_perm`: every rule is in the group of one intention.
- `methodsText_rulesOf`: an intention compiled by itself.
- `methodsText_eq_ok_iff`: when a program is compiled, and to what.
-/

namespace CausalRules.Imitation

open Script (identifier Line)

/-! ## Functions -/

theorem checkFunctions_eq_ok_iff {seen names : List String} :
    checkFunctions seen names = .ok () ↔
      (names.map identifier).Nodup ∧ ∀ name ∈ names, ∀ other ∈ seen,
        identifier other ≠ identifier name := by
  induction names generalizing seen with
  | nil => simp [checkFunctions]
  | cons name rest ih =>
    rw [checkFunctions, List.map_cons, List.nodup_cons, List.forall_mem_cons, List.mem_map]
    cases hfind : seen.find? (identifier · = identifier name) with
    | some first =>
      have hfirst : identifier first = identifier name := by
        simpa using List.find?_some hfind
      constructor
      · rintro ⟨⟩
      · rintro ⟨-, h, -⟩
        exact (h first (List.mem_of_find?_eq_some hfind) hfirst).elim
    | none =>
      have hname : ∀ other ∈ seen, identifier other ≠ identifier name := by
        simpa using hfind
      dsimp only
      rw [ih]
      constructor
      · rintro ⟨hrest, h⟩
        refine ⟨⟨?_, hrest⟩, hname, fun other hother => ?_⟩
        · rintro ⟨other, hother, heq⟩
          exact h other hother name (List.mem_cons_self ..) heq.symm
        · exact (List.forall_mem_cons.mp (h other hother)).2
      · rintro ⟨⟨hfirst, hrest⟩, -, h⟩
        refine ⟨hrest, fun other hother => List.forall_mem_cons.mpr ⟨?_, h other hother⟩⟩
        exact fun heq => hfirst ⟨other, hother, heq.symm⟩

/-- No name of a program is refused when different names have different functions. -/
theorem checkFunctions_intentionNames (rules : List Rule) :
    checkFunctions [] (intentionNames rules) = .ok () ↔
      ∀ a ∈ intentionNames rules, ∀ b ∈ intentionNames rules, identifier a = identifier b → a = b := by
  rw [checkFunctions_eq_ok_iff, List.nodup_map_iff_inj_on (nodup_intentionNames rules)]
  exact and_iff_left fun _ _ => nofun

/-! ## The rules of one intention -/

theorem rulesOf_rulesOf (rules : List Rule) (name : String) :
    rulesOf (rulesOf rules name) name = rulesOf rules name := by
  simp [rulesOf, List.filter_filter]

theorem eraseDups_of_forall_eq {name : String} {names : List String} (hne : names ≠ [])
    (h : ∀ other ∈ names, other = name) : names.eraseDups = [name] := by
  cases names with
  | nil => exact absurd rfl hne
  | cons first rest =>
    obtain ⟨rfl, hrest⟩ := List.forall_mem_cons.mp h
    have hnone : rest.filter (fun other => !other == first) = [] := by
      rw [List.filter_eq_nil_iff]
      intro other hother
      simp [hrest other hother]
    rw [List.eraseDups_cons, hnone, List.eraseDups_nil]

theorem intentionNames_rulesOf {rules : List Rule} {name : String}
    (h : name ∈ intentionNames rules) : intentionNames (rulesOf rules name) = [name] := by
  obtain ⟨rule, hrule, hname⟩ := mem_intentionNames.mp h
  have hmem : rule ∈ rulesOf rules name := List.mem_filter.mpr ⟨hrule, decide_eq_true hname⟩
  refine eraseDups_of_forall_eq ?_ (List.forall_mem_map.mpr fun other hother => ?_)
  · rw [ne_eq, List.map_eq_nil_iff]
    exact List.ne_nil_of_mem hmem
  · exact of_decide_eq_true (List.mem_filter.mp hother).2

/-- The rules of different names are all the rules, each once. -/
theorem flatMap_rulesOf_perm {rules : List Rule} {names : List String} (hnodup : names.Nodup)
    (hcover : ∀ rule ∈ rules, rule.intention.name ∈ names) :
    (names.flatMap (rulesOf rules)).Perm rules := by
  induction names generalizing rules with
  | nil =>
    obtain rfl : rules = [] := List.eq_nil_iff_forall_not_mem.mpr fun rule hrule =>
      List.not_mem_nil (hcover rule hrule)
    exact .nil
  | cons name names ih =>
    obtain ⟨hname, hnames⟩ := List.nodup_cons.mp hnodup
    -- what is left has no rule of the first name
    have hleft : names.flatMap (rulesOf rules) =
        names.flatMap (rulesOf (rules.filter fun rule => !decide (rule.intention.name = name))) := by
      refine List.flatMap_congr fun other hother => ?_
      rw [rulesOf, rulesOf, List.filter_filter]
      refine List.filter_congr fun rule _ => ?_
      have hne : other ≠ name := fun heq => hname (heq ▸ hother)
      by_cases heq : rule.intention.name = other
      · simp [heq, hne]
      · simp [heq]
    rw [List.flatMap_cons, hleft]
    refine ((ih hnames fun rule hrule => ?_).append_left _).trans
      (List.filter_append_perm (fun rule : Rule => decide (rule.intention.name = name)) rules)
    obtain ⟨hmem, hother⟩ := List.mem_filter.mp hrule
    exact (List.mem_cons.mp (hcover rule hmem)).resolve_left (by simpa using hother)

/-! ## Texts -/

/-- The text of a method. -/
def Method.text (method : Method) : String :=
  Line.renderAll method.lines

/-- What the text of a program is. -/
theorem methodsText_eq_ok {program : Program} {text : String} : methodsText program = .ok text ↔
    ∃ methods, ofProgram program = .ok methods ∧ String.join (methods.map Method.text) = text := by
  rw [methodsText, bind_eq_ok]
  refine exists_congr fun methods => and_congr_right fun _ => ?_
  rw [pure_eq_ok, Line.renderAll_flatMap]
  rfl

/-- An intention that is compiled by itself has the text of its method. -/
theorem methodsText_rulesOf {rules : List Rule} {name text : String}
    (h : name ∈ intentionNames rules) : methodsText ⟨rulesOf rules name⟩ = .ok text ↔
      ∃ method, Method.ofRules name (rulesOf rules name) = .ok method ∧ method.text = text := by
  have hprogram : ofProgram ⟨rulesOf rules name⟩ =
      [name].mapM fun name => Method.ofRules name (rulesOf rules name) := by
    rw [ofProgram_eq, intentionNames_rulesOf h, List.mapM_cons, List.mapM_cons, rulesOf_rulesOf]
    rfl
  rw [methodsText_eq_ok, hprogram]
  constructor
  · rintro ⟨methods, hmethods, rfl⟩
    obtain ⟨method, _, hmethod, hrest, rfl⟩ :=
      List.forall₂_cons_left_iff.mp (mapM_eq_ok_iff.mp hmethods)
    obtain rfl := List.forall₂_nil_left_iff.mp hrest
    exact ⟨method, hmethod, by simp⟩
  · rintro ⟨method, hmethod, rfl⟩
    exact ⟨[method], mapM_eq_ok_iff.mpr (.cons hmethod .nil), by simp⟩

/-- Intentions are compiled by themselves to the texts of their methods. -/
theorem forall₂_methodsText {rules : List Rule} {names parts : List String}
    (h : ∀ name ∈ names, name ∈ intentionNames rules) :
    List.Forall₂ (fun name part => methodsText ⟨rulesOf rules name⟩ = .ok part) names parts ↔
      ∃ methods, names.mapM (fun name => Method.ofRules name (rulesOf rules name)) = .ok methods ∧
        methods.map Method.text = parts := by
  simp only [mapM_eq_ok_iff]
  induction names generalizing parts with
  | nil => simp [List.forall₂_nil_left_iff, eq_comm]
  | cons name names ih =>
    obtain ⟨hname, hnames⟩ := List.forall_mem_cons.mp h
    simp only [List.forall₂_cons_left_iff, ih hnames, methodsText_rulesOf hname]
    constructor
    · rintro ⟨_, _, ⟨method, hmethod, rfl⟩, ⟨methods, hmethods, rfl⟩, rfl⟩
      exact ⟨method :: methods, ⟨method, methods, hmethod, hmethods, rfl⟩, rfl⟩
    · rintro ⟨_, ⟨method, methods, hmethod, hmethods, rfl⟩, rfl⟩
      exact ⟨_, _, ⟨method, hmethod, rfl⟩, ⟨methods, hmethods, rfl⟩, rfl⟩

/-- **Intentions are compiled independently.** A program is compiled exactly if different intentions
have different functions and each intention is compiled by itself; the script is then those of the
intentions, in the order in which they first appear. So programs that have the same intentions in
the same order, with the same rules each, are compiled alike. A compiled program has one method for
each intention, no two of them with one function, and every rule is a clause of exactly one. -/
theorem methodsText_eq_ok_iff (program : Program) :
    (∀ text, methodsText program = .ok text ↔
      (∀ a ∈ intentionNames program.rules, ∀ b ∈ intentionNames program.rules,
        identifier a = identifier b → a = b) ∧
      ∃ parts, List.Forall₂ (fun name part => methodsText ⟨rulesOf program.rules name⟩ = .ok part)
        (intentionNames program.rules) parts ∧ String.join parts = text) ∧
    (∀ other : Program, intentionNames other.rules = intentionNames program.rules →
      (∀ name, rulesOf other.rules name = rulesOf program.rules name) →
        methodsText other = methodsText program) ∧
    ∀ methods, ofProgram program = .ok methods →
      methods.map Method.name = intentionNames program.rules ∧
      (methods.map Method.function).Nodup ∧
      (methods.flatMap fun method => rulesOf program.rules method.name).Perm program.rules ∧
      ∀ method ∈ methods, List.Forall₂
        (fun rule clause => Clause.ofRule method.signature rule = .ok clause)
        (rulesOf program.rules method.name) method.clauses := by
  refine ⟨fun text => ?_, fun other hnames hrules => ?_, fun methods hmethods => ?_⟩
  · rw [methodsText_eq_ok, ← checkFunctions_intentionNames, ofProgram_eq]
    simp only [bind_eq_ok, forall₂_methodsText fun _ => id]
    constructor
    · rintro ⟨methods, ⟨⟨⟩, hcheck, hmethods⟩, htext⟩
      exact ⟨hcheck, _, ⟨methods, hmethods, rfl⟩, htext⟩
    · rintro ⟨hcheck, _, ⟨methods, hmethods, rfl⟩, htext⟩
      exact ⟨methods, ⟨(), hcheck, hmethods⟩, htext⟩
  · rw [methodsText, methodsText, ofProgram_eq, ofProgram_eq, hnames]
    simp only [hrules]
  · have hof := ofRules_of_ofProgram hmethods
    have hnames : methods.map Method.name = intentionNames program.rules := by
      refine (map_eq_of_forall₂ hof.flip fun method name h => ?_).trans (List.map_id _)
      exact (eq_of_ofRules h).1
    have hcheck : checkFunctions [] (intentionNames program.rules) = .ok () := by
      rw [ofProgram_eq] at hmethods
      obtain ⟨⟨⟩, hcheck, -⟩ := bind_eq_ok.mp hmethods
      exact hcheck
    refine ⟨hnames, ?_, ?_, fun method hmethod => ?_⟩
    · have hfunctions : methods.map Method.function =
          (methods.map Method.name).map identifier := by
        rw [List.map_map]
        rfl
      rw [hfunctions, hnames]
      exact (checkFunctions_eq_ok_iff.mp hcheck).1
    · have hgroups : (methods.flatMap fun method => rulesOf program.rules method.name) =
          (methods.map Method.name).flatMap (rulesOf program.rules) := by
        rw [List.flatMap_map]
      rw [hgroups, hnames]
      exact flatMap_rulesOf_perm (nodup_intentionNames _) fun rule hrule =>
        mem_intentionNames.mpr ⟨rule, hrule, rfl⟩
    · obtain ⟨name, -, hname⟩ := exists_of_forall₂ hof.flip hmethod
      obtain ⟨rfl, -, hclauses⟩ := eq_of_ofRules hname
      exact hclauses

/-- A program with the rule of another intention between the rules of one. -/
def interleaved : Program :=
  ⟨[⟨some (.atom (.bare (.value (.python "wet")) 12)), ⟨"m", [], 28⟩, [⟨"f", [], 35⟩], 8⟩,
    ⟨none, ⟨"n", [], 40⟩, [⟨"g", [], 47⟩], 40⟩, ⟨none, ⟨"m", [], 52⟩, [⟨"h", [], 59⟩], 52⟩]⟩

/-- The method of the intention with two rules. -/
def interleavedText : String := "\n".intercalate [
  "def m(state):",
  "    if wet:",
  "        __ret_val = [('f',)]",
  "        __all_args = []",
  "        for __action in __ret_val:",
  "            for __arg in __action:",
  "                __all_args.append(__arg)",
  "        __all_intention_args = []",
  "        __all_intention_args = flatten(__all_intention_args)",
  "        __all_args = flatten(__all_args)",
  "        if set(__all_intention_args).issubset(set(__all_args)):",
  "            return __ret_val",
  "    __ret_val = [('h',)]",
  "    __all_args = []",
  "    for __action in __ret_val:",
  "        for __arg in __action:",
  "            __all_args.append(__arg)",
  "    __all_intention_args = []",
  "    __all_intention_args = flatten(__all_intention_args)",
  "    __all_args = flatten(__all_args)",
  "    if set(__all_intention_args).issubset(set(__all_args)):",
  "        return __ret_val",
  "pyhop.declare_methods('m',m)",
  ""]

/-- The rules of an intention come together in its method. -/
theorem methodsText_interleaved : methodsText interleaved = .ok (interleavedText ++
    ("def n(state):\n    __ret_val = [('g',)]\n    return __ret_val\n" ++
      "pyhop.declare_methods('n',n)\n")) := by
  have hm : methodsText ⟨rulesOf interleaved.rules "m"⟩ = .ok interleavedText := by
    decide +kernel
  have hn : methodsText ⟨rulesOf interleaved.rules "n"⟩ = .ok
      ("def n(state):\n    __ret_val = [('g',)]\n    return __ret_val\n" ++
        "pyhop.declare_methods('n',n)\n") := by
    decide +kernel
  exact ((methodsText_eq_ok_iff interleaved).1 _).mpr
    ⟨by decide, _, .cons hm (.cons hn .nil), by simp⟩

end CausalRules.Imitation
