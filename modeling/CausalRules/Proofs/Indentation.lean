import CausalRules.Proofs.Facility.Spelling
import CausalRules.Proofs.Imitation.Independence
import CausalRules.Proofs.Imitation.Spelling
import CausalRules.Proofs.Script.Indentation

/-!
# Both scripts are made of blocks

What is put into a script consists of lines, and stays so when inline code holds no line end. Each
line that ends in a colon opens a block, and every block is closed before the next rule or method
begins.

- `suite_lines` for blocks, clauses and methods: their lines are suites at one depth.
- `Imitation.exists_rules_of_mem`: the rules that a method of a program is made of.
- `scripts_wellNested`: the body of the function that collects causes, and the methods, are texts of
  blocks, with one part for each rule, and for each intention.
-/

namespace CausalRules

open Script (Line Suite Flush IsStatement IsHeader BlockText linesText)

theorem IsName.flush_identifier {name : String} (h : IsName name) :
    Flush (Script.identifier name) := by
  obtain ⟨c, cs, hname, hc, -⟩ := h.shape
  have hunderscored : Flush (Script.underscored name) := by
    refine Script.flush_of_cons (by rw [Script.underscored, String.toList_ofList, hname]; rfl) ?_
    intro hspace
    have hspace : (if c = '-' then '_' else c) = ' ' := hspace
    split at hspace
    · cases hspace
    · rw [hspace] at hc
      cases hc
  unfold Script.identifier
  dsimp only
  split
  · exact hunderscored.append "_"
  · exact hunderscored

namespace Facility

variable {rule : Rule} {block : Block}

theorem isStatement_of_setup {slots : Slots} {operand : Operand} {setup : Setup}
    (hoperand : operand.WellFormed) (h : neededFor slots operand = some setup) :
    IsStatement setup.render := by
  cases hoperand with
  | all hname =>
    obtain rfl := Option.some.inj h
    have hopen : Flush "all_" := by decide
    exact ((hopen.append _).append _).isStatement
      (Flush.isStatement (Flush.append (by decide) _) (by decide))
  | type hname =>
    obtain ⟨slot, -, rfl⟩ := Option.map_eq_some_iff.mp h
    exact (((hname.flush_identifier).append _).append _).isStatement
      (Flush.isStatement (Flush.append (by decide) _) (by decide))
  | value => cases h
  | list => cases h

theorem isStatement_addStatement (block : Block) : IsStatement block.addStatement := by
  have hopen : Flush "g.add((states[0]," := by decide
  exact (((hopen.append _).append _).append _).isStatement (by decide)

/-- The lines of a block are a suite in the body of a function. -/
theorem suite_lines (hrule : rule.WellFormed) (h : Block.ofRule rule = .ok block) :
    Suite 1 block.lines := by
  have hadd : ∀ d, Suite d [⟨d, block.addStatement⟩] :=
    fun _ => .statement (isStatement_addStatement block)
  have hsetup : ∀ setup ∈ block.setup, IsStatement setup.render := by
    intro setup hsetup
    rw [setup_of_ofRule h, List.mem_eraseDups, List.mem_filterMap] at hsetup
    obtain ⟨operand, hoperand, hsetup⟩ := hsetup
    exact isStatement_of_setup (hrule.operands operand hoperand) hsetup
  have hhead : IsHeader s!"if actions == {block.actionsTuple}:" := by
    have hif : Flush "if actions == " := by decide
    exact (hif.append _).isHeader (by decide)
  unfold Block.lines
  cases block.guard with
  | none => exact .block hhead (List.cons_ne_nil _ _) (hadd 2)
  | some g =>
    have hguard : IsHeader s!"if {renderGuard g}:" := by
      have hif : Flush "if " := by decide
      exact (hif.append _).isHeader (by decide)
    refine .block hhead (List.append_ne_nil_of_right_ne_nil _ (List.cons_ne_nil _ _)) ?_
    exact (Suite.statements hsetup).append (.block hguard (List.cons_ne_nil _ _) (hadd 3))

end Facility

namespace Imitation

/-- What follows the calls of a clause. -/
theorem suite_returnLines {depth : Nat} {intentionArgs : Option String}
    (h : ∀ args, intentionArgs = some args → IsStatement args) :
    Suite depth (returnLines depth intentionArgs) := by
  cases intentionArgs with
  | none => exact .statement (by decide)
  | some args =>
    have hassign : IsStatement ("__all_intention_args = " ++ args) :=
      Flush.isStatement (by decide) (h args rfl)
    have hloop : Suite (depth + 1) [⟨depth + 1, "for __arg in __action:"⟩,
        ⟨depth + 2, "__all_args.append(__arg)"⟩] :=
      .block (by decide) (List.cons_ne_nil _ _) (.statement (by decide))
    have hcheck : Suite depth [⟨depth, "if set(__all_intention_args).issubset(set(__all_args)):"⟩,
        ⟨depth + 1, "return __ret_val"⟩] :=
      .block (by decide +kernel) (List.cons_ne_nil _ _) (.statement (by decide))
    refine .simple (by decide) (.compound (by decide) (List.cons_ne_nil _ _) hloop ?_)
    exact .simple hassign (.simple (by decide +kernel) (.simple (by decide +kernel) hcheck))

theorem suite_bodyLines (clause : Clause) {depth : Nat} {intentionArgs : Option String}
    (h : ∀ args, intentionArgs = some args → IsStatement args) :
    Suite depth (clause.bodyLines depth intentionArgs) := by
  have hreturn : IsStatement
      ("__ret_val = [" ++ ",".intercalate (clause.calls.map Call.render) ++ "]") := by
    have hopen : Flush "__ret_val = [" := by decide
    exact (hopen.append _).isStatement (by decide)
  exact .simple hreturn (suite_returnLines h)

theorem Clause.lines_ne_nil (clause : Clause) (intentionArgs : Option String) :
    clause.lines intentionArgs ≠ [] := by
  refine List.append_ne_nil_of_right_ne_nil _ ?_
  cases clause.guard with
  | absent | satisfied | test => exact List.cons_ne_nil _ _

/-- The lines of a clause are a suite in the body of a function. -/
theorem suite_clauseLines (clause : Clause) {intentionArgs : Option String}
    (h : ∀ args, intentionArgs = some args → IsStatement args) :
    Suite 1 (clause.lines intentionArgs) := by
  have hlisted : ∀ typeName ∈ clause.listed, IsStatement (listStatement typeName) := by
    intro typeName _
    have hopen : Flush (Script.membersName typeName) := Flush.append (by decide) _
    have hclose : IsStatement s!"=={Script.quote typeName}]" :=
      Flush.isStatement (Flush.append (by decide) _) (by decide)
    unfold listStatement
    refine Flush.isStatement ?_ hclose
    exact ((((((hopen.append _).append _).append _).append _).append _).append _).append _
  refine (Suite.statements hlisted).append ?_
  have hbody : ∀ d, clause.bodyLines d intentionArgs ≠ [] := fun _ => List.cons_ne_nil _ _
  cases clause.guard with
  | absent => exact suite_bodyLines clause h
  | satisfied => exact .block (by decide) (hbody 2) (suite_bodyLines clause h)
  | test formula =>
    have hif : Flush "if " := by decide
    exact .block ((hif.append _).isHeader (by decide)) (hbody 2) (suite_bodyLines clause h)

/-- The lines inside of a method are a suite in the body of a function. -/
theorem suite_inside {name : String} {rules : List Rule} {method : Method}
    (hrules : ∀ rule ∈ rules, rule.WellFormed) (h : Method.ofRules name rules = .ok method) :
    Suite 1 method.inside := by
  obtain ⟨rfl, hsignature, -⟩ := eq_of_ofRules h
  have hcompared : ∀ args, method.comparedArgs = some args → IsStatement args := by
    intro args hargs
    unfold Method.comparedArgs at hargs
    split at hargs
    · obtain rfl := Option.some.inj hargs
      exact Flush.isStatement (Flush.append (by decide) _) (by decide)
    · cases hargs
  have hclauses : Suite 1 (method.clauses.flatMap (·.lines method.comparedArgs)) :=
    .flatMap fun clause _ => suite_clauseLines clause hcompared
  refine .append ?_ hclauses
  split
  · rename_i star hstar
    have hmem : star ∈ method.signature.fixed ++ method.signature.star.toList := by
      rw [hstar]
      exact List.mem_append_right _ (List.mem_singleton_self star)
    obtain ⟨name, hname, rfl⟩ := isName_of_param hrules hsignature star hmem
    exact .statement (((hname.flush_identifier.append _).append _).isStatement (by decide))
  · exact .nil

theorem isHeader_head (method : Method) : IsHeader method.head := by
  have hdef : Flush "def " := by decide
  exact (((hdef.append _).append _).append _).isHeader (by decide)

theorem isStatement_declaration (method : Method) : IsStatement method.declaration := by
  have hopen : Flush "pyhop.declare_methods(" := by decide +kernel
  exact (((hopen.append _).append _).append _).isStatement (by decide)

/-- The lines of a method are a suite in a script. -/
theorem suite_lines {name : String} {rules : List Rule} {method : Method} (hne : rules ≠ [])
    (hrules : ∀ rule ∈ rules, rule.WellFormed) (h : Method.ofRules name rules = .ok method) :
    Suite 0 method.lines := by
  -- there is a clause for each rule, so the function has a body
  have hsome : method.inside ≠ [] := by
    obtain ⟨rule, hrule⟩ := List.exists_mem_of_ne_nil rules hne
    obtain ⟨-, -, hclauses⟩ := eq_of_ofRules h
    obtain ⟨clause, hclause, -⟩ := exists_of_forall₂ hclauses hrule
    refine List.append_ne_nil_of_right_ne_nil _ fun hnil => ?_
    exact clause.lines_ne_nil _ (List.flatMap_eq_nil_iff.mp hnil clause hclause)
  rw [Method.lines_eq]
  exact .compound (isHeader_head method) hsome (suite_inside hrules h)
    (.statement (isStatement_declaration method))

end Imitation

/-! ## Scripts -/

section Scripts

variable {program : Program}

/-- The body of the function that collects causes is made of blocks, one for each rule. -/
theorem Facility.blockText_of_ofProgram {domain : Domain} (hprogram : program.WellFormed)
    (hcodes : ∀ rule ∈ program.rules, ∀ code ∈ rule.codes, Over (· ≠ '\n') code)
    (h : Domain.ofProgram program = .ok domain) :
    ∃ parts, List.Forall₂ (fun rule part => ∃ n, Domain.ofProgram ⟨[rule]⟩ =
        .ok ⟨linesText part, n⟩) program.rules parts ∧ BlockText 4 parts domain.causes := by
  obtain ⟨blocks, hblocks, h⟩ := bind_eq_ok.mp h
  obtain rfl := pure_eq_ok.mp h
  have hrules := mapM_eq_ok_iff.mp hblocks
  refine ⟨(blocks.map Block.lines).map (List.map Line.raw), ?_, ?_⟩
  · rw [List.map_map, List.forall₂_map_right_iff]
    refine hrules.imp fun rule block hof => ⟨rule.effects.length, ?_⟩
    have hsingle : Facility.ofProgram ⟨[rule]⟩ = .ok [block] :=
      mapM_eq_ok_iff.mpr (.cons hof .nil)
    refine bind_eq_ok.mpr ⟨_, hsingle, pure_eq_ok.mpr ?_⟩
    rw [List.flatMap_singleton, Line.renderAll_eq_linesText, Program.maxEffects, List.foldl_cons,
      List.foldl_nil, Nat.zero_max]
    rfl
  · have hfrom : ∀ block ∈ blocks, ∃ rule ∈ program.rules, Block.ofRule rule = .ok block :=
      fun block hblock => exists_of_forall₂ hrules.flip hblock
    show BlockText (4 * 1) _ (Line.renderAll (blocks.flatMap Block.lines))
    rw [List.flatMap_def]
    refine Suite.blockText ?_ ?_ ?_
    · rw [List.forall_mem_map]
      intro block hblock
      obtain ⟨rule, hrule, hof⟩ := hfrom block hblock
      exact suite_lines (hprogram.rules rule hrule) hof
    · rw [List.forall_mem_map]
      exact fun _ _ => List.cons_ne_nil _ _
    · rw [List.forall_mem_map]
      intro block hblock
      obtain ⟨rule, hrule, hof⟩ := hfrom block hblock
      exact over_lines (fun _ hc => hc.2) (hprogram.rules rule hrule) (hcodes rule hrule) hof

/-- A method is made of the rules of its intention, and there is one at least. -/
theorem Imitation.exists_rules_of_mem {methods : List Method} (hprogram : program.WellFormed)
    (h : ofProgram program = .ok methods) {method : Method} (hmethod : method ∈ methods) :
    ∃ first rest, rulesOf program.rules method.name = first :: rest ∧ IsName method.name ∧
      (∀ rule ∈ first :: rest, rule ∈ program.rules) ∧
      Method.ofRules method.name (first :: rest) = .ok method := by
  obtain ⟨name, hname, hof⟩ := exists_of_forall₂ (ofRules_of_ofProgram h).flip hmethod
  obtain ⟨rfl, -, -⟩ := eq_of_ofRules hof
  obtain ⟨first, rest, hrules, hfirst⟩ := exists_rulesOf_eq_cons hname
  have hsubset : ∀ rule ∈ first :: rest, rule ∈ program.rules := by
    rw [← hrules]
    exact fun _ => mem_of_mem_rulesOf
  refine ⟨first, rest, hrules, ?_, hsubset, hrules ▸ hof⟩
  rw [← hfirst]
  exact (hprogram.rules first (hsubset first List.mem_cons_self)).intention.name

/-- The methods are made of blocks, one for each intention. -/
theorem Imitation.blockText_of_methodsText {text : String} (hprogram : program.WellFormed)
    (hcodes : ∀ rule ∈ program.rules, ∀ code ∈ rule.codes, Over (· ≠ '\n') code)
    (h : methodsText program = .ok text) :
    ∃ parts, List.Forall₂ (fun name part => methodsText ⟨rulesOf program.rules name⟩ =
        .ok (linesText part)) (intentionNames program.rules) parts ∧ BlockText 0 parts text := by
  obtain ⟨methods, hmethods, rfl⟩ := methodsText_eq_ok.mp h
  have hnames := ofRules_of_ofProgram hmethods
  have htext : Method.text = fun method => linesText (method.lines.map Line.raw) :=
    funext fun method => Line.renderAll_eq_linesText method.lines
  refine ⟨(methods.map Method.lines).map (List.map Line.raw), ?_, ?_⟩
  · have halone := (forall₂_methodsText fun _ hname => hname).mpr
      ⟨methods, mapM_eq_ok_iff.mpr hnames, rfl⟩
    rw [htext, List.forall₂_map_right_iff] at halone
    rw [List.map_map, List.forall₂_map_right_iff]
    exact halone
  · show BlockText (4 * 0) _ _
    have hjoin : String.join (methods.map Method.text) =
        Line.renderAll (methods.flatMap Method.lines) :=
      (Line.renderAll_flatMap Method.lines methods).symm
    rw [hjoin, List.flatMap_def]
    refine Suite.blockText ?_ ?_ ?_
    · rw [List.forall_mem_map]
      intro method hmethod
      obtain ⟨first, rest, -, -, hsubset, hof⟩ := exists_rules_of_mem hprogram hmethods hmethod
      exact suite_lines (List.cons_ne_nil first rest)
        (fun rule hrule => hprogram.rules rule (hsubset rule hrule)) hof
    · rw [List.forall_mem_map]
      intro method _
      rw [Method.lines_eq]
      exact List.cons_ne_nil _ _
    · rw [List.forall_mem_map]
      intro method hmethod
      obtain ⟨_, _, -, hname, hsubset, hof⟩ := exists_rules_of_mem hprogram hmethods hmethod
      exact over_lines (fun _ hc => hc.2) hname
        (fun rule hrule => hprogram.rules rule (hsubset rule hrule))
        (fun rule hrule => hcodes rule (hsubset rule hrule)) hof

/-- **What is put into the scripts is made of blocks.** When no line ends in the inline code of a
program, the body of the function that collects causes consists of lines that are well nested, with a
part for each rule that begins one level deep; and so do the methods, with a part for each intention
that is not indented. A part is what the rule, or the rules of the intention, give by themselves. -/
theorem scripts_wellNested {limits : Limits} {text : String}
    (hread : Program.read limits text = .ok program)
    (hcodes : ∀ code ∈ program.codes, '\n' ∉ code.toList) :
    (∀ domain, Facility.Domain.ofProgram program = .ok domain → ∃ parts,
      List.Forall₂ (fun rule part => ∃ n, Facility.Domain.ofProgram ⟨[rule]⟩ =
          .ok ⟨linesText part, n⟩) program.rules parts ∧
        BlockText 4 parts domain.causes) ∧
    ∀ methods, Imitation.methodsText program = .ok methods → ∃ parts,
      List.Forall₂ (fun name part => Imitation.methodsText
          ⟨Imitation.rulesOf program.rules name⟩ = .ok (linesText part))
          (Imitation.intentionNames program.rules) parts ∧
        BlockText 0 parts methods := by
  have hprogram := Program.wellFormed_of_read hread
  have hover : ∀ rule ∈ program.rules, ∀ code ∈ rule.codes, Over (· ≠ '\n') code := by
    intro rule hrule code hcode c hc heq
    exact hcodes code (List.mem_flatMap.mpr ⟨rule, hrule, hcode⟩) (heq ▸ hc)
  exact ⟨fun _ => Facility.blockText_of_ofProgram hprogram hover,
    fun _ => Imitation.blockText_of_methodsText hprogram hover⟩

/-- A program with two rules of one intention, in which the first rule has a condition with inline
code and a star parameter. -/
def pilingText : String :=
  "RULES \x7b if (PYTHON(#up#)): pile(a, CONT) := put(a, CONT); pile(a) := put(a) \x7d"

/-- Both scripts of it are made of blocks. -/
theorem piling_wellNested : ∃ program domain methods,
    Program.read ⟨200, 1⟩ pilingText = .ok program ∧
    Facility.Domain.ofProgram program = .ok domain ∧
    Imitation.methodsText program = .ok methods ∧
    (∀ code ∈ program.codes, '\n' ∉ code.toList) ∧
    (∃ parts, parts.length = 2 ∧ BlockText 4 parts domain.causes) ∧
    ∃ parts, parts.length = 1 ∧ BlockText 0 parts methods := by
  have hprogram : ((Program.read ⟨200, 1⟩ pilingText).toOption.any fun program =>
      decide ((Facility.Domain.ofProgram program).isOk = true ∧
        (Imitation.methodsText program).isOk = true ∧
        (∀ code ∈ program.codes, '\n' ∉ code.toList) ∧ program.rules.length = 2 ∧
        (Imitation.intentionNames program.rules).length = 1)) = true := by decide +kernel
  obtain ⟨program, hread, hprogram⟩ := exists_of_any_toOption hprogram
  obtain ⟨hdomain, hmethods, hcodes, hrules, hnames⟩ := of_decide_eq_true hprogram
  obtain ⟨domain, hdomain⟩ := exists_of_isOk hdomain
  obtain ⟨methods, hmethods⟩ := exists_of_isOk hmethods
  obtain ⟨hcauses, htext⟩ := scripts_wellNested hread hcodes
  obtain ⟨parts, hparts, hblocks⟩ := hcauses domain hdomain
  obtain ⟨parts', hparts', hblocks'⟩ := htext methods hmethods
  exact ⟨program, domain, methods, hread, hdomain, hmethods, hcodes,
    ⟨parts, hparts.length_eq.symm.trans hrules, hblocks⟩,
    parts', hparts'.length_eq.symm.trans hnames, hblocks'⟩

end Scripts

end CausalRules
