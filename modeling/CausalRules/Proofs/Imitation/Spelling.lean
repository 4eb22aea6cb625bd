import CausalRules.Imitation.Text
import CausalRules.Proofs.Imitation.Guards
import CausalRules.Proofs.Imitation.Names
import CausalRules.Proofs.Spelling

/-!
# What imitation methods are spelled with

Inline code is copied into tests and calls. All else in a method is plain. What a variable stands for
never holds inline code, because only names and constants are bound; this is kept by every step that
a scope takes.

- `Scope.Plain`: what a scope binds, and the checks that it has, are plain.
- `plain_ofRule`, `Plain.of_learns`, `Plain.of_scope`: the scope of an intention is so, and remains
  so.
- `over_of_test`, `over_of_formula`, `over_of_call`: the parts of a clause.
- `over_lines`: the lines of a method have the characters of the inline code of its rules, and plain
  ones.
-/

namespace CausalRules.Imitation

open Script (Line IsPlain over_identifier over_membersName)

/-! ## Bindings -/

theorem over_element {sequence : String} {index : Nat} :
    Over IsPlain (Binding.element sequence index).render ↔ Over IsPlain sequence := by
  have hindex : Over IsPlain (toString index) := over_toString (fun _ => isPlain_of_isDigit) index
  have hsigns : Over IsPlain "[" ∧ Over IsPlain "]" := by decide
  have hsequence : toString sequence = sequence := rfl
  simp only [Binding.render, over_append, hsequence]
  constructor
  · exact fun h => h.1.1.1
  · exact fun h => ⟨⟨⟨h, hsigns.1⟩, hindex⟩, hsigns.2⟩

theorem plain_same {element known : Binding} (helement : Over IsPlain element.render)
    (hknown : Over IsPlain known.render) : Over IsPlain (Check.same element known).render := by
  have hsign : Over IsPlain " == " := by decide
  simp only [Check.render, toString, over_append]
  exact ⟨⟨helement, hsign⟩, hknown⟩

/-- The parameters of a signature are plain. -/
structure Signature.Plain (signature : Signature) : Prop where
  fixed : ∀ param ∈ signature.fixed, Over IsPlain param
  star : ∀ star, signature.star = some star → Over IsPlain star

theorem Signature.Plain.binding {signature : Signature} (h : signature.Plain) (index : Nat) :
    Over IsPlain (signature.binding index).render := by
  have hparam : Over IsPlain (signature.fixed.getD index "") := by
    rw [List.getD_eq_getElem?_getD]
    cases hget : signature.fixed[index]? with
    | none => exact List.forall_mem_nil _
    | some param => exact h.fixed param (List.mem_of_getElem? hget)
  unfold Signature.binding
  split
  · rename_i star hstar
    split
    · exact hparam
    · exact over_element.mpr (h.star star hstar)
  · exact hparam

/-- The parameters that well-formed rules agree on are identifiers of names. -/
theorem isName_of_param {rules : List Rule} {signature : Signature}
    (hrules : ∀ rule ∈ rules, rule.WellFormed) (h : Signature.ofRules rules = .ok signature) :
    ∀ param ∈ signature.fixed ++ signature.star.toList,
      ∃ name, IsName name ∧ Script.identifier name = param := by
  cases rules with
  | nil =>
    obtain rfl := Except.ok.inj h
    exact List.forall_mem_nil _
  | cons first rest =>
    obtain ⟨-, params, hstart, hparams⟩ := params_of_ofRules h
    rw [hparams, List.forall_mem_map]
    intro name hname
    -- a parameter is a variable among the arguments of the first rule's intention
    obtain ⟨arg, harg, hvariable⟩ := List.mem_filterMap.mp (hstart.subset hname)
    have hwell := (hrules first List.mem_cons_self).intention.args.each arg harg
    cases hwell with
    | «variable» hisName =>
      obtain rfl := Option.some.inj hvariable
      exact ⟨_, hisName, rfl⟩
    | _ => cases hvariable

/-- The parameters of well-formed rules are plain. -/
theorem plain_of_ofRules {rules : List Rule} {signature : Signature}
    (hrules : ∀ rule ∈ rules, rule.WellFormed) (h : Signature.ofRules rules = .ok signature) :
    signature.Plain := by
  have hall : ∀ param ∈ signature.fixed ++ signature.star.toList, Over IsPlain param := by
    intro param hparam
    obtain ⟨name, hname, rfl⟩ := isName_of_param hrules h param hparam
    exact over_identifier hname.plain (by decide)
  refine ⟨fun param hparam => hall param (List.mem_append_left _ hparam), ?_⟩
  intro star hstar
  refine hall star (List.mem_append_right _ ?_)
  rw [hstar]
  exact List.mem_singleton_self star

namespace Scope

variable {scope after : Scope} {underOr : Bool} {position : Nat}

/-! ## Scopes -/

/-- What a scope binds, and the checks that it has, are plain. -/
structure Plain (scope : Scope) : Prop where
  bindings : ∀ pair ∈ scope.bindings, Over IsPlain pair.2.render
  checks : ∀ pair ∈ scope.residues, ∀ checks, pair.2 = .replace checks →
    ∀ check ∈ checks, Over IsPlain check.render

theorem plain_ofRule {signature : Signature} (h : signature.Plain) (rule : Rule) :
    (ofRule signature rule).Plain := by
  refine ⟨?_, List.forall_mem_nil _⟩
  intro pair hpair
  obtain ⟨⟨name, index⟩, -, rfl⟩ := List.mem_map.mp (List.mem_reverse.mp hpair)
  exact h.binding index

theorem Plain.of_binding? (h : scope.Plain) {name : String} {binding : Binding}
    (hname : scope.binding? name = some binding) : Over IsPlain binding.render :=
  h.bindings (name, binding) (mem_of_lookup hname)

theorem Plain.of_denotes (h : scope.Plain) {arg : Arg} {known : Binding} (harg : arg.WellFormed)
    (hdenotes : scope.Denotes arg known) : Over IsPlain known.render := by
  cases hdenotes with
  | bound hname => exact h.of_binding? hname
  | constant hvalue =>
    exact over_of_constant? (fun _ => isPlain_of_isSpelling) (by decide) harg hvalue

theorem Plain.add (h : scope.Plain) {name : String} {binding : Binding}
    (hbinding : Over IsPlain binding.render) : (scope.add name binding).Plain :=
  ⟨List.forall_mem_cons.mpr ⟨hbinding, h.bindings⟩, h.checks⟩

theorem Plain.settle (h : scope.Plain) {residue : Residue}
    (hresidue : ∀ checks, residue = .replace checks → ∀ check ∈ checks, Over IsPlain check.render) :
    (scope.settle position residue).Plain :=
  ⟨h.bindings, List.forall_mem_cons.mpr ⟨hresidue, h.checks⟩⟩

theorem Plain.list (h : scope.Plain) (typeName : String) : (scope.list typeName).Plain := by
  unfold Scope.list
  split
  · exact h
  · exact ⟨h.bindings, h.checks⟩

/-- Members of a list are bound to elements, and the checks that they leave are plain. -/
theorem Plain.of_bindItems {sequence : String} {index : Nat} {items : List Arg}
    {checks : List Check} (h : scope.Plain) (hsequence : Over IsPlain sequence)
    (hitems : ∀ item ∈ items, item.WellFormed)
    (hbind : (bindItems sequence underOr position index items scope).result =
      .ok (after, checks)) :
    after.Plain ∧ ∀ check ∈ checks, Over IsPlain check.render := by
  induction items generalizing index scope checks with
  | nil =>
    obtain ⟨rfl, rfl⟩ := Prod.mk.inj (pure_eq_ok.mp hbind)
    exact ⟨h, List.forall_mem_nil _⟩
  | cons item rest ih =>
    obtain ⟨hitem, hrest⟩ := List.forall_mem_cons.mp hitems
    have helement : Over IsPlain (Binding.element sequence index).render :=
      over_element.mpr hsequence
    rcases bindItems_cons hbind with
      ⟨name, -, -, -, hothers⟩ | ⟨known, checks', hdenotes, rfl, hothers⟩ | ⟨offset, -, hothers⟩
    · exact ih (h.add helement) hrest hothers
    · obtain ⟨hafter, hchecks⟩ := ih h hrest hothers
      have hknown := h.of_denotes hitem hdenotes
      exact ⟨hafter, List.forall_mem_cons.mpr ⟨plain_same helement hknown, hchecks⟩⟩
    · exact ih h hrest hothers

theorem Plain.of_bindMembers {typeName : String} {items : List Arg} (h : scope.Plain)
    (hname : IsName typeName) (hitems : ∀ item ∈ items, item.WellFormed)
    (hbind : (scope.bindMembers typeName items underOr position).result = .ok after) :
    after.Plain := by
  have hsequence := over_membersName hname.plain
  rw [result_bindMembers] at hbind
  obtain ⟨⟨learned, checks⟩, hbound, hbind⟩ := bind_eq_ok.mp hbind
  obtain rfl := pure_eq_ok.mp hbind
  obtain ⟨hlearned, hchecks⟩ := (h.list typeName).of_bindItems hsequence hitems hbound
  -- an empty list leaves the check that there are no objects
  have hleft : ∀ check ∈ if items.isEmpty = true then
      [Check.noElements (Script.membersName typeName)] else checks, Over IsPlain check.render := by
    split
    · have hsigns : Over IsPlain "len(" ∧ Over IsPlain ") == 0" := by decide
      rw [List.forall_mem_singleton]
      simp only [Check.render, toString, over_append]
      exact ⟨⟨hsigns.1, hsequence⟩, hsigns.2⟩
    · exact hchecks
  refine hlearned.settle ?_
  intro checks' hresidue
  obtain ⟨left, hleft, hresidue⟩ : ∃ left : List Check,
      (∀ check ∈ left, Over IsPlain check.render) ∧
      (if left.isEmpty = true then Residue.drop else .replace left) = .replace checks' :=
    ⟨_, hleft, hresidue⟩
  split at hresidue
  · cases hresidue
  · obtain rfl := Residue.replace.inj hresidue
    exact hleft

/-- Predicates that equate or enumerate well-formed operands. -/
theorem Plain.of_learns {p : Predicate} (h : scope.Plain) (hp : p.WellFormed)
    (hlearns : scope.Learns underOr p after) : after.Plain := by
  have hoperands := hp.operands
  cases hlearns with
  | nothing => exact h
  | @equal name arg known equates denotes =>
    have harg : arg.WellFormed := by
      have hvalue : Operand.WellFormed (.value arg) := by
        refine hoperands _ ?_
        rcases equates with hp | hp
        · rw [hp]
          exact List.mem_cons_of_mem _ (List.mem_singleton_self _)
        · rw [hp]
          exact List.mem_cons_self
      cases hvalue with
      | value harg => exact harg
    refine (h.add (h.of_denotes harg denotes)).settle ?_
    intro checks hdrop
    cases hdrop
  | @members typeName items _ enumerates binds =>
    have hboth : Operand.WellFormed (.all typeName) ∧ Operand.WellFormed (.list items) := by
      rcases enumerates with hp | hp
      · rw [hp] at hoperands
        exact ⟨hoperands _ List.mem_cons_self,
          hoperands _ (List.mem_cons_of_mem _ (List.mem_singleton_self _))⟩
      · rw [hp] at hoperands
        exact ⟨hoperands _ (List.mem_cons_of_mem _ (List.mem_singleton_self _)),
          hoperands _ List.mem_cons_self⟩
    obtain ⟨hall, hlist⟩ := hboth
    cases hall with
    | all hname =>
      cases hlist with
      | list hitems => exact h.of_bindMembers hname hitems.each binds

/-- The scope in which the effects of a rule are written is plain. -/
theorem Plain.of_scope {signature : Signature} {rule : Rule} (hsignature : signature.Plain)
    (hrule : rule.WellFormed) (h : Clause.scope signature rule = .ok scope) : scope.Plain := by
  have hstart := plain_ofRule hsignature rule
  unfold Clause.scope at h
  split at h
  · rw [← Except.ok.inj h]
    exact hstart
  · rename_i c hc
    have hatoms := (hrule.condition c hc).atoms
    exact collect_induction (fun p hp _ _ _ hlearns hs => hs.of_learns (hatoms p hp) hlearns) h
      hstart

/-! ## Terms, tests and calls -/

variable {P : Char → Prop}

theorem over_of_argTerm (hplain : ∀ c, IsPlain c → P c) (hscope : scope.Plain) {arg : Arg}
    {t : Term} (harg : arg.WellFormed) (hcodes : ∀ code ∈ arg.codes, Over P code)
    (h : scope.argTerm position arg = .ok t) : Over P t.render := by
  unfold argTerm at h
  split at h
  · obtain ⟨binding, hbinding, h⟩ := bind_eq_ok.mp h
    obtain rfl := pure_eq_ok.mp h
    exact (hscope.of_binding? (binding?_of_resolve hbinding)).mono hplain
  · obtain rfl := pure_eq_ok.mp h
    exact hcodes _ (List.mem_singleton_self _)
  · cases h
  · cases h
  · split at h
    · rename_i value hvalue
      obtain rfl := pure_eq_ok.mp h
      exact (over_of_constant? (fun _ => isPlain_of_isSpelling) (by decide) harg hvalue).mono hplain
    · cases h

theorem over_of_operandTerm (hplain : ∀ c, IsPlain c → P c) (hscope : scope.Plain)
    {operand : Operand} {t : Term} (hoperand : operand.WellFormed)
    (hcodes : ∀ code ∈ operand.codes, Over P code)
    (h : scope.operandTerm position operand = .ok t) : Over P t.render := by
  cases hoperand with
  | value harg => exact over_of_argTerm hplain hscope harg hcodes h
  | type =>
    obtain ⟨binding, hbinding, h⟩ := bind_eq_ok.mp h
    obtain rfl := pure_eq_ok.mp h
    have hsigns : Over IsPlain "state.objs[" ∧ Over IsPlain "][0]" := by decide
    have hrender := hscope.of_binding? (binding?_of_resolve hbinding)
    refine Over.mono (P := IsPlain) ?_ hplain
    simp only [Term.render, toString, over_append]
    exact ⟨⟨hsigns.1, hrender⟩, hsigns.2⟩
  | all => cases h
  | list => cases h

theorem over_of_test (hplain : ∀ c, IsPlain c → P c) (hscope : scope.Plain) {p : Predicate}
    {t : Test} (hp : p.WellFormed)
    (hcodes : ∀ operand ∈ p.operands, ∀ code ∈ operand.codes, Over P code)
    (h : scope.test p = .ok (some t)) : Over P t.render := by
  unfold test at h
  split at h
  · obtain rfl := Option.some.inj (pure_eq_ok.mp h)
    exact hcodes _ (List.mem_singleton_self _) _ (List.mem_singleton_self _)
  · cases h
  · rename_i left op right position
    split at h
    · cases h
    · rename_i checks hresidue
      obtain rfl := Option.some.inj (pure_eq_ok.mp h)
      have hchecks := hscope.checks (position, .replace checks) (mem_of_lookup hresidue) _ rfl
      exact (over_intercalate (by decide) (List.forall_mem_map.mpr hchecks)).mono hplain
    · split at h
      · cases h
      · obtain ⟨l, hl, h⟩ := bind_eq_ok.mp h
        obtain ⟨r, hr, h⟩ := bind_eq_ok.mp h
        obtain rfl := Option.some.inj (pure_eq_ok.mp h)
        obtain ⟨hleft, hright⟩ := hp
        have hlcodes := hcodes _ (List.mem_cons_self ..)
        have hrcodes := hcodes _ (List.mem_cons_of_mem _ (List.mem_singleton_self _))
        have hspace : Over P " " := Over.mono (P := IsPlain) (by decide) hplain
        simp only [Test.render, toString, over_append]
        exact ⟨⟨⟨⟨over_of_operandTerm hplain hscope hleft hlcodes hl, hspace⟩,
          (over_scriptSign _).mono hplain⟩, hspace⟩,
          over_of_operandTerm hplain hscope hright hrcodes hr⟩

theorem over_of_formula (hplain : ∀ c, IsPlain c → P c) (hscope : scope.Plain) {c : Condition}
    {f : Formula Test} (hc : Condition.WellFormed c)
    (hcodes : ∀ p ∈ c.atoms, ∀ operand ∈ p.operands, ∀ code ∈ operand.codes, Over P code)
    (h : scope.formula c = .ok (some f)) : Over P (renderFormula f) := by
  obtain ⟨hrest, -⟩ := formula_eq_ok h
  obtain ⟨units, hunits, rfl⟩ := Option.map_eq_some_iff.mp hrest.symm
  have hatoms : units.atoms = c.atoms.filterMap scope.unit? := by
    rw [← Formula.atoms_filterMap, ← rest, hunits]
    rfl
  refine Formula.over_render hplain ?_
  rw [Formula.atoms_map, List.forall_mem_map, hatoms]
  intro unit hunit
  obtain ⟨p, hp, hunit⟩ := List.mem_filterMap.mp hunit
  obtain ⟨t, ht, rfl⟩ := test_of_unit? hunit
  exact over_of_test hplain hscope (hc.atoms p hp) (hcodes p hp) ht

theorem plain_of_tailStart (hscope : scope.Plain) {covered : List Arg} {sequence : String}
    {start : Nat} (h : scope.tailStart position covered = .ok (sequence, start)) :
    Over IsPlain sequence := by
  obtain ⟨hne, hcovered⟩ := covered_of_tailStart h
  obtain ⟨arg, rest, rfl⟩ := List.exists_cons_of_ne_nil hne
  obtain ⟨name, -, hbound⟩ := hcovered 0 arg rfl
  exact over_element.mp (hscope.of_binding? hbound)

theorem over_of_argTerms (hplain : ∀ c, IsPlain c → P c) (hscope : scope.Plain) {args : List Arg}
    {terms : List Term} (hargs : ∀ arg ∈ args, arg.WellFormed)
    (hcodes : ∀ arg ∈ args, ∀ code ∈ arg.codes, Over P code)
    (h : args.mapM (scope.argTerm position) = .ok terms) : ∀ t ∈ terms, Over P t.render := by
  intro t ht
  obtain ⟨arg, harg, hterm⟩ := exists_of_forall₂ (mapM_eq_ok_iff.mp h).flip ht
  exact over_of_argTerm hplain hscope (hargs arg harg) (hcodes arg harg) hterm

end Scope

/-- A call has the characters of its arguments, and plain ones. -/
theorem over_render_call {P : Char → Prop} (hplain : ∀ c, IsPlain c → P c) {call : Call}
    (hname : Over IsPlain call.name) (hargs : ∀ t ∈ call.args, Over P t.render)
    (htail : ∀ sequence start, call.tail = some (sequence, start) → Over IsPlain sequence) :
    Over P call.render := by
  have hcomma : Over P "," := Over.mono (P := IsPlain) (by decide) hplain
  have hwritten : Over P
      (s!"({Script.quote call.name}" ++ String.join (call.args.map fun arg => "," ++ arg.render)) := by
    have hopen : Over P "(" := Over.mono (P := IsPlain) (by decide) hplain
    simp only [toString, over_append]
    refine ⟨⟨hopen, (over_quote_of_plain hname).mono hplain⟩, over_join ?_⟩
    rw [List.forall_mem_map]
    exact fun t ht => over_append.mpr ⟨hcomma, hargs t ht⟩
  unfold Call.render
  dsimp only
  split
  · rename_i sequence start htail'
    have hrest : Over IsPlain s!",)+tuple({sequence}[{start}:])" := by
      have hsigns : Over IsPlain ",)+tuple(" ∧ Over IsPlain "[" ∧ Over IsPlain ":])" := by decide
      have hstart : Over IsPlain (toString start) :=
        over_toString (fun _ => isPlain_of_isDigit) start
      have hsequence : toString sequence = sequence := rfl
      simp only [over_append, hsequence]
      exact ⟨⟨⟨⟨hsigns.1, htail _ _ htail'⟩, hsigns.2.1⟩, hstart⟩, hsigns.2.2⟩
    exact over_append.mpr ⟨hwritten, hrest.mono hplain⟩
  · refine over_append.mpr ⟨hwritten, Over.mono (P := IsPlain) ?_ hplain⟩
    split <;> decide

theorem over_of_call {P : Char → Prop} (hplain : ∀ c, IsPlain c → P c) {scope : Scope}
    (hscope : scope.Plain) {effect : Action} {call : Call} (heffect : effect.WellFormed)
    (hcodes : ∀ code ∈ effect.codes, Over P code) (h : scope.call effect = .ok call) :
    Over P call.render := by
  have hcodes' : ∀ arg ∈ effect.args, ∀ code ∈ arg.codes, Over P code :=
    fun arg harg code hcode => hcodes code (mem_argsCodes.mpr ⟨arg, harg, hcode⟩)
  unfold Scope.call at h
  split at h
  · dsimp only at h
    split at h
    · cases h
    · obtain ⟨⟨sequence, start⟩, hstart, h⟩ := bind_eq_ok.mp h
      obtain ⟨terms, hterms, h⟩ := bind_eq_ok.mp h
      obtain rfl := pure_eq_ok.mp h
      -- the arguments that are written are some of those of the effect
      have hsubset : ∀ {arg : Arg} {n : Nat}, arg ∈ effect.args.dropLast.take n →
          arg ∈ effect.args :=
        fun harg => List.dropLast_subset _ (List.mem_of_mem_take harg)
      refine over_render_call hplain heffect.name.plain ?_ ?_
      · exact Scope.over_of_argTerms hplain hscope
          (fun arg harg => heffect.args.each arg (hsubset harg))
          (fun arg harg => hcodes' arg (hsubset harg)) hterms
      · intro sequence' start' heq
        obtain ⟨rfl, rfl⟩ := Prod.mk.inj (Option.some.inj heq)
        exact Scope.plain_of_tailStart hscope hstart
  · obtain ⟨terms, hterms, h⟩ := bind_eq_ok.mp h
    obtain rfl := pure_eq_ok.mp h
    refine over_render_call hplain heffect.name.plain ?_ ?_
    · exact Scope.over_of_argTerms hplain hscope heffect.args.each hcodes' hterms
    · intro sequence start heq
      cases heq

/-! ## Lines -/

namespace Method

variable (method : Method)

/-- The head of the function that a method is. -/
def head : String :=
  s!"def {method.function}(state{method.signature.renderParams}):"

/-- The lines inside of the function. -/
def inside : List Line :=
  (match method.signature.star with
    | some star => [⟨1, s!"{star} = flatten({star})"⟩]
    | none => []) ++ method.clauses.flatMap (·.lines method.comparedArgs)

/-- The statement that declares a method. -/
def declaration : String :=
  s!"pyhop.declare_methods({Script.quote method.name},{method.function})"

theorem lines_eq : method.lines =
    ⟨0, method.head⟩ :: (method.inside ++ [⟨0, method.declaration⟩]) := by
  rw [inside, List.append_assoc, ← List.cons_append, ← List.append_assoc]
  rfl

end Method

theorem plain_listStatement {typeName : String} (h : IsName typeName) :
    Over IsPlain (listStatement typeName) := by
  have hobject : Over IsPlain (Script.identifier typeName ++ "_id") :=
    over_append.mpr ⟨over_identifier h.plain (by decide), by decide⟩
  have hquery : Over IsPlain " in state.objs if state.objs[" := by decide +kernel
  have hsigns : Over IsPlain " = [" ∧ Over IsPlain " for " ∧ Over IsPlain "][0]" ∧
      Over IsPlain "==" ∧ Over IsPlain "]" := by decide
  obtain ⟨hopen, hfor, htype, hequal, hclose⟩ := hsigns
  unfold listStatement
  simp only [toString, over_append]
  rw [over_append] at hobject
  exact ⟨⟨⟨⟨⟨⟨⟨⟨over_membersName h.plain, hopen⟩, hobject⟩, hfor⟩, hobject⟩, hquery⟩, hobject⟩,
    htype⟩, ⟨hequal, over_quote_of_plain h.plain⟩, hclose⟩

namespace Signature

variable {signature : Signature}

theorem Plain.renderParams (h : signature.Plain) : Over IsPlain signature.renderParams := by
  have hcomma : Over IsPlain ", " ∧ Over IsPlain ", *" := by decide
  refine over_append.mpr ⟨over_join (List.forall_mem_map.mpr fun param hparam => ?_), ?_⟩
  · exact over_append.mpr ⟨hcomma.1, h.fixed param hparam⟩
  · split
    · rename_i star hstar
      exact over_append.mpr ⟨hcomma.2, h.star star hstar⟩
    · exact List.forall_mem_nil _

theorem Plain.renderArgs (h : signature.Plain) : Over IsPlain signature.renderArgs := by
  have hsigns : Over IsPlain "[" ∧ Over IsPlain "]" ∧ Over IsPlain "," ∧
      Over IsPlain "[__obj for __obj in " := by decide
  obtain ⟨hopen, hclose, hcomma, hfor⟩ := hsigns
  unfold Signature.renderArgs
  simp only [over_append]
  refine ⟨⟨hopen, over_intercalate hcomma (List.forall_mem_append.mpr ⟨?_, ?_⟩)⟩, hclose⟩
  · rw [List.forall_mem_map]
    intro param hparam
    simp only [toString, over_append]
    exact ⟨⟨hopen, h.fixed param hparam⟩, hclose⟩
  · split
    · rename_i star hstar
      rw [List.forall_mem_singleton]
      simp only [toString, over_append]
      exact ⟨⟨hfor, h.star star hstar⟩, hclose⟩
    · exact List.forall_mem_nil _

end Signature

/-- The lines after the calls are plain. -/
theorem plain_returnLines {depth : Nat} {intentionArgs : Option String}
    (h : ∀ args, intentionArgs = some args → Over IsPlain args) :
    ∀ line ∈ returnLines depth intentionArgs, Over IsPlain line.text := by
  cases intentionArgs with
  | none => exact List.forall_mem_singleton.mpr (show Over IsPlain "return __ret_val" by decide)
  | some args =>
    have hassign : Over IsPlain ("__all_intention_args = " ++ args) :=
      over_append.mpr ⟨by decide, h args rfl⟩
    simp only [returnLines, List.forall_mem_cons]
    refine ⟨?_, ?_, ?_, ?_, hassign, ?_, ?_, ?_, ?_, List.forall_mem_nil _⟩
    all_goals decide +kernel

section Lines

variable {P : Char → Prop} {signature : Signature} {intentionArgs : Option String}

theorem over_bodyLines (hplain : ∀ c, IsPlain c → P c) {clause : Clause} {depth : Nat}
    (hcalls : ∀ call ∈ clause.calls, Over P call.render)
    (hargs : ∀ args, intentionArgs = some args → Over IsPlain args) :
    ∀ line ∈ clause.bodyLines depth intentionArgs, Over P line.text := by
  have hsigns : Over IsPlain "__ret_val = [" ∧ Over IsPlain "," ∧ Over IsPlain "]" := by decide
  refine List.forall_mem_cons.mpr ⟨?_, fun line hline => ?_⟩
  · simp only [over_append]
    exact ⟨⟨hsigns.1.mono hplain, over_intercalate (hsigns.2.1.mono hplain)
      (List.forall_mem_map.mpr hcalls)⟩, hsigns.2.2.mono hplain⟩
  · exact (plain_returnLines hargs line hline).mono hplain

/-- The lines of a clause have the characters of the rule's inline code, and plain ones. -/
theorem over_clauseLines (hplain : ∀ c, IsPlain c → P c) {rule : Rule} {clause : Clause}
    (hsignature : signature.Plain) (hrule : rule.WellFormed)
    (hcodes : ∀ code ∈ rule.codes, Over P code)
    (hargs : ∀ args, intentionArgs = some args → Over IsPlain args)
    (h : Clause.ofRule signature rule = .ok clause) :
    ∀ line ∈ clause.lines intentionArgs, Over P line.text := by
  obtain ⟨scope, hscope, -, hcalls, hnone, hsome⟩ := Clause.eq_of_ofRule h
  have hbound := Scope.Plain.of_scope hsignature hrule hscope
  have hcalls : ∀ call ∈ clause.calls, Over P call.render := by
    intro call hcall
    obtain ⟨effect, heffect, hof⟩ := exists_of_forall₂ (mapM_eq_ok_iff.mp hcalls).flip hcall
    exact over_of_call hplain hbound (hrule.effects effect heffect)
      (fun code hcode => hcodes code (Rule.mem_codes_of_effect heffect hcode)) hof
  have hbody : ∀ depth, ∀ line ∈ clause.bodyLines depth intentionArgs, Over P line.text :=
    fun depth => over_bodyLines hplain hcalls hargs
  have hlisted : ∀ typeName ∈ clause.listed, Over P (listStatement typeName) := by
    intro typeName hmem
    cases hrule.operands _ ((mem_listed_iff h).mp hmem) with
    | all hname => exact (plain_listStatement hname).mono hplain
  refine List.forall_mem_append.mpr ⟨List.forall_mem_map.mpr hlisted, ?_⟩
  cases hc : rule.condition with
  | none =>
    rw [hnone hc]
    exact hbody 1
  | some c =>
    obtain ⟨rest, hrest, hguard⟩ := hsome c hc
    cases rest with
    | none =>
      rw [hguard]
      exact List.forall_mem_cons.mpr ⟨Over.mono (P := IsPlain) (by decide) hplain, hbody 2⟩
    | some f =>
      have htest : Over P (renderFormula f) := by
        refine Scope.over_of_formula hplain hbound (hrule.condition c hc) ?_ hrest
        intro p hp operand hoperand code hcode
        exact hcodes code (Rule.mem_codes_of_operand (Rule.mem_operands hc hp hoperand) hcode)
      have hsigns : Over IsPlain "if " ∧ Over IsPlain ":" := by decide
      rw [hguard]
      refine List.forall_mem_cons.mpr ⟨?_, hbody 2⟩
      simp only [toString, over_append]
      exact ⟨⟨hsigns.1.mono hplain, htest⟩, hsigns.2.mono hplain⟩

/-- **The lines of a method have the characters of the inline code of its rules, and plain ones.** -/
theorem over_lines (hplain : ∀ c, IsPlain c → P c) {name : String} {rules : List Rule}
    {method : Method} (hname : IsName name) (hrules : ∀ rule ∈ rules, rule.WellFormed)
    (hcodes : ∀ rule ∈ rules, ∀ code ∈ rule.codes, Over P code)
    (h : Method.ofRules name rules = .ok method) : ∀ line ∈ method.lines, Over P line.text := by
  obtain ⟨rfl, hsignature, hclauses⟩ := eq_of_ofRules h
  have hparams := plain_of_ofRules hrules hsignature
  have hfunction : Over IsPlain method.function := over_identifier hname.plain (by decide)
  have hcompared : ∀ args, method.comparedArgs = some args → Over IsPlain args := by
    intro args hargs
    unfold Method.comparedArgs at hargs
    split at hargs
    · obtain rfl := Option.some.inj hargs
      exact hparams.renderArgs
    · cases hargs
  have hhead : Over IsPlain method.head := by
    have hsigns : Over IsPlain "def " ∧ Over IsPlain "(state" ∧ Over IsPlain "):" := by decide
    simp only [Method.head, toString, over_append]
    exact ⟨⟨⟨⟨hsigns.1, hfunction⟩, hsigns.2.1⟩, hparams.renderParams⟩, hsigns.2.2⟩
  have hdeclaration : Over IsPlain method.declaration := by
    have hsigns : Over IsPlain "pyhop.declare_methods(" ∧ Over IsPlain "," ∧ Over IsPlain ")" := by
      decide +kernel
    exact over_append.mpr ⟨over_append.mpr ⟨over_append.mpr ⟨over_append.mpr
      ⟨hsigns.1, over_quote_of_plain hname.plain⟩, hsigns.2.1⟩, hfunction⟩, hsigns.2.2⟩
  rw [Method.lines_eq, List.forall_mem_cons, List.forall_mem_append, List.forall_mem_singleton,
    Method.inside, List.forall_mem_append]
  refine ⟨hhead.mono hplain, ⟨?_, ?_⟩, hdeclaration.mono hplain⟩
  · split
    · rename_i star hstar
      have hflatten : Over IsPlain " = flatten(" ∧ Over IsPlain ")" := by decide
      refine List.forall_mem_singleton.mpr (Over.mono (P := IsPlain) ?_ hplain)
      simp only [toString, over_append]
      exact ⟨⟨⟨hparams.star star hstar, hflatten.1⟩, hparams.star star hstar⟩, hflatten.2⟩
    · exact List.forall_mem_nil _
  · intro line hline
    obtain ⟨clause, hclause, hline⟩ := List.mem_flatMap.mp hline
    obtain ⟨rule, hrule, hof⟩ := exists_of_forall₂ hclauses.flip hclause
    exact over_clauseLines hplain hparams (hrules rule hrule) (hcodes rule hrule) hcompared hof
      line hline

end Lines

end CausalRules.Imitation
