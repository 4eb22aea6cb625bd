import Mathlib.Data.List.Dedup
import CausalRules.Imitation.Text
import CausalRules.Proofs.Imitation.Guards
import CausalRules.Proofs.Rule
import CausalRules.Proofs.Script.Names

/-!
# Names inside a method

A method binds `state`, its parameters, and one variable for each type whose objects it lists. The
variables of an intention are checked to be different as they are written, and nothing is checked
after they have become identifiers.

- `mem_listed_iff`: the types that a clause lists are those that its rule names with `ALL`.
- `params_of_ofRules`: the parameters are the identifiers of different variables of the first rule.
- `Method.boundNames`: the names that a method binds.
- `boundNames_nodup_iff`: exactly when two of them are the same. `state` is never one of the others.
- `clashing_params`: a method with one name for two parameters.
-/

namespace CausalRules

open Script (identifier membersName underscored SharesIdentifier)

namespace Imitation

/-! ## Types that are listed -/

namespace Scope

variable {scope after : Scope} {underOr : Bool} {p : Predicate} {t : String}

theorem mem_listed_list {typeName : String} :
    t ∈ (scope.list typeName).listed ↔ t ∈ scope.listed ∨ t = typeName := by
  unfold list
  split
  · rename_i hmem
    constructor
    · exact .inl
    · rintro (h | rfl)
      · exact h
      · exact hmem
  · simp

theorem mem_listed_of_bindMembers {typeName : String} {items : List Arg} {position : Nat}
    (h : (scope.bindMembers typeName items underOr position).result = .ok after) :
    t ∈ after.listed ↔ t ∈ scope.listed ∨ t = typeName := by
  obtain ⟨learned, checks, residue, hitems, rfl, -⟩ := bindMembers_eq_ok h
  show t ∈ learned.listed ↔ _
  rw [(listed_of_bindItems hitems).1, mem_listed_list]

/-- A comparison with all objects of a type binds the members of a list. -/
theorem bindMembers_of_all {left right : Operand} {op : Comparison} {position : Nat}
    (h : (scope.bindPredicate underOr (.compare left op right position)).result = .ok after)
    (ht : .all t ∈ (Predicate.compare left op right position).operands) :
    ∃ items, (scope.bindMembers t items underOr position).result = .ok after := by
  have equal : ∀ {typeName : String} {items : List Arg},
      (if op = .equal then scope.bindMembers typeName items underOr position
        else .still (unsupported .allOperator position)).result = .ok after →
      (scope.bindMembers typeName items underOr position).result = .ok after := by
    intro typeName items h
    split at h
    · exact h
    · cases h
  cases left with
  | all typeName =>
    cases right with
    | list items =>
      obtain rfl : t = typeName := by simpa [Predicate.operands] using ht
      exact ⟨items, equal h⟩
    | value | all | type => cases h
  | list items =>
    cases right with
    | all typeName =>
      obtain rfl : t = typeName := by simpa [Predicate.operands] using ht
      exact ⟨items, equal h⟩
    | value | type | list => simp [Predicate.operands] at ht
  | value | type =>
    cases right with
    | all => simp [bindPredicate, unsupported] at h
    | value | type | list => simp [Predicate.operands] at ht

/-- A predicate that has a test lists the types of which it names all objects, and no other. -/
theorem mem_listed_of_bindPredicate (h : (scope.bindPredicate underOr p).result = .ok after)
    {last : Scope} {test : Option Test} (htest : last.test p = .ok test) :
    t ∈ after.listed ↔ t ∈ scope.listed ∨ Operand.all t ∈ p.operands := by
  constructor
  · intro ht
    cases learns_of_bindPredicate h with
    | nothing => exact .inl ht
    | equal => exact .inl ht
    | members enumerates binds =>
      rcases (mem_listed_of_bindMembers binds).mp ht with ht | rfl
      · exact .inl ht
      · refine .inr ?_
        rcases enumerates with hp | hp
        · rw [hp]
          simp [Predicate.operands]
        · rw [hp]
          simp [Predicate.operands]
  · rintro (ht | ht)
    · exact listed_subset_of_learns (learns_of_bindPredicate h) ht
    · cases p with
      | compare left op right position =>
        obtain ⟨items, hbinds⟩ := bindMembers_of_all h ht
        exact (mem_listed_of_bindMembers hbinds).mpr (.inr rfl)
      | bare operand position =>
        -- `ALL` by itself has no test
        cases operand with
        | all => cases htest
        | value | type | list => simp [Predicate.operands] at ht

theorem mem_listed_of_collect {c : Condition} (h : (scope.collect underOr c).result = .ok after)
    {last : Scope} (htests : ∀ p ∈ c.atoms, ∃ test, last.test p = .ok test) :
    t ∈ after.listed ↔ t ∈ scope.listed ∨ Operand.all t ∈ c.atoms.flatMap Predicate.operands := by
  induction c generalizing scope after underOr with
  | atom p =>
    obtain ⟨test, htest⟩ := htests p (List.mem_singleton_self p)
    rw [mem_listed_of_bindPredicate h htest]
    simp [Formula.atoms]
  | group inner ih => exact ih h htests
  | chain left op right ihl ihr =>
    obtain ⟨mid, hl, hr⟩ := Trail.bind_eq_ok.mp h
    rw [ihr hr fun p hp => htests p (List.mem_append_right _ hp),
      ihl hl fun p hp => htests p (List.mem_append_left _ hp)]
    simp [Formula.atoms, or_assoc]

end Scope

/-- **A clause lists the types that its rule names with `ALL`.** -/
theorem mem_listed_iff {signature : Signature} {rule : Rule} {clause : Clause}
    (h : Clause.ofRule signature rule = .ok clause) {t : String} :
    t ∈ clause.listed ↔ Operand.all t ∈ rule.operands := by
  obtain ⟨scope, hscope, hlisted, -, -, hguard⟩ := Clause.eq_of_ofRule h
  rw [hlisted, Rule.operands]
  unfold Clause.scope at hscope
  cases hc : rule.condition with
  | none =>
    rw [hc] at hscope
    rw [← Except.ok.inj hscope]
    simp [Scope.ofRule]
  | some c =>
    obtain ⟨rest, hformula, -⟩ := hguard c hc
    rw [hc] at hscope
    rw [Scope.mem_listed_of_collect hscope (Scope.formula_eq_ok hformula).2]
    simp [Scope.ofRule]

/-! ## Parameters -/

/-- No name is seen twice exactly when all are different, also from those seen before. -/
theorem firstRepeat?_eq_none_iff {seen names : List String} :
    firstRepeat? seen names = none ↔ names.Nodup ∧ ∀ name ∈ names, name ∉ seen := by
  fun_induction firstRepeat? seen names with
  | case1 => simp
  | case2 seen name rest hname =>
    constructor
    · intro h
      cases h
    · rintro ⟨-, hseen⟩
      exact absurd hname (hseen name List.mem_cons_self)
  | case3 seen name rest hname ih =>
    -- to differ from the first name is to differ from one more that was seen
    rw [ih, List.nodup_cons, List.forall_mem_cons]
    simp only [List.mem_cons, not_or]
    constructor
    · rintro ⟨hrest, hseen⟩
      exact ⟨⟨fun hmem => (hseen name hmem).1 rfl, hrest⟩, hname, fun other h => (hseen other h).2⟩
    · rintro ⟨⟨hmem, hrest⟩, -, hseen⟩
      exact ⟨hrest, fun other h => ⟨fun heq => hmem (heq ▸ h), hseen other h⟩⟩

theorem nodup_of_paramsOf {rule : Rule} {params : Params} (h : paramsOf rule = .ok params) :
    rule.variables.Nodup := by
  rw [← names_of_paramsOf h]
  unfold paramsOf at h
  split at h
  · cases h
  · split at h
    · cases h
    · rename_i hnone
      rw [← Except.ok.inj h]
      exact (firstRepeat?_eq_none_iff.mp hnone).1

/-- The parameters of a method are the identifiers of the first variables of its first rule. -/
theorem params_of_ofRules {first : Rule} {rest : List Rule} {signature : Signature}
    (h : Signature.ofRules (first :: rest) = .ok signature) :
    first.variables.Nodup ∧ ∃ params, params <+: first.variables ∧
      signature.fixed ++ signature.star.toList = params.map identifier := by
  obtain ⟨start, -, h⟩ := bind_eq_ok.mp h
  obtain ⟨names, hnames, h⟩ := bind_eq_ok.mp h
  obtain ⟨params, hparams, rfl⟩ := map_eq_ok.mp hnames
  refine ⟨nodup_of_paramsOf hparams, ?_⟩
  rw [names_of_paramsOf hparams] at h
  cases start with
  | none =>
    obtain ⟨u, -, h⟩ := bind_eq_ok.mp h
    obtain rfl := pure_eq_ok.mp h
    exact ⟨first.variables, List.prefix_rfl, List.append_nil _⟩
  | some k =>
    obtain ⟨u, -, h⟩ := bind_eq_ok.mp h
    obtain rfl := pure_eq_ok.mp h
    refine ⟨first.variables.take (k + 1), List.take_prefix _ _, ?_⟩
    -- the star parameter is the one after the fixed ones
    rw [List.take_add_one, List.map_append]
    cases first.variables[k]? <;> rfl

/-! ## Names -/

namespace Method

/-- The types whose objects a method lists, each once. -/
def listedTypes (method : Method) : List String :=
  (method.clauses.flatMap Clause.listed).dedup

/-- The names that a method binds. -/
def boundNames (method : Method) : List String :=
  "state" :: (method.signature.fixed ++ method.signature.star.toList ++
    method.listedTypes.map membersName)

end Method

/-- A name and its identifiers: parameters and variables for objects are all different when no two
names share what they become. -/
theorem nodup_names_iff {params types : List String} :
    ("state" :: (params.map identifier ++ types.map membersName)).Nodup ↔
      params.Pairwise (fun p q => ¬ SharesIdentifier p q) ∧
      types.Pairwise (fun s t => ¬ SharesIdentifier s t) ∧
      ∀ p ∈ params, ∀ t ∈ types, underscored p ≠ membersName t := by
  -- `state` is reserved, so it is neither an identifier nor a variable for objects
  have hreserved : "state" ∈ Script.reservedNames := by decide
  have hstate : "state" ∉ params.map identifier ++ types.map membersName := by
    intro h
    rcases List.mem_append.mp h with h | h
    · obtain ⟨p, -, hp⟩ := List.mem_map.mp h
      exact Script.identifier_not_reserved p (hp ▸ hreserved)
    · obtain ⟨t, -, ht⟩ := List.mem_map.mp h
      exact Script.membersName_not_reserved t (ht ▸ hreserved)
  have hparams : (params.map identifier).Nodup ↔
      params.Pairwise (fun p q => ¬ SharesIdentifier p q) := by
    simp only [List.Nodup, List.pairwise_map, ne_eq, Script.identifier_eq_iff]
  have htypes : (types.map membersName).Nodup ↔
      types.Pairwise (fun s t => ¬ SharesIdentifier s t) := by
    simp only [List.Nodup, List.pairwise_map, ne_eq, Script.membersName_inj]
  rw [List.nodup_cons, and_iff_right hstate, List.nodup_append, hparams, htypes]
  simp only [List.forall_mem_map, ne_eq, Script.identifier_eq_membersName_iff]

/-- **When the names that a method binds are different.** They come from variables of its first
rule, which are different, and from the types that its rules name with `ALL`. They are different
exactly when no two variables and no two types share an identifier, and no variable is spelled like
the variable for the objects of a type. -/
theorem boundNames_nodup_iff {program : Program} {methods : List Method}
    (h : ofProgram program = .ok methods) {method : Method} (hmethod : method ∈ methods) :
    ∃ (first : Rule) (rest : List Rule) (params types : List String),
      rulesOf program.rules method.name = first :: rest ∧
      params <+: first.variables ∧ params.Nodup ∧ types.Nodup ∧
      (∀ t, t ∈ types ↔ ∃ rule ∈ first :: rest, .all t ∈ rule.operands) ∧
      method.boundNames = "state" :: (params.map identifier ++ types.map membersName) ∧
      (method.boundNames.Nodup ↔
        params.Pairwise (fun p q => ¬ SharesIdentifier p q) ∧
        types.Pairwise (fun s t => ¬ SharesIdentifier s t) ∧
        ∀ p ∈ params, ∀ t ∈ types, underscored p ≠ membersName t) := by
  obtain ⟨name, hname, hof⟩ := exists_of_forall₂ (ofRules_of_ofProgram h).flip hmethod
  obtain ⟨rfl, hsignature, hclauses⟩ := eq_of_ofRules hof
  have hlisted : ∀ t, t ∈ method.listedTypes ↔
      ∃ rule ∈ rulesOf program.rules method.name, Operand.all t ∈ rule.operands := by
    intro t
    rw [Method.listedTypes, List.mem_dedup, List.mem_flatMap]
    constructor
    · rintro ⟨clause, hclause, ht⟩
      obtain ⟨rule, hrule, hofRule⟩ := exists_of_forall₂ hclauses.flip hclause
      exact ⟨rule, hrule, (mem_listed_iff hofRule).mp ht⟩
    · rintro ⟨rule, hrule, ht⟩
      obtain ⟨clause, hclause, hofRule⟩ := exists_of_forall₂ hclauses hrule
      exact ⟨clause, hclause, (mem_listed_iff hofRule).mpr ht⟩
  cases hrules : rulesOf program.rules method.name with
  | nil =>
    -- an intention is one of some rule
    obtain ⟨rule, hrule, hintention⟩ := List.mem_map.mp (List.mem_eraseDups.mp hname)
    have hmem : rule ∈ rulesOf program.rules method.name :=
      List.mem_filter.mpr ⟨hrule, decide_eq_true hintention⟩
    rw [hrules] at hmem
    cases hmem
  | cons first rest =>
    rw [hrules] at hsignature hlisted
    obtain ⟨hnodup, params, hprefix, hparams⟩ := params_of_ofRules hsignature
    have hnames : method.boundNames =
        "state" :: (params.map identifier ++ method.listedTypes.map membersName) := by
      rw [Method.boundNames, hparams]
    refine ⟨first, rest, params, method.listedTypes, rfl, hprefix, hnodup.sublist hprefix.sublist,
      List.nodup_dedup _, hlisted, hnames, ?_⟩
    rw [hnames]
    exact nodup_names_iff

/-- A block is lifted when it and another one are all there is. -/
def gripping : Rule where
  condition := some (.atom (.compare (.all "toy-block") .equal
    (.list [.variable "other", .variable "top-most"]) 12))
  intention := ⟨"lift", [.variable "top-most"], 52⟩
  effects := [⟨"grip", [.variable "top-most", .variable "other"], 70⟩]
  position := 8

/-- The method of `gripping`. -/
def grippingMethod : Method where
  name := "lift"
  signature := ⟨["top_most"], none⟩
  clauses := [{
    listed := ["toy-block"]
    guard := .test (.atom (.conjunction [.same (.element "all_toy_block" 1) (.param "top_most")]))
    calls := [⟨"grip", [.value (.param "top_most"), .value (.element "all_toy_block" 0)], none⟩] }]

theorem ofProgram_gripping : ofProgram ⟨[gripping]⟩ = .ok [grippingMethod] :=
  rfl

/-- The names of this method are different, so its parameters and types do not clash. -/
theorem gripping_names : ∃ params types : List String, params <+: gripping.variables ∧
    grippingMethod.boundNames = "state" :: (params.map identifier ++ types.map membersName) ∧
    grippingMethod.boundNames = ["state", "top_most", "all_toy_block"] ∧
    params.Pairwise (fun p q => ¬ SharesIdentifier p q) ∧
    ∀ p ∈ params, ∀ t ∈ types, underscored p ≠ membersName t := by
  obtain ⟨first, rest, params, types, hrules, hprefix, -, -, -, hnames, hnodup⟩ :=
    boundNames_nodup_iff ofProgram_gripping (List.mem_singleton_self grippingMethod)
  obtain ⟨hparams, -, hmixed⟩ := hnodup.mp (by decide)
  obtain rfl : gripping = first := List.head_eq_of_cons_eq hrules
  exact ⟨params, types, hprefix, hnames, by decide, hparams, hmixed⟩

/-- Two keys are swapped. -/
def swappingText : String :=
  "RULES \x7b swap(old-key, old_key) := turn(old-key, old_key) \x7d"

/-- The rule of `swappingText`. -/
def swapping : Rule where
  condition := none
  intention := ⟨"swap", [.variable "old-key", .variable "old_key"], 8⟩
  effects := [⟨"turn", [.variable "old-key", .variable "old_key"], 34⟩]
  position := 8

/-- The method of `swapping`. -/
def swappingMethod : Method where
  name := "swap"
  signature := ⟨["old_key", "old_key"], none⟩
  clauses := [⟨[], .absent,
    [⟨"turn", [.value (.param "old_key"), .value (.param "old_key")], none⟩]⟩]

/-- One name for two parameters: the head of this function is not legal. -/
theorem clashing_params : Program.read ⟨100, 0⟩ swappingText = .ok ⟨[swapping]⟩ ∧
    ofProgram ⟨[swapping]⟩ = .ok [swappingMethod] ∧
    swappingMethod.lines.head? = some ⟨0, "def swap(state, old_key, old_key):"⟩ ∧
    ¬ swappingMethod.boundNames.Nodup := by
  have hread : Program.read ⟨100, 0⟩ swappingText = .ok ⟨[swapping]⟩ := by
    decide +kernel
  have hhead : swappingMethod.lines.head? =
      some ⟨0, "def swap(state, old_key, old_key):"⟩ := by
    decide
  exact ⟨hread, rfl, hhead, by decide⟩

end Imitation

end CausalRules
