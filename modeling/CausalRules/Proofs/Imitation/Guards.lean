import CausalRules.Proofs.Imitation.Checks
import CausalRules.Proofs.Imitation.Methods
import CausalRules.Proofs.Reading.Conditions
import CausalRules.Proofs.Rule

/-!
# Guards of methods mean their conditions

Predicates that bound variables are left out of a guard, or leave checks in their place. What the
scope of a rule keeps about them is kept by their offsets, so it matters that no two predicates of a
condition that was read share one.

- `Scope.unit?`, `Scope.rest`: what is left of a predicate and of a condition, together with where
  it comes from; `formula_eq_ok` says that the guard is made from it.
- `omittedOutsideOr_of_collect`: no predicate inside an `or` is left out.
- `valueOfRest_rest`: what is left has the value of the condition, when the predicates that are left
  out are true.
- `Scope.written`, `Scope.writtenText`: what is left, as it is written: with the checks that replace
  a predicate next to each other and without parentheses around them.
- `guard_reads_iff`: what is written is read as the condition, for the guards of a program that was
  read.
-/

namespace CausalRules.Imitation

namespace Scope

variable {scope after : Scope} {underOr : Bool} {p : Predicate} {c : Condition}

/-! ## What is left of a condition -/

/-- The test for a predicate, with the predicate, unless nothing is left to test. -/
def unit? (scope : Scope) (p : Predicate) : Option (Predicate × Test) :=
  match scope.test p with
  | .ok (some test) => some (p, test)
  | _ => none

/-- What is left of a condition. -/
def rest (scope : Scope) (c : Condition) : Option (Formula (Predicate × Test)) :=
  c.filterMap scope.unit?

/-- The formula of a condition is what is left of it, and each predicate has been looked at. -/
theorem formula_eq_ok {r : Option (Formula Test)} (h : scope.formula c = .ok r) :
    r = (scope.rest c).map (Formula.map Prod.snd) ∧ ∀ p ∈ c.atoms, ∃ t, scope.test p = .ok t := by
  induction c generalizing r with
  | atom p =>
    obtain ⟨t, ht, h⟩ := bind_eq_ok.mp h
    obtain rfl := pure_eq_ok.mp h
    refine ⟨?_, ?_⟩
    · rw [rest, Formula.filterMap, unit?, ht]
      cases t <;> rfl
    · intro q hq
      rw [List.mem_singleton.mp hq]
      exact ⟨t, ht⟩
  | group inner ih =>
    obtain ⟨r, hr, h⟩ := bind_eq_ok.mp h
    obtain rfl := pure_eq_ok.mp h
    obtain ⟨rfl, htests⟩ := ih hr
    refine ⟨?_, htests⟩
    rw [rest, rest, Formula.filterMap]
    cases inner.filterMap scope.unit? <;> rfl
  | chain left op right ihl ihr =>
    obtain ⟨l, hl, h⟩ := bind_eq_ok.mp h
    obtain ⟨r, hr, h⟩ := bind_eq_ok.mp h
    obtain ⟨rfl, hleft⟩ := ihl hl
    obtain ⟨rfl, hright⟩ := ihr hr
    refine ⟨?_, ?_⟩
    · -- each side may have vanished; a connective is left only between two sides that have not
      rw [rest, rest] at h
      rw [rest, Formula.filterMap]
      revert h
      cases left.filterMap scope.unit? with
      | none =>
        cases right.filterMap scope.unit? with
        | none => exact fun h => (pure_eq_ok.mp h).symm
        | some r => exact fun h => (pure_eq_ok.mp h).symm
      | some l =>
        cases right.filterMap scope.unit? with
        | none => exact fun h => (pure_eq_ok.mp h).symm
        | some r => exact fun h => (pure_eq_ok.mp h).symm
    · intro p hp
      rcases List.mem_append.mp hp with hp | hp
      · exact hleft p hp
      · exact hright p hp

theorem unit?_eq_some {t : Test} (h : scope.test p = .ok (some t)) :
    scope.unit? p = some (p, t) := by
  rw [unit?, h]

theorem test_of_unit? {unit : Predicate × Test} (h : scope.unit? p = some unit) :
    ∃ t, scope.test p = .ok (some t) ∧ (p, t) = unit := by
  unfold unit? at h
  split at h
  · rename_i t ht
    exact ⟨t, ht, Option.some.inj h⟩
  · cases h

/-- A predicate that has been looked at is left out when it was dropped. -/
theorem residue?_of_unit? {t : Option Test} (h : scope.test p = .ok t)
    (hunit : scope.unit? p = none) : scope.residue? p.position = some .drop := by
  cases t with
  | some t =>
    rw [unit?_eq_some h] at hunit
    cases hunit
  | none =>
    -- every branch but that of a dropped predicate makes a test
    unfold test at h
    split at h
    · cases h
    · cases h
    · split at h
      · assumption
      · cases h
      · split at h
        · cases h
        · obtain ⟨l, -, h⟩ := bind_eq_ok.mp h
          obtain ⟨r, -, h⟩ := bind_eq_ok.mp h
          cases h

/-- A conjunction stands where checks were left in place of a predicate. -/
theorem residue?_of_conjunction {checks : List Check}
    (h : scope.test p = .ok (some (.conjunction checks))) :
    scope.residue? p.position = some (.replace checks) := by
  unfold test at h
  split at h
  · cases h
  · cases h
  · split at h
    · cases h
    · rename_i found hfound
      cases h
      exact hfound
    · split at h
      · cases h
      · obtain ⟨l, -, h⟩ := bind_eq_ok.mp h
        obtain ⟨r, -, h⟩ := bind_eq_ok.mp h
        cases h

/-! ## Dropped predicates -/

@[simp] theorem residue?_settle (scope : Scope) (position : Nat) (residue : Residue) :
    (scope.settle position residue).residue? position = some residue := by
  rw [residue?, settle, List.lookup_cons, beq_self_eq_true]

theorem residue?_settle_of_ne (scope : Scope) {position other : Nat} (residue : Residue)
    (h : other ≠ position) :
    (scope.settle position residue).residue? other = scope.residue? other := by
  rw [residue?, settle, List.lookup_cons, beq_false_of_ne h]
  rfl

/-- A step says nothing about other offsets. -/
theorem residue?_of_learns (h : scope.Learns underOr p after) {other : Nat}
    (hother : other ≠ p.position) : after.residue? other = scope.residue? other := by
  cases h with
  | nothing => rfl
  | equal => exact residue?_settle_of_ne _ _ hother
  | members _ binds =>
    obtain ⟨learned, checks, residue, hitems, rfl, -⟩ := bindMembers_eq_ok binds
    rw [residue?_settle_of_ne _ _ hother, residue?, (listed_of_bindItems hitems).2, list]
    split
    · rfl
    · rfl

/-- Neither does a condition about offsets outside of it. -/
theorem residue?_of_collect (h : (scope.collect underOr c).result = .ok after) {other : Nat}
    (hother : other ∉ c.atoms.map Predicate.position) :
    after.residue? other = scope.residue? other := by
  -- each step settles the offset of a predicate of the condition, and `other` is none of them
  refine collect_induction (P := fun s => s.residue? other = scope.residue? other) ?_ h rfl
  intro p hp u s t hlearns hs
  rw [residue?_of_learns hlearns, hs]
  rintro rfl
  exact hother (List.mem_map_of_mem hp)

section Chain

variable {left right : Condition} {op : Connective}
  (hnodup : ((Formula.chain left op right).atoms.map Predicate.position).Nodup)

include hnodup

theorem nodup_of_chain :
    (left.atoms.map Predicate.position).Nodup ∧ (right.atoms.map Predicate.position).Nodup := by
  rw [Formula.atoms, List.map_append] at hnodup
  exact ⟨(List.nodup_append.mp hnodup).1, (List.nodup_append.mp hnodup).2.1⟩

/-- What the left part of a chain settled is left as it is by the right part. -/
theorem residue?_of_right (h : (scope.collect underOr right).result = .ok after)
    (hp : p ∈ left.atoms) : after.residue? p.position = scope.residue? p.position := by
  rw [Formula.atoms, List.map_append] at hnodup
  refine residue?_of_collect h fun hmem => ?_
  exact (List.nodup_append.mp hnodup).2.2 _ (List.mem_map_of_mem hp) _ hmem rfl

/-- The left part of a chain settles nothing for the right part. -/
theorem residue?_of_left (h : (scope.collect underOr left).result = .ok after)
    (hp : p ∈ right.atoms) : after.residue? p.position = scope.residue? p.position := by
  rw [Formula.atoms, List.map_append] at hnodup
  refine residue?_of_collect h fun hmem => ?_
  exact (List.nodup_append.mp hnodup).2.2 _ hmem _ (List.mem_map_of_mem hp) rfl

end Chain

/-- The list of a predicate that fits does not begin with a continuation. -/
theorem continuationsFit_of_enumerates {typeName : String} {items : List Arg} (hfits : p.Fits)
    (h : p.Enumerates typeName items) : ContinuationsFit 0 items := by
  rcases h with h | h
  · rw [h] at hfits
    exact hfits.2
  · rw [h] at hfits
    exact hfits.1

/-- Inside an `or` no predicate is dropped. -/
theorem not_dropped_of_learns (h : scope.Learns true p after) (hfits : p.Fits)
    (hnew : scope.residue? p.position ≠ some .drop) :
    after.residue? p.position ≠ some .drop := by
  cases h with
  | nothing => exact hnew
  | equal _ _ _ outside => cases outside
  | @members typeName items _ enumerates binds =>
    obtain ⟨learned, checks, residue, hitems, rfl, hdrop⟩ := bindMembers_eq_ok binds
    rw [residue?_settle]
    intro heq
    obtain ⟨hne, rfl⟩ := hdrop (Option.some.inj heq)
    have hfit := continuationsFit_of_enumerates hfits enumerates
    cases items with
    | nil => exact hne rfl
    | cons item rest =>
      -- all items would be continuations, but the first one has nothing to reach back to
      obtain ⟨offset, rfl⟩ := continuation_of_bindItems hitems item (List.mem_cons_self ..)
      obtain ⟨-, hpos, hle⟩ := hfit
      omega

/-- **No predicate inside an `or` is left out of a guard.** -/
theorem omittedOutsideOr_of_collect (h : (scope.collect underOr c).result = .ok after)
    (hfits : ∀ p ∈ c.atoms, p.Fits) (hnodup : (c.atoms.map Predicate.position).Nodup)
    (hnew : ∀ p ∈ c.atoms, scope.residue? p.position ≠ some .drop) :
    c.OmittedOutsideOr (fun p => after.residue? p.position = some .drop) underOr := by
  induction c generalizing scope after underOr with
  | atom p =>
    have hp := List.mem_singleton_self p
    intro hdrop
    cases underOr with
    | false => rfl
    | true =>
      exact (not_dropped_of_learns (learns_of_bindPredicate h) (hfits p hp) (hnew p hp) hdrop).elim
  | group inner ih => exact ih h hfits hnodup hnew
  | chain left op right ihl ihr =>
    -- both sides are collected under an `or` when the chain holds one from here on
    obtain ⟨mid, hl, hr⟩ := Trail.bind_eq_ok.mp h
    obtain ⟨hnodupl, hnodupr⟩ := nodup_of_chain hnodup
    refine ⟨?_, ?_⟩
    · -- what the left part dropped is not taken back by the right part
      refine (ihl hl (fun p hp => hfits p (List.mem_append_left _ hp)) hnodupl
        fun p hp => hnew p (List.mem_append_left _ hp)).mono fun p hp hdrop => ?_
      rw [← residue?_of_right hnodup hr hp]
      exact hdrop
    · refine ihr hr (fun p hp => hfits p (List.mem_append_right _ hp)) hnodupr fun p hp => ?_
      rw [residue?_of_left hnodup hl hp]
      exact hnew p (List.mem_append_right _ hp)

/-- The same for a condition that was read, from a scope in which nothing is settled yet. -/
theorem omittedOutsideOr_of_wellRead (h : (scope.collect false c).result = .ok after)
    (hstart : scope.residues = []) (hread : c.WellRead) :
    c.OmittedOutsideOr (fun p => after.residue? p.position = some .drop) false := by
  refine omittedOutsideOr_of_collect h hread.fits hread.nodup fun p _ => ?_
  rw [residue?, hstart]
  exact nofun

/-! ## The value of what is left -/

/-- What is left of a condition has its value, when dropped predicates are true and the tests that
are left have the values of their predicates. -/
theorem valueOfRest_rest {value : Predicate → Bool} {holds : Predicate × Test → Bool}
    (hcollect : (scope.collect false c).result = .ok after) (hstart : scope.residues = [])
    (hread : c.WellRead) {r : Option (Formula Test)} (hformula : after.formula c = .ok r)
    (hdropped : ∀ p ∈ c.atoms, after.residue? p.position = some .drop → value p = true)
    (hkept : ∀ p ∈ c.atoms, ∀ t, after.test p = .ok (some t) → holds (p, t) = value p) :
    Formula.valueOfRest holds (after.rest c) = c.value value := by
  obtain ⟨-, htests⟩ := formula_eq_ok hformula
  have hdrop : ∀ p ∈ c.atoms, after.unit? p = none → after.residue? p.position = some .drop := by
    intro p hp hunit
    obtain ⟨t, ht⟩ := htests p hp
    exact residue?_of_unit? ht hunit
  -- only dropped predicates are left out, and these stand outside of every `or`
  refine Formula.valueOfRest_filterMap ?_ (fun p hp hunit => hdropped p hp (hdrop p hp hunit)) ?_
  · exact (omittedOutsideOr_of_wellRead hcollect hstart hread).mono hdrop
  · intro p hp unit hunit
    obtain ⟨t, ht⟩ := htests p hp
    cases t with
    | none =>
      rw [unit?, ht] at hunit
      cases hunit
    | some t =>
      rw [unit?_eq_some ht] at hunit
      rw [← Option.some.inj hunit]
      exact hkept p hp t ht

/-- Truth values for predicates agree with what became of them: those that were dropped are true,
and those that left checks are true when all the checks hold. -/
structure Respects (scope : Scope) (value : Predicate → Bool) (holds : List Check → Bool)
    (c : Condition) : Prop where
  dropped : ∀ p ∈ c.atoms, scope.residue? p.position = some .drop → value p = true
  replaced : ∀ p ∈ c.atoms, ∀ checks, scope.residue? p.position = some (.replace checks) →
    value p = holds checks

/-- The truth value of what is left of a predicate. -/
def unitValue (value : Predicate → Bool) (holds : List Check → Bool) : Predicate × Test → Bool
  | (_, .conjunction checks) => holds checks
  | (p, _) => value p

theorem unitValue_of_test {value : Predicate → Bool} {holds : List Check → Bool}
    (h : scope.Respects value holds c) (hp : p ∈ c.atoms) {t : Test}
    (ht : scope.test p = .ok (some t)) : unitValue value holds (p, t) = value p := by
  cases t with
  | conjunction checks => exact (h.replaced p hp checks (residue?_of_conjunction ht)).symm
  | python | compare => rfl

/-- What is left of a condition as it is written, with each check on its own. -/
def written (scope : Scope) (c : Condition) : Option (Formula (Predicate × Test)) :=
  (scope.rest c).map (Formula.spread taggedParts)

/-- The text of what is left: that of its symbols, one after the other. -/
def writtenText (scope : Scope) (c : Condition) : String :=
  match scope.written c with
  | some f => String.join (f.symbols.map (Symbol.text taggedText Connective.scriptWord))
  | none => "True"

/-- What is written is read as what is left. -/
theorem readsRest_written {value : Predicate → Bool} {holds : Check → Bool} {b : Bool} :
    Formula.ReadsRest (unitValue value (·.all holds)) (scope.written c) b ↔
      Formula.ReadsRest (unitValue value (·.all holds)) (scope.rest c) b := by
  unfold written
  cases scope.rest c with
  | none => exact Iff.rfl
  | some units =>
    refine reads_parts_iff fun p check rest => ?_
    show (check :: rest).all holds = (check :: rest).all fun check => [check].all holds
    exact congrArg (check :: rest).all (funext fun check => (Bool.and_true _).symm)

/-- The text stands in the line that tests the guard. -/
theorem mem_lines_writtenText {clause : Clause}
    (h : clause.guard = .ofRest ((scope.rest c).map (Formula.map Prod.snd)))
    (compared : Option String) :
    ⟨1, s!"if {scope.writtenText c}:"⟩ ∈ clause.lines compared := by
  unfold Clause.lines writtenText written
  refine List.mem_append_right _ ?_
  rw [h]
  cases scope.rest c with
  | none => exact List.mem_cons_self ..
  | some units =>
    refine List.mem_cons.mpr (.inl ?_)
    simp only [Option.map_some, renderFormula_eq_join]

end Scope

/-! ## Guards -/

/-- The rules of a program are those of its methods. -/
theorem exists_method_of_rule {program : Program} {methods : List Method}
    (h : ofProgram program = .ok methods) {rule : Rule} (hrule : rule ∈ program.rules) :
    ∃ method ∈ methods, method.name = rule.intention.name ∧
      ∃ clause ∈ method.clauses, Clause.ofRule method.signature rule = .ok clause := by
  have hname : rule.intention.name ∈ intentionNames program.rules :=
    List.mem_eraseDups.mpr (List.mem_map_of_mem hrule)
  obtain ⟨method, hmethod, hof⟩ := exists_of_forall₂ (ofRules_of_ofProgram h) hname
  obtain ⟨hmethodName, -, hclauses⟩ := eq_of_ofRules hof
  have hmem : rule ∈ rulesOf program.rules rule.intention.name :=
    List.mem_filter.mpr ⟨hrule, decide_eq_true rfl⟩
  exact ⟨method, hmethod, hmethodName, exists_of_forall₂ hclauses hmem⟩

/-- **Leaving predicates out of a guard does not change its meaning.** For a program that was read,
the grammar reads the guard of a rule, of which each test is taken as one unit, as it reads the
condition of the rule, whatever truth values the predicates have that agree with what became of
them. The same holds of the guard as it is written, where the checks that replace a predicate stand
next to each other, for all truth values of the single checks. -/
theorem guard_reads_iff {limits : Limits} {text : String} {program : Program}
    (hread : Program.read limits text = .ok program) {methods : List Method}
    (h : ofProgram program = .ok methods) {rule : Rule} (hrule : rule ∈ program.rules)
    {c : Condition} (hc : rule.condition = some c) :
    ∃ method ∈ methods, ∃ clause ∈ method.clauses, ∃ scope, method.name = rule.intention.name ∧
      Clause.ofRule method.signature rule = .ok clause ∧
      Clause.scope method.signature rule = .ok scope ∧
      clause.guard = .ofRest ((scope.rest c).map (Formula.map Prod.snd)) ∧
      (∀ value holds, scope.Respects value holds c → ∀ b,
        Formula.ReadsRest (Scope.unitValue value holds) (scope.rest c) b ↔
          Reads value .disjunction c.symbols b) ∧
      ⟨1, s!"if {scope.writtenText c}:"⟩ ∈ clause.lines method.comparedArgs ∧
      ∀ value (holds : Check → Bool), scope.Respects value (·.all holds) c → ∀ b,
        Formula.ReadsRest (Scope.unitValue value (·.all holds)) (scope.written c) b ↔
          Reads value .disjunction c.symbols b := by
  obtain ⟨method, hmethod, hname, clause, hclause, hof⟩ := exists_method_of_rule h hrule
  obtain ⟨scope, hscope, -, -, -, hguard⟩ := Clause.eq_of_ofRule hof
  obtain ⟨r, hformula, hrest⟩ := hguard c hc
  have hguard : clause.guard = .ofRest ((scope.rest c).map (Formula.map Prod.snd)) := by
    rw [hrest, (Scope.formula_eq_ok hformula).1]
  have hcollect : ((Scope.ofRule method.signature rule).collect false c).result = .ok scope := by
    rw [Clause.scope, hc] at hscope
    exact hscope
  have hreads : ∀ value holds, scope.Respects value holds c → ∀ b,
      Formula.ReadsRest (Scope.unitValue value holds) (scope.rest c) b ↔
        Reads value .disjunction c.symbols b := by
    intro value holds hrespects b
    rw [Formula.readsRest_iff, Formula.reads_symbols_iff,
      Scope.valueOfRest_rest hcollect rfl (Program.wellRead_of_read hread hrule hc) hformula
        hrespects.dropped fun p hp t ht => Scope.unitValue_of_test hrespects hp ht]
  refine ⟨method, hmethod, clause, hclause, scope, hname, hof, hscope, hguard, hreads, ?_, ?_⟩
  · exact Scope.mem_lines_writtenText hguard _
  · intro value holds hrespects b
    rw [Scope.readsRest_written]
    exact hreads value _ hrespects b

/-- A red thing is put into a box. -/
def packingText : String :=
  "RULES \x7b if (c = 'red' && (TYPE(b) = 'box' || x = c)): " ++
    "pack(b, x) := take(x, c), put(b, x) \x7d"

/-- The condition of `packingText`, of which the first predicate binds a variable. -/
def packingCondition : Condition :=
  .chain (.atom (.compare (.value (.variable "c")) .equal (.value (.literal "red")) 12)) .and
    (.group (.chain (.atom (.compare (.type "b") .equal (.value (.literal "box")) 26)) .or
      (.atom (.compare (.value (.variable "x")) .equal (.value (.variable "c")) 45))))

/-- The rule of `packingText`. -/
def packing : Rule where
  condition := some packingCondition
  intention := ⟨"pack", [.variable "b", .variable "x"], 54⟩
  effects := [⟨"take", [.variable "x", .variable "c"], 68⟩,
    ⟨"put", [.variable "b", .variable "x"], 80⟩]
  position := 8

theorem read_packingText : Program.read ⟨100, 1⟩ packingText = .ok ⟨[packing]⟩ := by
  decide +kernel

/-- The guard of the method for packing is false when the box is none and the thing is not red. -/
theorem packing_guard_reads :
    ∃ methods method clause scope, ofProgram ⟨[packing]⟩ = .ok methods ∧ method ∈ methods ∧
      clause ∈ method.clauses ∧ Clause.scope method.signature packing = .ok scope ∧
      clause.guard = .ofRest ((scope.rest packingCondition).map (Formula.map Prod.snd)) ∧
      Formula.ReadsRest (Scope.unitValue (fun p => p.position = 12) fun _ => true)
        (scope.rest packingCondition) false := by
  obtain ⟨clauses, hof⟩ : ∃ clauses, ofProgram ⟨[packing]⟩ =
      .ok [⟨"pack", ⟨["b", "x"], none⟩, clauses⟩] := ⟨_, rfl⟩
  obtain ⟨method, hmethod, clause, hclause, scope, -, -, hscope, hguard, hreads, -⟩ :=
    guard_reads_iff read_packingText hof (List.mem_singleton_self packing) rfl
  have hresidues : scope.residues = [(12, .drop)] := by
    rw [List.mem_singleton.mp hmethod] at hscope
    rw [← Except.ok.inj hscope]
    rfl
  have hrespects : scope.Respects (fun p => p.position = 12) (fun _ => true) packingCondition := by
    have hsettled : ∀ {position residue}, scope.residue? position = some residue →
        position = 12 ∧ residue = .drop := by
      intro position residue h
      rw [Scope.residue?, hresidues] at h
      exact Prod.mk.inj (List.mem_singleton.mp (mem_of_lookup h))
    refine ⟨?_, ?_⟩
    · intro p _ hdrop
      exact decide_eq_true (hsettled hdrop).1
    · intro p _ checks hreplace
      cases (hsettled hreplace).2
  refine ⟨_, method, clause, scope, hof, hmethod, hclause, hscope, hguard, ?_⟩
  exact (hreads _ _ hrespects false).mpr (Formula.reads_symbols_iff.mpr rfl)

end CausalRules.Imitation
