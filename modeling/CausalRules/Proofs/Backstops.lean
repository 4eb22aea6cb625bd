import CausalRules.Facility.Text
import CausalRules.Imitation.Text
import CausalRules.Proofs.Grammar.WellFormed
import CausalRules.Proofs.Imitation.Grouping
import CausalRules.Proofs.Imitation.Parameters
import CausalRules.Proofs.Imitation.Trails
import CausalRules.Proofs.Rule

/-!
# Failures that no text reaches

Programs can be built that no text spells: with a continuation in the middle of its list, say, or
one that reaches back over no argument. The targets refuse some of them with failures of their own.
The reader has refused them before, so for a program that was read these failures are out of reach.

- `Avoids`: a step does not fail in a certain way, with one rule for each composition of steps.
- `Backstop`: the failures that are kept for programs that no text spells.
- `Facility.avoids_domain`, `Imitation.avoids_methodsText`: no well-formed program reaches them.
- `Signature.Supplies`: a method has a parameter for the variable at a place of an intention.
- `backstops_unreached`: the same for every text.
-/

namespace CausalRules

/-! ## Steps that avoid failures -/

/-- A step does not fail in a way that is to be avoided. -/
def Avoids {α ε : Type} (Bad : ε → Prop) (x : Except ε α) : Prop :=
  ∀ e, x = .error e → ¬Bad e

section Avoids

variable {α β ε : Type} {Bad : ε → Prop}

theorem avoids_ok {a : α} : Avoids Bad (.ok a) :=
  nofun

theorem avoids_error {e : ε} (h : ¬Bad e) : Avoids Bad (.error e : Except ε α) := by
  rintro _ ⟨⟩
  exact h

theorem avoids_bind {x : Except ε α} {f : α → Except ε β} (hx : Avoids Bad x)
    (hf : ∀ a, x = .ok a → Avoids Bad (f a)) : Avoids Bad (x >>= f) := by
  cases x with
  | error e => exact avoids_error (hx e rfl)
  | ok a => exact hf a rfl

theorem avoids_map {x : Except ε α} {f : α → β} (hx : Avoids Bad x) : Avoids Bad (f <$> x) := by
  rw [map_eq_pure_bind]
  exact avoids_bind hx fun _ _ => avoids_ok

/-- A traversal avoids what each of its steps avoids. -/
theorem avoids_mapM {f : α → Except ε β} {as : List α} (h : ∀ a ∈ as, Avoids Bad (f a)) :
    Avoids Bad (as.mapM f) := by
  induction as with
  | nil => exact avoids_ok
  | cons a as ih =>
    rw [List.mapM_cons]
    obtain ⟨ha, has⟩ := List.forall_mem_cons.mp h
    exact avoids_bind ha fun _ _ => avoids_bind (ih has) fun _ _ => avoids_ok

end Avoids

/-- The failures of a target that are kept for programs that no text spells. -/
inductive Backstop : Target → EmitError → Prop
  | outsideList (position : Nat) : Backstop .facility (.invalidContinuation .outsideList position)
  | collection (position : Nat) : Backstop .facility (.unsupported .collection .facility position)
  | beforeFirst (position : Nat) : Backstop .imitation (.invalidContinuation .beforeFirst position)
  | notAfterVariable (position : Nat) :
      Backstop .imitation (.invalidContinuation .notAfterVariable position)
  | notLast (position : Nat) : Backstop .imitation (.invalidContinuation .notLast position)
  | constant (target : Target) (position : Nat) :
      Backstop target (.unsupported .constant target position)

/-! ## Lists of arguments -/

section Arguments

variable {args : List Arg}

/-- Before the last argument of a list there is no continuation. -/
theorem ContinuationsPlaced.continuation?_eq_none (h : ContinuationsPlaced args) :
    ∀ arg ∈ args.dropLast, arg.continuation? = none := by
  intro arg harg
  obtain ⟨i, hi⟩ := List.mem_iff_getElem?.mp harg
  rw [List.getElem?_dropLast] at hi
  split at hi
  · rename_i hlt
    cases arg with
    | continuation offset =>
      have hlast := (h i offset hi).1
      omega
    | _ => rfl
  · cases hi

/-- A last argument that is a continuation has the arguments that it reaches back over before it. -/
theorem ContinuationsPlaced.offset_le (h : ContinuationsPlaced args) {offset : Nat}
    (hlast : args.getLast? = some (.continuation offset)) : offset ≤ args.dropLast.length := by
  rw [List.getLast?_eq_getElem?] at hlast
  have hoffset := (h _ _ hlast).2
  rwa [List.length_dropLast]

/-- Without a continuation at its end a list has none. -/
theorem ContinuationsPlaced.continuation?_eq_none_of_getLast? (h : ContinuationsPlaced args)
    (hlast : ∀ offset, args.getLast? ≠ some (.continuation offset)) :
    ∀ arg ∈ args, arg.continuation? = none := by
  intro arg harg
  obtain ⟨i, hi⟩ := List.mem_iff_getElem?.mp harg
  cases arg with
  | continuation offset =>
    refine (hlast offset ?_).elim
    rw [List.getLast?_eq_getElem?, ← (h i offset hi).1, Nat.add_sub_cancel, hi]
  | _ => rfl

end Arguments

/-! ## Blocks -/

namespace Facility

variable {slots : Slots} {position : Nat}

theorem avoids_unsupported {α : Type} {construct : Construct}
    (hcollection : construct ≠ .collection) (hconstant : construct ≠ .constant) :
    Avoids (Backstop .facility) (unsupported construct position : Except _ α) := by
  refine avoids_error fun hbad => ?_
  cases hbad with
  | collection => exact hcollection rfl
  | constant => exact hconstant rfl

theorem avoids_slotOf {name : String} :
    Avoids (Backstop .facility) (slotOf slots position name) := by
  unfold slotOf
  split
  · exact avoids_ok
  · exact avoids_error nofun

theorem avoids_pieces {args : List Arg} :
    Avoids (Backstop .facility) (pieces slots position args) := by
  induction args using pieces.induct with
  | case1 => exact avoids_ok
  | case2 _ _ _ ih =>
    exact avoids_bind avoids_slotOf fun _ _ => avoids_bind ih fun _ _ => avoids_ok
  | case3 _ _ hrest ih =>
    rw [pieces.eq_3 _ _ _ _ hrest]
    exact avoids_bind avoids_slotOf fun _ _ => avoids_bind ih fun _ _ => avoids_ok
  | case4 _ _ ih | case5 _ _ ih => exact avoids_bind ih fun _ _ => avoids_ok
  | case6 => exact avoids_error nofun
  | case7 | case8 => exact avoids_unsupported nofun nofun

/-- What is read as a single value is no continuation. -/
theorem avoids_term {operand : Operand} (h : operand.WellFormed)
    (hall : ∀ typeName, operand ≠ .all typeName) (hlist : ∀ items, operand ≠ .list items) :
    Avoids (Backstop .facility) (term slots position operand) := by
  cases h with
  | @value arg _ hplain =>
    cases arg with
    | «variable» => exact avoids_bind avoids_slotOf fun _ _ => avoids_ok
    | continuation => cases hplain
    | state => exact avoids_unsupported nofun nofun
    | _ => exact avoids_ok
  | @all typeName => exact (hall typeName rfl).elim
  | type => exact avoids_bind avoids_slotOf fun _ _ => avoids_ok
  | @list items => exact (hlist items rfl).elim

theorem avoids_membersTest {op : Comparison} {typeName : String} {items : List Arg} :
    Avoids (Backstop .facility) (membersTest slots position op typeName items) := by
  unfold membersTest
  split
  · exact avoids_bind avoids_pieces fun _ _ => avoids_ok
  · exact avoids_unsupported nofun nofun

theorem avoids_test {test : Predicate} (h : test.WellFormed) :
    Avoids (Backstop .facility) (Facility.test slots test) := by
  fun_cases Facility.test slots test with
  | case1 => exact avoids_ok
  | case2 | case5 | case6 | case7 | case8 => exact avoids_unsupported nofun nofun
  | case3 | case4 => exact avoids_membersTest
  | case9 =>
    rw [if_pos ‹_›]
    exact avoids_unsupported nofun nofun
  | case10 left op right position _ hleft hleft' hright hright' =>
    rw [if_neg ‹_›]
    exact avoids_bind (avoids_term h.1 hleft hleft') fun _ _ =>
      avoids_bind (avoids_term h.2 hright hright') fun _ _ => avoids_ok

theorem avoids_guard {c : Condition} (h : Condition.WellFormed c) :
    Avoids (Backstop .facility) (guard slots c) := by
  induction h with
  | atom htest => exact avoids_map (avoids_test htest)
  | group _ ih => exact avoids_map ih
  | chain op _ _ _ ihl ihr => exact avoids_bind ihl fun _ _ => avoids_bind ihr fun _ _ => avoids_ok

theorem avoids_ofRule {rule : Rule} (h : rule.WellFormed) :
    Avoids (Backstop .facility) (Block.ofRule rule) := by
  refine avoids_bind avoids_pieces fun _ _ => avoids_bind ?_ fun _ _ => avoids_ok
  cases hcondition : rule.condition with
  | none => exact avoids_ok
  | some c => exact avoids_map (avoids_guard (h.condition c hcondition))

theorem avoids_domain {program : Program} (h : program.WellFormed) :
    Avoids (Backstop .facility) (Domain.ofProgram program) :=
  avoids_bind (avoids_mapM fun rule hrule => avoids_ofRule (h.rules rule hrule))
    fun _ _ => avoids_ok

end Facility

/-! ## Methods -/

namespace Imitation

variable {scope : Scope} {position : Nat}

theorem avoids_unsupported {α : Type} {construct : Construct} (h : construct ≠ .constant) :
    Avoids (Backstop .imitation) (unsupported construct position : Except _ α) := by
  refine avoids_error fun hbad => ?_
  cases hbad
  exact h rfl

/-! ### What a condition binds -/

section Binding

variable {α β : Type} {underOr : Bool}

theorem avoids_andThen {Bad : EmitError → Prop} {first : Trail α} {next : α → Trail β}
    (hfirst : Avoids Bad first.result) (hnext : ∀ a, Avoids Bad (next a).result) :
    Avoids Bad (first >>= next).result := by
  rw [Trail.result_bind]
  exact avoids_bind hfirst fun a _ => hnext a

theorem avoids_bindVariable {name : String} {binding : Binding} :
    Avoids (Backstop .imitation) (scope.bind name binding underOr position).result := by
  unfold Scope.bind
  split
  · exact avoids_error nofun
  · exact avoids_ok

theorem avoids_bindAndDrop {name : String} {binding : Binding} :
    Avoids (Backstop .imitation) (scope.bindAndDrop name binding underOr position).result :=
  avoids_andThen avoids_bindVariable fun _ => avoids_ok

theorem avoids_bindItems {sequence : String} {index : Nat} {items : List Arg} :
    Avoids (Backstop .imitation)
      (Scope.bindItems sequence underOr position index items scope).result := by
  fun_induction Scope.bindItems sequence underOr position index items scope with
  | case1 => exact avoids_ok
  | case3 _ _ _ _ _ ih => exact avoids_andThen avoids_bindVariable ih
  | case2 | case4 | case5 => exact avoids_map ‹_›
  | case6 => assumption
  | case7 | case8 => exact avoids_unsupported nofun

theorem avoids_bindMembers {typeName : String} {items : List Arg} :
    Avoids (Backstop .imitation) (scope.bindMembers typeName items underOr position).result :=
  avoids_andThen avoids_ok fun _ => avoids_andThen avoids_bindItems fun _ => avoids_ok

theorem avoids_bindEqual {a b : String} :
    Avoids (Backstop .imitation) (scope.bindEqual a b underOr position).result := by
  unfold Scope.bindEqual
  split
  · exact avoids_ok
  · exact avoids_bindAndDrop
  · exact avoids_bindAndDrop
  · exact avoids_error nofun

theorem avoids_bindConstant {name : String} {arg : Arg} :
    Avoids (Backstop .imitation) (scope.bindConstant name arg underOr position).result := by
  unfold Scope.bindConstant
  split
  · exact avoids_bindAndDrop
  · exact avoids_ok

theorem avoids_bindPredicate {test : Predicate} :
    Avoids (Backstop .imitation) (scope.bindPredicate underOr test).result := by
  fun_cases Scope.bindPredicate scope underOr test with
  | case1 | case9 | case11 | case13 | case14 => exact avoids_ok
  | case2 | case4 => exact avoids_bindMembers
  | case3 | case5 | case6 | case7 => exact avoids_unsupported nofun
  | case8 => exact avoids_bindEqual
  | case10 | case12 => exact avoids_bindConstant

theorem avoids_collect {c : Condition} :
    Avoids (Backstop .imitation) (scope.collect underOr c).result := by
  induction c generalizing scope underOr with
  | atom => exact avoids_bindPredicate
  | group _ ih => exact ih
  | chain _ _ _ ihl ihr => exact avoids_andThen ihl fun _ => ihr

end Binding

/-! ### What is left of a condition -/

theorem avoids_resolve {name : String} :
    Avoids (Backstop .imitation) (scope.resolve position name) := by
  unfold Scope.resolve
  split
  · exact avoids_ok
  · exact avoids_error nofun

theorem avoids_argTerm {arg : Arg} (h : arg.continuation? = none) :
    Avoids (Backstop .imitation) (scope.argTerm position arg) := by
  cases arg with
  | «variable» => exact avoids_bind avoids_resolve fun _ _ => avoids_ok
  | continuation => cases h
  | state => exact avoids_unsupported nofun
  | _ => exact avoids_ok

theorem avoids_operandTerm {operand : Operand} (h : operand.WellFormed) :
    Avoids (Backstop .imitation) (scope.operandTerm position operand) := by
  cases h with
  | value _ hplain => exact avoids_argTerm hplain
  | type => exact avoids_bind avoids_resolve fun _ _ => avoids_ok
  | all | list => exact avoids_unsupported nofun

theorem avoids_test {test : Predicate} (h : test.WellFormed) :
    Avoids (Backstop .imitation) (scope.test test) := by
  fun_cases Scope.test scope test with
  | case1 | case3 | case4 => exact avoids_ok
  | case2 | case5 => exact avoids_unsupported nofun
  | case6 =>
    exact avoids_bind (avoids_operandTerm h.1) fun _ _ =>
      avoids_bind (avoids_operandTerm h.2) fun _ _ => avoids_ok

theorem avoids_formula {c : Condition} (h : Condition.WellFormed c) :
    Avoids (Backstop .imitation) (scope.formula c) := by
  induction h with
  | atom htest => exact avoids_bind (avoids_test htest) fun _ _ => avoids_ok
  | group _ ih => exact avoids_bind ih fun _ _ => avoids_ok
  | chain op _ _ _ ihl ihr =>
    refine avoids_bind ihl fun left _ => avoids_bind ihr fun right _ => ?_
    cases left <;> cases right <;> exact avoids_ok

/-! ### Calls -/

theorem avoids_tailElement {arg : Arg} :
    Avoids (Backstop .imitation) (scope.tailElement position arg) := by
  unfold Scope.tailElement
  split
  · refine avoids_bind avoids_resolve fun binding _ => ?_
    cases binding with
    | element => exact avoids_ok
    | _ => exact avoids_error nofun
  · exact avoids_error nofun

/-- A continuation that reaches back over some argument follows a variable, or it is refused for
another reason. -/
theorem avoids_tailStart {covered : List Arg} (h : covered ≠ []) :
    Avoids (Backstop .imitation) (scope.tailStart position covered) := by
  refine avoids_bind (avoids_mapM fun _ _ => avoids_tailElement) fun elements helements => ?_
  have hlength := (mapM_eq_ok_iff.mp helements).length_eq
  cases elements with
  | nil => exact (h (List.length_eq_zero_iff.mp hlength)).elim
  | cons first rest =>
    dsimp only
    split
    · exact avoids_ok
    · exact avoids_error nofun

theorem avoids_call {effect : Action} (h : effect.WellFormed) :
    Avoids (Backstop .imitation) (scope.call effect) := by
  have hplain := h.args.placed.continuation?_eq_none
  unfold Scope.call
  dsimp only
  split
  · -- the reader has seen that the continuation reaches back over some argument, and not too far
    rename_i offset hlast
    have hoffset := h.args.placed.offset_le hlast
    have hpositive : 1 ≤ offset := by
      cases h.args.each _ (List.mem_of_getLast? hlast) with
      | continuation hlow _ => exact hlow
    rw [if_neg (Nat.not_lt.mpr hoffset)]
    have hcovered : effect.args.dropLast.drop (effect.args.dropLast.length - offset) ≠ [] := by
      rw [Ne, List.drop_eq_nil_iff]
      omega
    refine avoids_bind (avoids_tailStart hcovered) fun _ _ => ?_
    refine avoids_bind (avoids_mapM fun arg harg => ?_) fun _ _ => avoids_ok
    exact avoids_argTerm (hplain arg (List.mem_of_mem_take harg))
  · rename_i hlast
    refine avoids_bind (avoids_mapM fun arg harg => ?_) fun _ _ => avoids_ok
    exact avoids_argTerm (h.args.placed.continuation?_eq_none_of_getLast? hlast arg harg)

/-! ### Parameters -/

theorem avoids_paramsOf {rule : Rule} : Avoids (Backstop .imitation) (paramsOf rule) := by
  unfold paramsOf
  split
  · exact avoids_error nofun
  · split
    · exact avoids_error nofun
    · exact avoids_ok

theorem avoids_commonStart {rules : List Rule} {earlier : Option Nat} :
    Avoids (Backstop .imitation) (commonStart earlier rules) := by
  induction rules generalizing earlier with
  | nil => exact avoids_ok
  | cons rule rules ih =>
    refine avoids_bind avoids_paramsOf fun params _ => ?_
    split
    · exact ih
    · exact ih
    · split
      · exact ih
      · exact avoids_error nofun

theorem avoids_checkCounts {rules : List Rule} {fits : Nat → Bool} {reason : Nat → Disagreement} :
    Avoids (Backstop .imitation) (checkCounts fits reason rules) := by
  induction rules with
  | nil => exact avoids_ok
  | cons rule rules ih =>
    refine avoids_bind avoids_paramsOf fun params _ => ?_
    split
    · exact ih
    · exact avoids_error nofun

theorem avoids_signature {rules : List Rule} :
    Avoids (Backstop .imitation) (Signature.ofRules rules) := by
  refine avoids_bind avoids_commonStart fun start _ => ?_
  cases rules with
  | nil =>
    refine avoids_bind avoids_ok fun names _ => ?_
    cases start <;> exact avoids_bind avoids_checkCounts fun _ _ => avoids_ok
  | cons first rest =>
    -- the names are those of the first rule, whatever the others have
    refine avoids_bind (avoids_map avoids_paramsOf) fun names _ => ?_
    cases start <;> exact avoids_bind avoids_checkCounts fun _ _ => avoids_ok

/-! ### Whole methods -/

theorem avoids_clause {signature : Signature} {rule : Rule} (h : rule.WellFormed) :
    Avoids (Backstop .imitation) (Clause.ofRule signature rule) := by
  have hcalls (scope : Scope) : Avoids (Backstop .imitation) (rule.effects.mapM scope.call) :=
    avoids_mapM fun effect heffect => avoids_call (h.effects effect heffect)
  unfold Clause.ofRule
  dsimp only
  cases hcondition : rule.condition with
  | none => exact avoids_bind (hcalls _) fun _ _ => avoids_ok
  | some c =>
    refine avoids_bind avoids_collect fun scope _ => ?_
    refine avoids_bind (avoids_formula (h.condition c hcondition)) fun formula _ => ?_
    cases formula <;>
      exact avoids_bind avoids_ok fun _ _ => avoids_bind (hcalls scope) fun _ _ => avoids_ok

theorem avoids_method {name : String} {rules : List Rule} (h : ∀ rule ∈ rules, rule.WellFormed) :
    Avoids (Backstop .imitation) (Method.ofRules name rules) := by
  refine avoids_bind avoids_signature fun signature _ => ?_
  exact avoids_bind (avoids_mapM fun rule hrule => avoids_clause (h rule hrule))
    fun _ _ => avoids_ok

theorem avoids_checkFunctions {seen names : List String} :
    Avoids (Backstop .imitation) (checkFunctions seen names) := by
  induction names generalizing seen with
  | nil => exact avoids_ok
  | cons name names ih =>
    unfold checkFunctions
    split
    · exact avoids_error nofun
    · exact ih

theorem avoids_methodsText {program : Program} (h : program.WellFormed) :
    Avoids (Backstop .imitation) (methodsText program) := by
  refine avoids_bind ?_ fun _ _ => avoids_ok
  rw [ofProgram_eq]
  refine avoids_bind avoids_checkFunctions fun _ _ => avoids_mapM fun name _ => ?_
  exact avoids_method fun rule hrule => h.rules rule (List.mem_filter.mp hrule).1

/-! ### Where parameters begin and end -/

/-- Among the parameters of a rule there are those that its continuation reaches back over. -/
theorem offset_le_of_ofArgs? {args : List Arg} {params : Params} {offset : Nat} (before : Nat)
    (h : Params.ofArgs? args = some params) (hoffset : params.continuation = some offset)
    (hplaced : ∀ i offset, args[i]? = some (.continuation offset) →
      i + 1 = args.length ∧ offset ≤ before + i) :
    offset ≤ before + params.names.length := by
  -- `before` counts the arguments that were passed, which a continuation may reach back over too
  fun_induction Params.ofArgs? args generalizing params before with
  | case1 =>
    obtain rfl := Option.some.inj h
    cases hoffset
  | case2 name rest ih =>
    obtain ⟨params', hrest, h⟩ := Option.bind_eq_some_iff.mp h
    obtain rfl := Option.some.inj h
    have hle := ih (before + 1) hrest hoffset fun i offset hi => by
      obtain ⟨hlast, hle⟩ := hplaced (i + 1) offset hi
      exact ⟨Nat.succ.inj hlast, by omega⟩
    rw [List.length_cons]
    omega
  | case3 offset' rest ih =>
    obtain ⟨hlast, hle⟩ := hplaced 0 offset' rfl
    -- the continuation is the last argument, so it is the one that counts
    obtain rfl : rest = [] := List.length_eq_zero_iff.mp (Nat.succ.inj hlast).symm
    obtain rfl := Option.some.inj h
    obtain rfl := Option.some.inj hoffset
    exact hle
  | case4 => cases h

/-- The variable at a place of an intention stands for a parameter of the method, or for an element
of its star parameter. -/
def Signature.Supplies (signature : Signature) (index : Nat) : Prop :=
  (∃ name, signature.fixed[index]? = some name ∧ signature.binding index = .param name) ∨
    ∃ star, signature.star = some star ∧ signature.fixed.length ≤ index ∧
      signature.binding index = .element star (index - signature.fixed.length)

theorem supplies_of_accepts {signature : Signature} {count index : Nat}
    (h : signature.Accepts count) (hindex : index < count) : signature.Supplies index := by
  have hparam (hlt : index < signature.fixed.length) :
      signature.fixed[index]? = some (signature.fixed.getD index "") := by
    rw [List.getD_eq_getElem?_getD, List.getElem?_eq_getElem hlt]
    rfl
  unfold Signature.Accepts at h
  unfold Signature.Supplies Signature.binding
  cases hstar : signature.star with
  | none =>
    rw [hstar] at h
    exact .inl ⟨_, hparam (h ▸ hindex), rfl⟩
  | some star =>
    by_cases hlt : index < signature.fixed.length
    · exact .inl ⟨_, hparam hlt, if_pos hlt⟩
    · exact .inr ⟨star, rfl, Nat.not_lt.mp hlt, if_neg hlt⟩

end Imitation

open Imitation (Signature paramsOf groupsOf)

/-- **What guards against programs that no text spells is out of reach of a text.** For a program
that was read, neither target fails in a way that is kept for other programs. Where the continuation
of a rule begins is found by a subtraction that stays above zero, and every variable of an intention
stands for a parameter that its method has. -/
theorem backstops_unreached {limits : Limits} {text : String} {program : Program}
    (h : Program.read limits text = .ok program) :
    (∀ e, Facility.Domain.ofProgram program = .error e → ¬Backstop .facility e) ∧
    (∀ e, Imitation.methodsText program = .error e → ¬Backstop .imitation e) ∧
    (∀ rule ∈ program.rules, ∀ params offset, paramsOf rule = .ok params →
      params.continuation = some offset → offset ≤ params.names.length) ∧
    ∀ groups, groupsOf program.rules = .ok groups → ∀ group ∈ groups, ∀ signature,
      Signature.ofRules group.rules = .ok signature → ∀ rule ∈ group.rules,
        ∀ index < rule.variables.length, signature.Supplies index := by
  have hwell := Program.wellFormed_of_read h
  refine ⟨Facility.avoids_domain hwell, Imitation.avoids_methodsText hwell, ?_, ?_⟩
  · intro rule hrule params offset hparams hoffset
    have hplaced := (hwell.rules rule hrule).intention.args.placed
    have hle := Imitation.offset_le_of_ofArgs? 0 (Imitation.ofArgs?_of_paramsOf hparams) hoffset
      fun i offset hi => by
        rw [Nat.zero_add]
        exact hplaced i offset hi
    rwa [Nat.zero_add] at hle
  · intro groups _ group _ signature hsignature rule hrule index hindex
    exact Imitation.supplies_of_accepts (Imitation.accepts_of_ofRules hsignature rule hrule) hindex

/-- A rule with continuations and with a condition that neither target can express. -/
def givingText : String := "RULES\x7bif(STATE(x)=y):give(y,x,CONT):=take(x,y)\x7d"

/-- The rule. -/
def giving : Rule where
  condition := some (.atom (.compare (.value (.state [.variable "x"])) .equal
    (.value (.variable "y")) 9))
  intention := ⟨"give", [.variable "y", .variable "x", .continuation 1], 21⟩
  effects := [⟨"take", [.variable "x", .variable "y"], 37⟩]
  position := 6

/-- Both targets refuse the rule, for its condition. Its continuation begins at the second
parameter, which is the star parameter of the method. -/
theorem giving_unreached : ∃ program rule,
    Program.read ⟨60, 1⟩ givingText = .ok program ∧ program.rules = [rule] ∧
    (Facility.Domain.ofProgram program = .error (.unsupported .stateInCondition .facility 9) ∧
      ¬Backstop .facility (.unsupported .stateInCondition .facility 9)) ∧
    (Imitation.methodsText program = .error (.unsupported .stateArgument .imitation 9) ∧
      ¬Backstop .imitation (.unsupported .stateArgument .imitation 9)) ∧
    (paramsOf rule = .ok ⟨["y", "x"], some 1⟩ ∧ 1 ≤ ["y", "x"].length) ∧
    Signature.ofRules [rule] = .ok ⟨["y"], some "x"⟩ ∧
      Signature.Supplies ⟨["y"], some "x"⟩ 0 ∧ Signature.Supplies ⟨["y"], some "x"⟩ 1 := by
  have hread : Program.read ⟨60, 1⟩ givingText = .ok ⟨[giving]⟩ := by decide +kernel
  have hfacility : Facility.Domain.ofProgram ⟨[giving]⟩ =
      .error (.unsupported .stateInCondition .facility 9) := by decide +kernel
  have himitation : Imitation.methodsText ⟨[giving]⟩ =
      .error (.unsupported .stateArgument .imitation 9) := by decide +kernel
  have hparams : paramsOf giving = .ok ⟨["y", "x"], some 1⟩ := by decide +kernel
  have hgroups : groupsOf [giving] = .ok [⟨"give", [giving]⟩] := rfl
  have hsignature : Signature.ofRules [giving] = .ok ⟨["y"], some "x"⟩ := by decide +kernel
  obtain ⟨hfacility', himitation', hoffset, hsupplies⟩ := backstops_unreached hread
  have hbinds := hsupplies _ hgroups _ (List.mem_singleton_self _) _ hsignature giving
    (List.mem_singleton_self _)
  exact ⟨_, giving, hread, rfl, ⟨hfacility, hfacility' _ hfacility⟩,
    ⟨himitation, himitation' _ himitation⟩,
    ⟨hparams, hoffset giving (List.mem_singleton_self _) _ 1 hparams rfl⟩,
    hsignature, hbinds 0 (by decide), hbinds 1 (by decide)⟩

end CausalRules
