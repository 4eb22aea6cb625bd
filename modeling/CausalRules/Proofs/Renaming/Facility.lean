import CausalRules.Facility.Text
import CausalRules.Proofs.Renaming

/-!
# Names of variables in the facility script

A block holds the slots of variables, not their names. The one exception is the type of an object,
which is kept under the name of its variable.

- `renamed_ofEffects`: renamed variables have the same slots.
- `renamed_pieces`, `renamed_test`, `renamed_ofRule`: one lemma for each step that makes a block.
-/

namespace CausalRules.Facility

variable {S : String → String → Prop} {slots slots' : Slots} {position : Nat}

/-- Variables that correspond have the same slots, in the same order. -/
def SlotsRenamed (S : String → String → Prop) : Slots → Slots → Prop :=
  List.Forall₂ fun x y => S x.1 y.1 ∧ x.2 = y.2

theorem renamed_ofArgs {args args' : List Arg} (h : List.Forall₂ (Arg.Renamed S) args args')
    (i : Nat) : SlotsRenamed S (Slots.ofArgs i args) (Slots.ofArgs i args') := by
  refine List.rel_filterMap ?_ (forall₂_zipIdx h 0)
  rintro ⟨arg, j⟩ ⟨arg', _⟩ ⟨harg, rfl⟩
  cases harg with
  | «variable» hvw => exact .some ⟨hvw, rfl⟩
  | _ => exact .none

/-- **Slots are found without names.** -/
theorem renamed_ofEffects {effects effects' : List Action}
    (h : List.Forall₂ (Action.Renamed S) effects effects') :
    SlotsRenamed S (Slots.ofEffects effects) (Slots.ofEffects effects') := by
  refine List.rel_reverse (List.rel_flatMap (forall₂_zipIdx h 0) ?_)
  rintro ⟨effect, i⟩ ⟨effect', _⟩ ⟨heffect, rfl⟩
  exact renamed_ofArgs heffect.args i

section Tests

variable (hS : Relator.BiUnique S) (hslots : SlotsRenamed S slots slots')

include hS hslots

theorem renamed_slotOf {v w : String} (h : S v w) :
    Matches AnyError Eq (slotOf slots position v) (slotOf slots' position w) := by
  have hlookup : slots.slot? v = slots'.slot? w := lookup_eq_of_forall₂ hS h hslots
  unfold slotOf
  rw [hlookup]
  cases slots'.slot? w with
  | some slot => exact .ok rfl
  | none => exact .error trivial

theorem renamed_pieces {args args' : List Arg} (h : List.Forall₂ (Arg.Renamed S) args args') :
    Matches AnyError Eq (pieces slots position args) (pieces slots' position args') := by
  induction args using pieces.induct generalizing args' with
  | case1 =>
    cases h
    exact .ok rfl
  | case2 name offset rest ih =>
    obtain - | ⟨harg, - | ⟨hmark, hrest⟩⟩ := h
    cases harg with
    | «variable» hvw =>
      cases hmark
      rw [pieces, pieces]
      exact (renamed_slotOf hS hslots hvw).bind_eq fun slot => (ih hrest).bind_eq fun _ => .ok rfl
  | case3 name rest hnext ih =>
    cases h with
    | @cons _ _ _ rest' harg hrest =>
      cases harg with
      | «variable» hvw =>
        -- the next argument is a continuation in both or in neither
        have hnext' : ∀ offset rest'', rest' = Arg.continuation offset :: rest'' → False := by
          rintro offset rest'' rfl
          cases hrest with
          | cons hmark _ =>
            cases hmark
            exact hnext _ _ rfl
        rw [pieces.eq_3 _ _ _ _ hnext, pieces.eq_3 _ _ _ _ hnext']
        exact (renamed_slotOf hS hslots hvw).bind_eq fun slot =>
          (ih hrest).bind_eq fun _ => .ok rfl
  | case4 _ rest ih | case5 _ rest ih =>
    obtain - | ⟨harg, hrest⟩ := h
    cases harg
    rw [pieces, pieces]
    exact (ih hrest).bind_eq fun _ => .ok rfl
  | case6 | case7 | case8 =>
    obtain - | ⟨harg, hrest⟩ := h
    cases harg
    rw [pieces, pieces]
    exact .error trivial

theorem renamed_term {operand operand' : Operand} (h : operand.Renamed S operand')
    (htype : ∀ v, operand ≠ .type v) :
    Matches AnyError Eq (term slots position operand) (term slots' position operand') := by
  cases h with
  | value harg =>
    cases harg with
    | «variable» hvw => exact (renamed_slotOf hS hslots hvw).bind_eq fun _ => .ok rfl
    | literal | number | python => exact .ok rfl
    | continuation | state => exact .error trivial
  | type => exact (htype _ rfl).elim
  | all | list => exact .error trivial

theorem renamed_membersTest (op : Comparison) (typeName : String) {items items' : List Arg}
    (h : List.Forall₂ (Arg.Renamed S) items items') :
    Matches AnyError Eq (membersTest slots position op typeName items)
      (membersTest slots' position op typeName items') :=
  .ite _ ((renamed_pieces hS hslots h).bind_eq fun _ => .ok rfl) (.error trivial)

omit hS hslots in
theorem isConstant_eq {operand operand' : Operand} (h : operand.Renamed S operand') :
    isConstant operand = isConstant operand' := by
  cases h with
  | value harg => rw [isConstant, isConstant, harg.constant?_eq]
  | _ => rfl

theorem renamed_test {q q' : Predicate} (h : q.Renamed S q')
    (htype : ∀ v, .type v ∉ q.operands) :
    Matches AnyError Eq (test slots q) (test slots' q') := by
  cases h with
  | bare position h =>
    cases h with
    | value harg =>
      cases harg with
      | python => exact .ok rfl
      | _ => exact .error trivial
    | _ => exact .error trivial
  | @compare left left' op right right' position hleft hright =>
    have hterms : Matches AnyError Eq
        (if isConstant left && isConstant right then unsupported .twoConstants position
          else return Test.compare (← term slots position left) op (← term slots position right))
        (if isConstant left' && isConstant right' then unsupported .twoConstants position
          else return Test.compare (← term slots' position left') op
                (← term slots' position right')) := by
      rw [isConstant_eq hleft, isConstant_eq hright]
      have hlefts : Matches AnyError Eq (term slots position left) (term slots' position left') :=
        renamed_term hS hslots hleft fun v heq => htype v (heq ▸ List.mem_cons_self ..)
      have hrights : Matches AnyError Eq (term slots position right)
          (term slots' position right') :=
        renamed_term hS hslots hright fun v heq =>
          htype v (heq ▸ List.mem_cons_of_mem _ (List.mem_cons_self ..))
      exact .ite _ (.error trivial) (hlefts.bind_eq fun _ => hrights.bind_eq fun _ => .ok rfl)
    cases hleft with
    | all typeName =>
      cases hright with
      | list hitems => exact renamed_membersTest hS hslots op typeName hitems
      | _ => exact .error trivial
    | list hitems =>
      cases hright with
      | all typeName => exact renamed_membersTest hS hslots op typeName hitems
      | _ => exact .error trivial
    | type => exact (htype _ (List.mem_cons_self ..)).elim
    | value =>
      cases hright with
      | all | list => exact .error trivial
      | value | type => exact hterms

theorem renamed_guard {c c' : Condition} (h : Condition.Renamed S c c')
    (htype : ∀ q ∈ c.atoms, ∀ v, .type v ∉ q.operands) :
    Matches AnyError Eq (guard slots c) (guard slots' c') := by
  induction h with
  | atom h => exact (renamed_test hS hslots h (htype _ (List.mem_singleton_self _))).map_eq _
  | group _ ih => exact (ih htype).map_eq Formula.group
  | chain op _ _ ihl ihr =>
    exact (ihl fun q hq => htype q (List.mem_append_left _ hq)).bind_eq fun _ =>
      (ihr fun q hq => htype q (List.mem_append_right _ hq)).bind_eq fun _ => .ok rfl

end Tests

theorem renamed_ofRule (hS : Relator.BiUnique S) {rule rule' : Rule} (h : rule.Renamed S rule')
    (hname : ∀ q ∈ rule.predicates, ∀ v, .type v ∉ q.operands) :
    Matches AnyError Eq (Block.ofRule rule) (Block.ofRule rule') := by
  have hslots := renamed_ofEffects h.effects
  have hnames := map_eq_of_forall₂ h.effects fun _ _ => Action.Renamed.name
  unfold Block.ofRule
  rw [hnames, h.intention.name, h.intention.position]
  refine (renamed_pieces hS hslots h.intention.args).bind_eq fun args => ?_
  have hcondition := h.condition
  unfold Rule.predicates at hname
  generalize rule.condition = c at hcondition hname ⊢
  generalize rule'.condition = c' at hcondition ⊢
  cases hcondition with
  | none => exact .ok rfl
  | some hc => exact ((renamed_guard hS hslots hc hname).map_eq some).bind_eq fun _ => .ok rfl

/-- **One rule of a program may have other names** if no type is asked for in its condition. -/
theorem ofProgram_renamed (hS : Relator.BiUnique S) {rule rule' : Rule} (h : rule.Renamed S rule')
    (hname : ∀ q ∈ rule.predicates, ∀ v, .type v ∉ q.operands) (before after : List Rule) :
    Matches AnyError Eq (Domain.ofProgram ⟨before ++ rule :: after⟩)
      (Domain.ofProgram ⟨before ++ rule' :: after⟩) := by
  have hblocks : List.Forall₂ (fun r r' => Matches AnyError Eq (Block.ofRule r) (Block.ofRule r'))
      (before ++ rule :: after) (before ++ rule' :: after) :=
    List.rel_append (List.forall₂_same.mpr fun _ _ => .same fun _ => trivial)
      (.cons (renamed_ofRule hS h hname) (List.forall₂_same.mpr fun _ _ => .same fun _ => trivial))
  have hmax : Program.maxEffects ⟨before ++ rule :: after⟩ =
      Program.maxEffects ⟨before ++ rule' :: after⟩ := by
    simp only [Program.maxEffects, List.foldl_append, List.foldl_cons, h.effects.length_eq]
  unfold Domain.ofProgram
  rw [hmax]
  exact (Matches.mapM_eq hblocks fun _ _ => id).bind_eq fun _ => .ok rfl

end CausalRules.Facility
