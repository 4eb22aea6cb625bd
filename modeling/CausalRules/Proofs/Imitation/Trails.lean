import CausalRules.Imitation.Scope
import CausalRules.Proofs.Layout

/-!
# What trails come to

A trail is made of steps, and what it comes to is made of what its steps come to. The scopes on the
way play no part in that.

- `Trail.result_bind`, `Trail.result_map`: composed steps.
- `Trail.bind_eq_ok`: when they succeed.
- `Scope.add`, `Scope.eq_add_of_bind`: what it means that a variable was bound.
- `Scope.result_bindMembers`: what the members of a list come to.
-/

namespace CausalRules.Imitation

open Script (membersName)

namespace Trail

variable {α β : Type}

@[simp] theorem result_still (result : Except EmitError α) : (still result).result = result := rfl

@[simp] theorem result_reach (scope : Scope) : (reach scope).result = .ok scope := rfl

@[simp] theorem result_pure (value : α) : (pure value : Trail α).result = .ok value := rfl

@[simp] theorem result_bind (first : Trail α) (next : α → Trail β) :
    (first >>= next).result = first.result >>= fun value => (next value).result := by
  show (first.andThen next).result = _
  unfold andThen
  cases first.result <;> rfl

@[simp] theorem result_map (f : α → β) (trail : Trail α) :
    (f <$> trail).result = f <$> trail.result := rfl

@[simp] theorem result_ite (c : Prop) [Decidable c] (trail other : Trail α) :
    (if c then trail else other).result = if c then trail.result else other.result :=
  apply_ite ..

/-- A choice between trails that correspond. -/
theorem matches_ite {E : EmitError → EmitError → Prop} {A : α → β → Prop} (c : Prop) [Decidable c]
    {trail other : Trail α} {trail' other' : Trail β} (h : Matches E A trail.result trail'.result)
    (h' : Matches E A other.result other'.result) :
    Matches E A (if c then trail else other).result (if c then trail' else other').result := by
  rw [result_ite, result_ite]
  exact .ite c h h'

theorem bind_eq_ok {first : Trail α} {next : α → Trail β} {b : β} :
    (first >>= next).result = .ok b ↔ ∃ a, first.result = .ok a ∧ (next a).result = .ok b := by
  rw [result_bind, CausalRules.bind_eq_ok]

end Trail

namespace Scope

variable {scope after : Scope} {underOr : Bool} {name : String} {binding : Binding} {position : Nat}

/-- A scope with one more binding. -/
def add (scope : Scope) (name : String) (binding : Binding) : Scope :=
  { scope with bindings := (name, binding) :: scope.bindings }

/-- Variables are bound outside of every `or`. -/
theorem eq_add_of_bind (h : (scope.bind name binding underOr position).result = .ok after) :
    underOr = false ∧ after = scope.add name binding := by
  unfold bind at h
  split at h
  · cases h
  · rename_i hor
    exact ⟨Bool.eq_false_iff.mpr hor, (Except.ok.inj h).symm⟩

/-- A variable that is bound, and its predicate dropped. -/
theorem eq_settle_of_bindAndDrop
    (h : (scope.bindAndDrop name binding underOr position).result = .ok after) :
    underOr = false ∧ after = (scope.add name binding).settle position .drop := by
  obtain ⟨bound, hbind, h⟩ := Trail.bind_eq_ok.mp h
  obtain ⟨hor, rfl⟩ := eq_add_of_bind hbind
  exact ⟨hor, (Except.ok.inj h).symm⟩

/-- The objects of a type are listed, members are bound to them, and what is left is recorded. -/
theorem result_bindMembers (scope : Scope) (typeName : String) (items : List Arg) (underOr : Bool)
    (position : Nat) : (scope.bindMembers typeName items underOr position).result = do
      let (learned, checks) ← (bindItems (membersName typeName) underOr position 0 items
        (scope.list typeName)).result
      let checks := if items.isEmpty then [.noElements (membersName typeName)] else checks
      return learned.settle position (if checks.isEmpty then .drop else .replace checks) := by
  unfold bindMembers
  simp only [Trail.result_bind, Trail.result_reach]
  rfl

end Scope

end CausalRules.Imitation
