import CausalRules.Proofs.Imitation.Scopes

/-!
# Calls of effects

The call of an effect is a tuple of the effect's name and the values of its arguments. When the last
argument is a continuation, the variables that it covers are not written one by one: they are
consecutive elements of a sequence, and the tuple ends with the sequence from the first of them on.

- `Scope.Performs`: what the tuple of an effect has to be.
- `value?_of_argTerm`: the term of an argument has its value.
- `drop_of_tailStart`: the covered variables begin the rest of their sequence.
- `performs_of_call`: the call of an effect is what it has to be.
-/

namespace CausalRules.Imitation.Scope

variable {V : Type} {m : Interpretation V} (scene : Scene V) {frame : Frame V} {ρ : String → V}
  {scope : Scope} {position : Nat}

/-- What the tuple of an effect has to be: its name with the values of its arguments. A continuation
adds the elements of a sequence that follow the one which the last covered variable is bound to. -/
inductive Performs (scope : Scope) (m : Interpretation V) (frame : Frame V) (ρ : String → V)
    (effect : Action) : String × List V → Prop
  | written {values : List V} (hplain : ∀ arg ∈ effect.args.getLast?, arg.continuation? = none)
      (hvalues : effect.args.mapM (Arg.value? m ρ) = some values) :
      Performs scope m frame ρ effect (effect.name, values)
  | continued {args : List Arg} {offset : Nat} {name sequence : String} {index : Nat}
      {values elements : List V} (hargs : effect.args = args ++ [.continuation offset])
      (hvalues : args.mapM (Arg.value? m ρ) = some values)
      (hlast : args.getLast? = some (.variable name))
      (hbound : scope.binding? name = some (.element sequence index))
      (helements : frame.all? sequence = some elements) :
      Performs scope m frame ρ effect (effect.name, values ++ elements.drop (index + 1))

/-! ## Terms -/

theorem binding?_of_resolve {name : String} {binding : Binding}
    (h : scope.resolve position name = .ok binding) : scope.binding? name = some binding := by
  unfold resolve at h
  split at h
  · rename_i found hfound
    rw [hfound, Except.ok.inj h]
  · cases h

/-- The term of an argument has its value. -/
theorem value?_of_argTerm (hsound : scope.Sound m frame ρ) {arg : Arg} {t : Term}
    (h : scope.argTerm position arg = .ok t) :
    ∃ v, arg.value? m ρ = some v ∧ t.value? m scene frame = some v := by
  unfold argTerm at h
  split at h
  · obtain ⟨binding, hbinding, h⟩ := bind_eq_ok.mp h
    obtain rfl := pure_eq_ok.mp h
    exact ⟨_, rfl, hsound _ _ (binding?_of_resolve hbinding)⟩
  · obtain rfl := pure_eq_ok.mp h
    exact ⟨_, rfl, rfl⟩
  · cases h
  · cases h
  · split at h
    · rename_i value hvalue
      obtain rfl := pure_eq_ok.mp h
      exact ⟨_, Arg.value?_of_constant? hvalue, rfl⟩
    · cases h

/-- So have the terms of arguments. -/
theorem values_of_argTerms (hsound : scope.Sound m frame ρ) {args : List Arg} {terms : List Term}
    (h : args.mapM (scope.argTerm position) = .ok terms) :
    ∃ values, args.mapM (Arg.value? m ρ) = some values ∧
      terms.mapM (Term.value? m scene frame) = some values := by
  have hterms := mapM_eq_ok_iff.mp h
  clear h
  induction hterms with
  | nil => exact ⟨[], rfl, rfl⟩
  | cons hterm _ ih =>
    obtain ⟨v, hv, ht⟩ := value?_of_argTerm scene hsound hterm
    obtain ⟨values, hvalues, hts⟩ := ih
    exact ⟨v :: values, mapM_cons_eq_some hv hvalues, mapM_cons_eq_some ht hts⟩

/-! ## Continuations -/

theorem of_tailElement {arg : Arg} {element : String × Nat}
    (h : scope.tailElement position arg = .ok element) :
    ∃ name, arg = .variable name ∧
      scope.binding? name = some (.element element.1 element.2) := by
  unfold tailElement at h
  split at h
  · obtain ⟨binding, hbinding, h⟩ := bind_eq_ok.mp h
    split at h
    · obtain rfl := pure_eq_ok.mp h
      exact ⟨_, rfl, binding?_of_resolve hbinding⟩
    · cases h
  · cases h

/-- The covered arguments are variables bound to consecutive elements of a sequence. -/
theorem covered_of_tailStart {covered : List Arg} {sequence : String} {start : Nat}
    (h : scope.tailStart position covered = .ok (sequence, start)) :
    covered ≠ [] ∧ ∀ (i : Nat) arg, covered[i]? = some arg → ∃ name, arg = .variable name ∧
      scope.binding? name = some (.element sequence (start + i)) := by
  obtain ⟨elements, helements, h⟩ := bind_eq_ok.mp h
  have hconsecutive : elements ≠ [] ∧
      elements = (List.range elements.length).map fun step => (sequence, start + step) := by
    split at h
    · cases h
    · dsimp only at h
      split at h
      · rename_i heq
        obtain ⟨rfl, rfl⟩ := Prod.mk.inj (pure_eq_ok.mp h)
        exact ⟨List.cons_ne_nil _ _, heq⟩
      · cases h
  obtain ⟨hne, hconsecutive⟩ := hconsecutive
  have hforall := mapM_eq_ok_iff.mp helements
  refine ⟨?_, ?_⟩
  · rintro rfl
    exact hne (List.forall₂_nil_left_iff.mp hforall)
  · intro i arg harg
    obtain ⟨element, helement, hof⟩ := getElem?_of_forall₂ hforall harg
    have hlt := (List.getElem?_eq_some_iff.mp helement).1
    rw [hconsecutive, List.getElem?_map, List.getElem?_range hlt] at helement
    obtain rfl := Option.some.inj helement
    exact of_tailElement hof

/-- Arguments with the values of consecutive elements begin the rest of the elements. -/
theorem drop_of_consecutive {elements : List V} {covered : List Arg} {start : Nat}
    (h : ∀ (i : Nat) arg, covered[i]? = some arg →
      ∃ v, arg.value? m ρ = some v ∧ elements[start + i]? = some v) :
    ∃ values, covered.mapM (Arg.value? m ρ) = some values ∧
      elements.drop start = values ++ elements.drop (start + covered.length) := by
  induction covered generalizing start with
  | nil => exact ⟨[], rfl, rfl⟩
  | cons arg rest ih =>
    obtain ⟨v, hv, hstart⟩ := h 0 arg rfl
    have hrest : ∀ (i : Nat) arg, rest[i]? = some arg →
        ∃ v, arg.value? m ρ = some v ∧ elements[start + 1 + i]? = some v := by
      intro i arg harg
      rw [Nat.add_right_comm, Nat.add_assoc]
      exact h (i + 1) arg harg
    obtain ⟨values, hvalues, hdrop⟩ := ih hrest
    refine ⟨v :: values, mapM_cons_eq_some hv hvalues, ?_⟩
    obtain ⟨hlt, hget⟩ := List.getElem?_eq_some_iff.mp hstart
    rw [List.length_cons, ← Nat.add_assoc, Nat.add_right_comm, List.cons_append, ← hdrop, ← hget]
    exact List.drop_eq_getElem_cons hlt

/-- The covered variables begin the rest of their sequence, and the last of them stands just before
the elements that a continuation adds. -/
theorem drop_of_tailStart (hsound : scope.Sound m frame ρ) {covered : List Arg}
    {sequence : String} {start : Nat}
    (h : scope.tailStart position covered = .ok (sequence, start)) :
    ∃ name index values elements, covered.getLast? = some (.variable name) ∧
      scope.binding? name = some (.element sequence index) ∧
      covered.mapM (Arg.value? m ρ) = some values ∧ frame.all? sequence = some elements ∧
      elements.drop start = values ++ elements.drop (index + 1) := by
  obtain ⟨hne, hcovered⟩ := covered_of_tailStart h
  have hlast : covered[covered.length - 1]? = some (covered.getLast hne) := by
    rw [← List.getLast?_eq_getElem?, List.getLast?_eq_some_getLast hne]
  obtain ⟨name, hname, hbound⟩ := hcovered _ _ hlast
  have helement : ∀ {i : Nat} {name : String},
      scope.binding? name = some (.element sequence (start + i)) →
      ∃ elements, frame.all? sequence = some elements ∧ elements[start + i]? = some (ρ name) := by
    intro i name hname
    obtain ⟨elements, hall, hget⟩ := Option.bind_eq_some_iff.mp (hsound _ _ hname)
    exact ⟨elements, hall, hget⟩
  -- a covered variable has a value, so its sequence is there
  obtain ⟨elements, hall, -⟩ := helement hbound
  have hconsecutive : ∀ (i : Nat) arg, covered[i]? = some arg →
      ∃ v, arg.value? m ρ = some v ∧ elements[start + i]? = some v := by
    intro i arg harg
    obtain ⟨other, rfl, hother⟩ := hcovered i arg harg
    obtain ⟨elements', hall', hget⟩ := helement hother
    rw [hall] at hall'
    exact ⟨_, rfl, Option.some.inj hall' ▸ hget⟩
  obtain ⟨values, hvalues, hdrop⟩ := drop_of_consecutive hconsecutive
  refine ⟨name, _, values, elements, ?_, hbound, hvalues, hall, ?_⟩
  · rw [List.getLast?_eq_some_getLast hne, hname]
  · have hlength := List.length_pos_iff.mpr hne
    rw [Nat.add_assoc, Nat.sub_add_cancel hlength]
    exact hdrop

/-! ## Calls -/

/-- **The call of an effect is what it has to be.** -/
theorem performs_of_call (hsound : scope.Sound m frame ρ) {effect : Action} {call : Call}
    (h : scope.call effect = .ok call) :
    ∃ value, call.value? m scene frame = some value ∧ scope.Performs m frame ρ effect value := by
  unfold Scope.call at h
  split at h
  · rename_i offset hoffset
    obtain ⟨args, hargs⟩ := List.getLast?_eq_some_iff.mp hoffset
    rw [hargs, List.dropLast_concat] at h
    dsimp only at h
    split at h
    · cases h
    · obtain ⟨⟨sequence, start⟩, hstart, h⟩ := bind_eq_ok.mp h
      obtain ⟨terms, hterms, h⟩ := bind_eq_ok.mp h
      obtain rfl := pure_eq_ok.mp h
      obtain ⟨kept, hkept, hts⟩ := values_of_argTerms scene hsound hterms
      obtain ⟨name, index, covered, elements, hlast, hbound, hcovered, hall, hdrop⟩ :=
        drop_of_tailStart hsound hstart
      -- the arguments are those before the covered ones, and the covered ones
      have hvalues : args.mapM (Arg.value? m ρ) = some (kept ++ covered) := by
        rw [← List.take_append_drop (args.length - offset) args, List.mapM_append, hkept, hcovered]
        rfl
      refine ⟨_, ?_, .continued hargs hvalues ?_ hbound hall⟩
      · rw [Call.value?, hts, List.append_assoc, ← hdrop]
        show (frame.all? sequence >>= fun vs => some (effect.name, kept ++ vs.drop start)) = _
        rw [hall]
        rfl
      · rw [← List.take_append_drop (args.length - offset) args, List.getLast?_append, hlast]
        rfl
  · rename_i hplain
    obtain ⟨terms, hterms, h⟩ := bind_eq_ok.mp h
    obtain rfl := pure_eq_ok.mp h
    obtain ⟨values, hvalues, hts⟩ := values_of_argTerms scene hsound hterms
    refine ⟨_, ?_, .written ?_ hvalues⟩
    · rw [Call.value?, hts]
      rfl
    · intro arg harg
      cases arg with
      | continuation offset => exact (hplain offset harg).elim
      | _ => rfl

end CausalRules.Imitation.Scope
