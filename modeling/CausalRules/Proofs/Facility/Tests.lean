import CausalRules.Proofs.Facility.Run
import CausalRules.Proofs.Traversal

/-!
# Facility tests mean their predicates

The block of a rule is about observed arguments, the rule about what its variables stand for. When
the observed arguments are those that the effects name, the two agree:

- `Observes`, `value?_of_slotOf`: a slot holds what its variable stands for;
- `mem_of_pieces`, `tuple?_of_pieces`: what the parts of a tuple are, and that it holds the values of
  the arguments that it is made from;
- `value?_of_term`, `truth?_of_test`: a term has the value of its operand, and a test the truth
  value of its predicate, when what they need is computed on the spot.
-/

namespace CausalRules.Facility

variable {V : Type} {m : Interpretation V} {scene : Scene V} {ρ : String → V}
  {arguments : List (List V)} {effects : List Action} {slots : Slots} {position : Nat}

/-! ## Slots -/

/-- Where an effect names a variable, its value was observed. -/
def Observes (effects : List Action) (ρ : String → V) (arguments : List (List V)) : Prop :=
  ∀ i j effect name, effects[i]? = some effect → effect.args[j]? = some (.variable name) →
    (Slot.mk i j).value? arguments = some (ρ name)

/-- A variable is noted at every place where an effect names it. -/
theorem mem_ofEffects_iff {name : String} {slot : Slot} :
    (name, slot) ∈ Slots.ofEffects effects ↔ ∃ effect, effects[slot.effect]? = some effect ∧
      effect.args[slot.arg]? = some (.variable name) := by
  unfold Slots.ofEffects Slots.ofArgs
  rw [List.mem_reverse, List.mem_flatMap]
  constructor
  · rintro ⟨⟨effect, i⟩, heffect, hslot⟩
    obtain ⟨⟨arg, j⟩, harg, hname⟩ := List.mem_filterMap.mp hslot
    obtain ⟨name', hvariable, heq⟩ := Option.map_eq_some_iff.mp hname
    obtain ⟨rfl, rfl⟩ := Prod.mk.inj heq
    obtain rfl := Arg.eq_of_variableName? hvariable
    exact ⟨effect, List.mem_zipIdx_iff_getElem?.mp heffect, List.mem_zipIdx_iff_getElem?.mp harg⟩
  · rintro ⟨effect, heffect, harg⟩
    refine ⟨(effect, slot.effect), List.mem_zipIdx_iff_getElem?.mpr heffect, ?_⟩
    exact List.mem_filterMap.mpr
      ⟨(.variable name, slot.arg), List.mem_zipIdx_iff_getElem?.mpr harg, rfl⟩

/-- The slot of a variable is a place where an effect names it. -/
theorem exists_of_slotOf {name : String} {slot : Slot}
    (h : slotOf (Slots.ofEffects effects) position name = .ok slot) :
    ∃ effect, effects[slot.effect]? = some effect ∧
      effect.args[slot.arg]? = some (.variable name) := by
  have hlookup : (Slots.ofEffects effects).slot? name = some slot := by
    unfold slotOf at h
    split at h
    · rename_i found hfound
      rw [hfound, Except.ok.inj h]
    · cases h
  exact mem_ofEffects_iff.mp (mem_of_lookup hlookup)

/-- A slot holds what its variable stands for. -/
theorem value?_of_slotOf (hobserves : Observes effects ρ arguments) {name : String} {slot : Slot}
    (h : slotOf (Slots.ofEffects effects) position name = .ok slot) :
    slot.value? arguments = some (ρ name) := by
  obtain ⟨effect, heffect, harg⟩ := exists_of_slotOf h
  exact hobserves _ _ effect name heffect harg

/-! ## Tuples -/

theorem tuple?_cons (piece : Piece) (pieces : List Piece) :
    tuple? m arguments (piece :: pieces) = do
      return (← piece.values? m arguments) ++ (← tuple? m arguments pieces) := by
  unfold tuple?
  rw [List.mapM_cons]
  cases piece.values? m arguments with
  | none => rfl
  | some first => cases pieces.mapM (Piece.values? m arguments) <;> rfl

/-- A piece is observed, or a constant that stands among the arguments. -/
theorem mem_of_pieces {args : List Arg} {parts : List Piece}
    (h : pieces slots position args = .ok parts) : ∀ part ∈ parts,
      (∃ slot, part = .item slot ∨ part = .tail slot) ∨
        ∃ arg ∈ args, ∃ value, arg.constant? = some value ∧ part = .constant value := by
  -- a constant among the later arguments is one among all of them
  have later : ∀ {before after : List Arg} {parts : List Piece}, before ⊆ after →
      (∀ part ∈ parts, (∃ slot, part = .item slot ∨ part = .tail slot) ∨
        ∃ arg ∈ before, ∃ value, arg.constant? = some value ∧ part = .constant value) →
      ∀ part ∈ parts, (∃ slot, part = .item slot ∨ part = .tail slot) ∨
        ∃ arg ∈ after, ∃ value, arg.constant? = some value ∧ part = .constant value := by
    intro before after parts hsubset hparts part hpart
    rcases hparts part hpart with hslot | ⟨arg, harg, hvalue⟩
    · exact .inl hslot
    · exact .inr ⟨arg, hsubset harg, hvalue⟩
  fun_induction pieces slots position args generalizing parts with
  | case1 =>
    obtain rfl := pure_eq_ok.mp h
    exact List.forall_mem_nil _
  | case2 name offset rest ih =>
    obtain ⟨slot, -, h⟩ := bind_eq_ok.mp h
    obtain ⟨others, hothers, h⟩ := bind_eq_ok.mp h
    obtain rfl := pure_eq_ok.mp h
    refine List.forall_mem_cons.mpr ⟨.inl ⟨slot, .inr rfl⟩, later ?_ (ih hothers)⟩
    exact fun arg harg => List.mem_cons_of_mem _ (List.mem_cons_of_mem _ harg)
  | case3 name rest _ ih =>
    obtain ⟨slot, -, h⟩ := bind_eq_ok.mp h
    obtain ⟨others, hothers, h⟩ := bind_eq_ok.mp h
    obtain rfl := pure_eq_ok.mp h
    refine List.forall_mem_cons.mpr ⟨.inl ⟨slot, .inl rfl⟩, later ?_ (ih hothers)⟩
    exact List.subset_cons_self _ _
  | case4 text rest ih | case5 value rest ih =>
    obtain ⟨others, hothers, h⟩ := bind_eq_ok.mp h
    obtain rfl := pure_eq_ok.mp h
    refine List.forall_mem_cons.mpr ⟨?_, later (List.subset_cons_self _ _) (ih hothers)⟩
    exact .inr ⟨_, List.mem_cons_self .., _, rfl, rfl⟩
  | case6 | case7 | case8 => cases h

/-- A tuple that is written out holds the values of its arguments. -/
theorem tuple?_of_pieces (hobserves : Observes effects ρ arguments) {args : List Arg}
    {parts : List Piece} (hargs : ∀ arg ∈ args, arg.continuation? = none)
    (h : pieces (Slots.ofEffects effects) position args = .ok parts) :
    ∃ values, args.mapM (Arg.value? m ρ) = some values ∧
      tuple? m arguments parts = some values := by
  induction args generalizing parts with
  | nil =>
    obtain rfl := pure_eq_ok.mp h
    exact ⟨[], rfl, rfl⟩
  | cons arg rest ih =>
    have hrest := fun arg harg => hargs arg (List.mem_cons_of_mem _ harg)
    -- every argument gives one piece, which holds its value, and the rest follows
    have step : ∀ {piece v}, arg.value? m ρ = some v → piece.values? m arguments = some [v] →
        (∃ parts', pieces (Slots.ofEffects effects) position rest = .ok parts' ∧
          piece :: parts' = parts) →
        ∃ values, (arg :: rest).mapM (Arg.value? m ρ) = some values ∧
          tuple? m arguments parts = some values := by
      rintro piece v hv hpiece ⟨parts', hparts, rfl⟩
      obtain ⟨values, hvalues, htuple⟩ := ih hrest hparts
      refine ⟨v :: values, mapM_cons_eq_some hv hvalues, ?_⟩
      rw [tuple?_cons, hpiece, htuple]
      rfl
    unfold pieces at h
    split at h
    · rename_i heq
      cases heq
    · -- a variable that a continuation follows
      rename_i heq
      obtain ⟨-, rfl⟩ := List.cons.inj heq
      cases hargs (.continuation _) (List.mem_cons_of_mem _ (List.mem_cons_self ..))
    · rename_i heq
      obtain ⟨rfl, rfl⟩ := List.cons.inj heq
      obtain ⟨slot, hslot, h⟩ := bind_eq_ok.mp h
      obtain ⟨parts', hparts, h⟩ := bind_eq_ok.mp h
      refine step rfl ?_ ⟨parts', hparts, pure_eq_ok.mp h⟩
      rw [Piece.values?, value?_of_slotOf hobserves hslot]
      rfl
    · rename_i heq
      obtain ⟨rfl, rfl⟩ := List.cons.inj heq
      obtain ⟨parts', hparts, h⟩ := bind_eq_ok.mp h
      exact step rfl rfl ⟨parts', hparts, pure_eq_ok.mp h⟩
    · rename_i heq
      obtain ⟨rfl, rfl⟩ := List.cons.inj heq
      obtain ⟨parts', hparts, h⟩ := bind_eq_ok.mp h
      exact step rfl rfl ⟨parts', hparts, pure_eq_ok.mp h⟩
    · cases h
    · cases h
    · cases h

/-! ## Terms and tests -/

/-- The setup for a type computes the type of the object at its slot. -/
theorem value?_typeOf {variableName : String} {slot : Slot} {object : V}
    (h : slot.value? arguments = some object) :
    (Setup.typeOf variableName slot).value? m scene arguments =
      (scene.typeOf? m object).map .single := by
  rw [Setup.value?, h]
  show (scene.typeOf? m object >>= fun type => pure (Content.single type)) = _
  cases scene.typeOf? m object <;> rfl

theorem single_of_term {operand : Operand} {t : Term}
    (h : term slots position operand = .ok t) : operand.Single := by
  cases operand with
  | value | type => trivial
  | all | list => cases h

/-- A term has the value of its operand, when it takes from the state what setups would compute. -/
theorem value?_of_term (hobserves : Observes effects ρ arguments) {operand : Operand} {t : Term}
    (h : term (Slots.ofEffects effects) position operand = .ok t) :
    t.value? m arguments (Setup.value? m scene arguments) = operand.value? m scene ρ := by
  unfold term at h
  split at h
  · obtain ⟨slot, hslot, h⟩ := bind_eq_ok.mp h
    obtain rfl := pure_eq_ok.mp h
    exact value?_of_slotOf hobserves hslot
  · obtain rfl := pure_eq_ok.mp h
    rfl
  · cases h
  · cases h
  · split at h
    · rename_i value hvalue
      obtain rfl := pure_eq_ok.mp h
      exact (Arg.value?_of_constant? hvalue).symm
    · cases h
  · obtain ⟨slot, hslot, h⟩ := bind_eq_ok.mp h
    obtain rfl := pure_eq_ok.mp h
    rw [Term.value?, Operand.value?, value?_typeOf (value?_of_slotOf hobserves hslot)]
    cases scene.typeOf? m (ρ _) <;> rfl
  · cases h
  · cases h

/-- All objects of a type are compared with the listed values. -/
theorem truth?_of_membersTest (hobserves : Observes effects ρ arguments) {op : Comparison}
    {typeName : String} {items : List Arg} {t : Test}
    (hitems : ∀ arg ∈ items, arg.continuation? = none)
    (h : membersTest (Slots.ofEffects effects) position op typeName items = .ok t) :
    t.truth? m arguments (Setup.value? m scene arguments) =
      if op = .equal then m.sameSet (scene.ofType m typeName) <$> items.mapM (Arg.value? m ρ)
      else none := by
  unfold membersTest at h
  split at h
  · rename_i hop
    obtain ⟨parts, hparts, h⟩ := bind_eq_ok.mp h
    obtain rfl := pure_eq_ok.mp h
    obtain ⟨values, hvalues, htuple⟩ := tuple?_of_pieces (m := m) hobserves hitems hparts
    show m.sameSet _ <$> tuple? m arguments parts = _
    rw [if_pos hop, htuple, hvalues]
  · cases h

/-- A test holds when its predicate does. -/
theorem truth?_of_test (hobserves : Observes effects ρ arguments) {p : Predicate} {t : Test}
    (hp : p.Explicit) (h : test (Slots.ofEffects effects) p = .ok t) :
    t.truth? m arguments (Setup.value? m scene arguments) = p.truth? m scene ρ := by
  unfold test at h
  split at h
  · obtain rfl := pure_eq_ok.mp h
    rfl
  · cases h
  · obtain ⟨hleft, hright⟩ := hp
    split at h
    · exact truth?_of_membersTest hobserves hright h
    · exact truth?_of_membersTest hobserves hleft h
    · cases h
    · cases h
    · cases h
    · cases h
    · split at h
      · cases h
      · obtain ⟨left, hl, h⟩ := bind_eq_ok.mp h
        obtain ⟨right, hr, h⟩ := bind_eq_ok.mp h
        obtain rfl := pure_eq_ok.mp h
        rw [Test.truth?, value?_of_term hobserves hl, value?_of_term hobserves hr]
        exact (Predicate.truth?_compare scene (single_of_term hl) _ _).symm

end CausalRules.Facility
