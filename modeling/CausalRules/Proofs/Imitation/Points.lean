import CausalRules.Proofs.Backstops
import CausalRules.Proofs.Imitation.Members
import CausalRules.Proofs.Imitation.Shadowing
import CausalRules.Proofs.Imitation.Signatures

/-!
# The scopes that a condition goes through

While a condition is read, the scope of its rule goes through many states: one for each type that
is listed, for each variable that is bound, and for each predicate of which something is recorded.
These are the points of its trail. A condition that is refused goes through those before the
failure.

- `Scope.Change`, `Scope.Passes`: the changes from one point to the next.
- `Scope.Traces`: the points of a trail are such a sequence, and end with the scope that is left, if
  there is one. `Scope.Traces.andThen` says so of steps that are taken one after the other.
- `Scope.traces_bindPredicate`, `Scope.traces_collect`: predicates and conditions.
- `Scope.Grows`, `Scope.Passes.pairwise`: no change takes anything back.
- `Binding.Grounded`, `Scope.Grounded.of_passes`: where bindings come from, at each point.

A change records something at a position only if nothing is recorded there. Conditions that were
read keep to that, since no two of their predicates share a position.
-/

namespace CausalRules.Imitation

open Script (membersName Constant)

namespace Scope

variable {scope after : Scope} {underOr : Bool} {position : Nat}

/-! ## Changes -/

/-- What a variable may be bound to or compared with: what another variable is bound to, an object
of a type that is listed, or a constant. -/
inductive Offers (scope : Scope) : Binding → Prop
  | bound {name binding} : scope.binding? name = some binding → Offers scope binding
  | member {typeName} (index : Nat) : typeName ∈ scope.listed →
      Offers scope (.element (membersName typeName) index)
  | constant (value : Constant) : Offers scope (.constant value)

/-- What a check may be about. -/
inductive Knows (scope : Scope) : Check → Prop
  | same {element known} : scope.Offers element → scope.Offers known →
      Knows scope (.same element known)
  | noElements {typeName} : typeName ∈ scope.listed →
      Knows scope (.noElements (membersName typeName))

/-- The changes that a scope undergoes: a type is listed, a variable without a binding is bound, or
what becomes of a predicate is recorded, of which nothing was recorded before. -/
inductive Change (scope : Scope) : Scope → Prop
  | list (typeName : String) : Change scope (scope.list typeName)
  | bind {name binding} : scope.binding? name = none → scope.Offers binding →
      Change scope (scope.add name binding)
  | settle {position residue} : scope.residue? position = none →
      (∀ checks, residue = .replace checks → ∀ check ∈ checks, scope.Knows check) →
      Change scope (scope.settle position residue)

/-- A scope undergoes changes one after the other, and passes these points, up to the last. -/
inductive Passes : Scope → List Scope → Scope → Prop
  | nil (scope : Scope) : Passes scope [] scope
  | cons {scope next points last} : scope.Change next → Passes next points last →
      Passes scope (next :: points) last

theorem Passes.append {mid last : Scope} {points later : List Scope}
    (h : Passes scope points mid) (h' : Passes mid later last) :
    Passes scope (points ++ later) last := by
  induction h with
  | nil => exact h'
  | cons hchange _ ih => exact .cons hchange (ih h')

/-- The points of a trail are passed one after the other, up to the scope that is left, if there is
one. -/
def Traces {α : Type} (scope : Scope) (final : α → Scope) (trail : Trail α) : Prop :=
  ∃ last, Passes scope trail.points last ∧ ∀ a, trail.result = .ok a → final a = last

namespace Traces

section Steps

variable {α β : Type} {final : α → Scope} {final' : β → Scope} {trail : Trail α}

/-- A step that changes nothing. -/
theorem stays {a : α} (h : final a = scope) : scope.Traces final (pure a) :=
  ⟨scope, .nil scope, fun _ ha => Except.ok.inj ha ▸ h⟩

/-- A step that fails leaves no scope to end with. -/
theorem fails {e : EmitError} : scope.Traces final (.still (.error e)) :=
  ⟨scope, .nil scope, nofun⟩

/-- A step that is one change. -/
theorem reach (h : scope.Change after) : scope.Traces id (.reach after) :=
  ⟨after, .cons h (.nil after), fun _ ha => (Except.ok.inj ha).symm⟩

/-- The second of two steps goes on from where the first has come to. -/
theorem andThen {next : α → Trail β} (h : scope.Traces final trail)
    (hnext : ∀ a, trail.result = .ok a → (final a).Traces final' (next a)) :
    scope.Traces final' (trail >>= next) := by
  obtain ⟨last, hpasses, hlast⟩ := h
  show scope.Traces final' (trail.andThen next)
  unfold Trail.andThen
  cases hresult : trail.result with
  | error e => exact ⟨last, hpasses, nofun⟩
  | ok a =>
    obtain rfl := hlast a hresult
    obtain ⟨last', hpasses', hlast'⟩ := hnext a hresult
    exact ⟨last', hpasses.append hpasses', hlast'⟩

/-- What else a trail comes to does not matter. -/
theorem map {f : α → β} (h : scope.Traces (fun a => final' (f a)) trail) :
    scope.Traces final' (f <$> trail) := by
  obtain ⟨last, hpasses, hlast⟩ := h
  refine ⟨last, hpasses, fun b hb => ?_⟩
  obtain ⟨a, ha, rfl⟩ := map_eq_ok.mp hb
  exact hlast a ha

end Steps

theorem bind {name : String} {binding : Binding} (hname : scope.binding? name = none)
    (hoffers : scope.Offers binding) :
    scope.Traces id (scope.bind name binding underOr position) := by
  cases underOr with
  | true => exact fails
  | false => exact reach (.bind hname hoffers)

/-- A variable is bound and its predicate dropped. -/
theorem bindAndDrop {name : String} {binding : Binding} (hname : scope.binding? name = none)
    (hoffers : scope.Offers binding) (hnew : scope.residue? position = none) :
    scope.Traces id (scope.bindAndDrop name binding underOr position) := by
  refine (bind hname hoffers).andThen fun bound hbound => reach (.settle ?_ nofun)
  obtain ⟨-, rfl⟩ := eq_add_of_bind hbound
  exact hnew

theorem bindEqual {a b : String} (hnew : scope.residue? position = none) :
    scope.Traces id (scope.bindEqual a b underOr position) := by
  unfold Scope.bindEqual
  cases ha : scope.binding? a with
  | some known =>
    cases hb : scope.binding? b with
    | some known' => exact stays rfl
    | none => exact bindAndDrop hb (.bound ha) hnew
  | none =>
    cases hb : scope.binding? b with
    | some known => exact bindAndDrop ha (.bound hb) hnew
    | none => exact fails

theorem bindConstant {name : String} {arg : Arg} (hnew : scope.residue? position = none) :
    scope.Traces id (scope.bindConstant name arg underOr position) := by
  unfold Scope.bindConstant
  cases hname : scope.binding? name with
  | some known => exact stays rfl
  | none =>
    cases arg.constant? with
    | some value => exact bindAndDrop hname (.constant value) hnew
    | none => exact stays rfl

end Traces

/-! ## Lists -/

/-- The members of a list change the scope one after the other. -/
theorem traces_bindItems {typeName : String} {index : Nat} {items : List Arg}
    (h : typeName ∈ scope.listed) :
    scope.Traces Prod.fst
      (bindItems (membersName typeName) underOr position index items scope) := by
  induction items generalizing scope index with
  | nil => exact .stays rfl
  | cons item rest ih =>
    cases item with
    | «variable» name =>
      unfold bindItems
      cases hname : scope.binding? name with
      | some known => exact .map (ih h)
      | none =>
        refine .andThen (.bind hname (.member index h)) fun bound hbound => ih ?_
        obtain ⟨-, rfl⟩ := eq_add_of_bind hbound
        exact h
    | literal | number => exact .map (ih h)
    | continuation => exact ih h
    | state | python => exact .fails

theorem Denotes.offers {arg : Arg} {known : Binding} (h : scope.Denotes arg known) :
    scope.Offers known := by
  cases h with
  | bound h => exact .bound h
  | constant => exact .constant _

theorem Offers.mono {binding : Binding} (h : scope.Offers binding) (hextends : scope.Extends after)
    (hlisted : scope.listed ⊆ after.listed) : after.Offers binding := by
  cases h with
  | bound h => exact .bound (hextends _ _ h)
  | member index h => exact .member index (hlisted h)
  | constant value => exact .constant value

/-- The checks that members leave are about what is known when all of them have been read. -/
theorem knows_of_bindItems {typeName : String} {index : Nat} {items : List Arg}
    {checks : List Check} (hlisted : typeName ∈ scope.listed)
    (h : (bindItems (membersName typeName) underOr position index items scope).result =
      .ok (after, checks)) : ∀ check ∈ checks, after.Knows check := by
  induction items generalizing scope index checks with
  | nil =>
    obtain ⟨-, rfl⟩ := Prod.mk.inj (pure_eq_ok.mp h)
    exact List.forall_mem_nil _
  | cons item rest ih =>
    rcases bindItems_cons h with
      ⟨name, -, -, -, hrest⟩ | ⟨known, checks', hdenotes, rfl, hrest⟩ | ⟨offset, -, hrest⟩
    · have hadded : typeName ∈
          (scope.add name (.element (membersName typeName) index)).listed := hlisted
      exact ih hadded hrest
    · have hafter : scope.listed ⊆ after.listed := by
        rw [(listed_of_bindItems hrest).1]
        exact List.Subset.refl _
      refine List.forall_mem_cons.mpr ⟨.same (.member index (hafter hlisted)) ?_, ih hlisted hrest⟩
      exact hdenotes.offers.mono (extends_of_bindItems hrest) hafter
    · exact ih hlisted hrest

theorem residues_list (scope : Scope) (typeName : String) :
    (scope.list typeName).residues = scope.residues := by
  rw [list]
  split <;> rfl

theorem traces_bindMembers {typeName : String} {items : List Arg}
    (hnew : scope.residue? position = none) :
    scope.Traces id (scope.bindMembers typeName items underOr position) := by
  have htype : typeName ∈ (scope.list typeName).listed := mem_listed_list.mpr (.inr rfl)
  refine .andThen (.reach (.list typeName)) fun _ hlist => ?_
  obtain rfl := Except.ok.inj hlist
  refine .andThen (traces_bindItems htype) fun (learned, checks) hitems => ?_
  obtain ⟨hlisted, hresidues⟩ := listed_of_bindItems hitems
  have hunsettled : learned.residue? position = none := by
    rw [residue?, hresidues, residues_list]
    exact hnew
  -- what is recorded is about the objects of the type and what is known of its members
  have hknows : ∀ check ∈ if items.isEmpty then [.noElements (membersName typeName)] else checks,
      learned.Knows check := by
    split
    · exact List.forall_mem_singleton.mpr (.noElements (hlisted ▸ htype))
    · exact knows_of_bindItems htype hitems
  have hrecorded : ∀ {all left : List Check}, (∀ check ∈ all, learned.Knows check) →
      (if all.isEmpty then Residue.drop else .replace all) = .replace left →
      ∀ check ∈ left, learned.Knows check := by
    intro all left hall hleft
    split at hleft
    · cases hleft
    · obtain rfl := Residue.replace.inj hleft
      exact hall
  exact .reach (.settle hunsettled fun left hleft => hrecorded hknows hleft)

/-- **A predicate changes the scope step by step.** -/
theorem traces_bindPredicate {p : Predicate} (hnew : scope.residue? p.position = none) :
    scope.Traces id (scope.bindPredicate underOr p) := by
  -- variables are bound by equality only
  have hequal : ∀ {op : Comparison} {trail otherwise : Trail Scope},
      scope.Traces id trail → scope.Traces id otherwise →
      scope.Traces id (if op = .equal then trail else otherwise) := by
    intro op trail otherwise htrail hotherwise
    split
    · exact htrail
    · exact hotherwise
  cases p with
  | bare operand position => exact .stays rfl
  | compare left op right position =>
    cases left with
    | all typeName =>
      cases right with
      | list items => exact hequal (traces_bindMembers hnew) .fails
      | _ => exact .fails
    | list items =>
      cases right with
      | all typeName => exact hequal (traces_bindMembers hnew) .fails
      | _ => exact .stays rfl
    | type name =>
      cases right with
      | all => exact .fails
      | value arg => cases arg <;> exact .stays rfl
      | _ => exact .stays rfl
    | value arg =>
      cases right with
      | all => exact .fails
      | value other =>
        cases arg with
        | «variable» name =>
          cases other with
          | «variable» name' => exact hequal (.bindEqual hnew) (.stays rfl)
          | _ => exact hequal (.bindConstant hnew) (.stays rfl)
        | _ =>
          cases other with
          | «variable» name => exact hequal (.bindConstant hnew) (.stays rfl)
          | _ => exact .stays rfl
      | _ => cases arg <;> exact .stays rfl

/-- **A condition changes the scope step by step.** Its predicates have to differ in their
positions, at which nothing is recorded yet. -/
theorem traces_collect {c : Condition} (hnodup : (c.atoms.map Predicate.position).Nodup)
    (hnew : ∀ p ∈ c.atoms, scope.residue? p.position = none) :
    scope.Traces id (scope.collect underOr c) := by
  induction c generalizing scope underOr with
  | atom p => exact traces_bindPredicate (hnew p (List.mem_singleton_self p))
  | group inner ih => exact ih hnodup hnew
  | chain left op right ihl ihr =>
    obtain ⟨hnodupl, hnodupr⟩ := nodup_of_chain hnodup
    refine .andThen (ihl hnodupl fun p hp => hnew p (List.mem_append_left _ hp)) ?_
    intro mid hleft
    -- the left part records nothing for the predicates of the right part
    refine ihr hnodupr fun p hp => ?_
    rw [id, residue?_of_left hnodup hleft hp]
    exact hnew p (List.mem_append_right _ hp)

/-! ## Growth -/

/-- Bindings stay as they are, and so does what became of predicates; types are listed after those
that are listed already. -/
structure Grows (scope after : Scope) : Prop where
  bindings : scope.Extends after
  listed : scope.listed <+: after.listed
  residues : ∀ position residue, scope.residue? position = some residue →
    after.residue? position = some residue

theorem Grows.trans {mid : Scope} (h : scope.Grows mid) (h' : mid.Grows after) :
    scope.Grows after :=
  ⟨h.bindings.trans h'.bindings, h.listed.trans h'.listed,
    fun _ _ hresidue => h'.residues _ _ (h.residues _ _ hresidue)⟩

/-- **No change takes anything back.** -/
theorem Change.grows (h : scope.Change after) : scope.Grows after := by
  cases h with
  | list typeName =>
    refine ⟨fun name binding h => (binding?_list scope typeName name).trans h, ?_, ?_⟩
    · rw [Scope.list]
      split
      · exact List.prefix_rfl
      · exact List.prefix_append _ _
    · intro position residue hresidue
      rw [residue?, residues_list]
      exact hresidue
  | bind hname => exact ⟨extends_add hname _, List.prefix_rfl, fun _ _ h => h⟩
  | settle hnew =>
    refine ⟨.refl scope, List.prefix_rfl, fun position residue hresidue => ?_⟩
    -- nothing was recorded at the position where something is recorded now
    rw [residue?_settle_of_ne]
    · exact hresidue
    · rintro rfl
      rw [hnew] at hresidue
      cases hresidue

theorem Passes.grows {last : Scope} {points : List Scope} (h : Passes scope points last) :
    ∀ point ∈ points, scope.Grows point := by
  induction h with
  | nil => exact List.forall_mem_nil _
  | cons hchange _ ih =>
    refine List.forall_mem_cons.mpr ⟨hchange.grows, fun point hpoint => ?_⟩
    exact hchange.grows.trans (ih point hpoint)

/-- Each point has all that the points before it have. -/
theorem Passes.pairwise {last : Scope} {points : List Scope} (h : Passes scope points last) :
    (scope :: points).Pairwise Grows := by
  induction h with
  | nil scope => exact List.pairwise_singleton _ scope
  | cons hchange hpasses ih =>
    exact List.pairwise_cons.mpr ⟨(Passes.cons hchange hpasses).grows, ih⟩

theorem Passes.getLast? {last : Scope} {points : List Scope} (h : Passes scope points last) :
    (scope :: points).getLast? = some last := by
  induction h with
  | nil scope => rfl
  | cons _ _ ih => rwa [List.getLast?_cons_cons]

end Scope

/-! ## Sources -/

/-- Where a binding comes from: a fixed parameter, the star parameter, the objects of a type that is
listed, or a constant. -/
inductive Binding.Grounded (signature : Signature) (listed : List String) : Binding → Prop
  | fixed {name} : name ∈ signature.fixed → Grounded signature listed (.param name)
  | star {star} (index : Nat) : signature.star = some star →
      Grounded signature listed (.element star index)
  | member {typeName} (index : Nat) : typeName ∈ listed →
      Grounded signature listed (.element (membersName typeName) index)
  | constant (value : Constant) : Grounded signature listed (.constant value)

/-- A check is about such bindings, or about the objects of a type that is listed. -/
inductive Check.Grounded (signature : Signature) (listed : List String) : Check → Prop
  | same {element known : Binding} : element.Grounded signature listed →
      known.Grounded signature listed → Grounded signature listed (.same element known)
  | noElements {typeName} : typeName ∈ listed →
      Grounded signature listed (.noElements (membersName typeName))

/-- Each binding of a scope, and each check, comes from the parameters, from types that are listed
already, or from constants. -/
structure Scope.Grounded (signature : Signature) (scope : Scope) : Prop where
  bindings : ∀ entry ∈ scope.bindings, entry.2.Grounded signature scope.listed
  checks : ∀ entry ∈ scope.residues, ∀ checks, entry.2 = .replace checks →
    ∀ check ∈ checks, check.Grounded signature scope.listed

section Grounded

variable {signature : Signature} {listed listed' : List String}

theorem Binding.Grounded.mono {binding : Binding} (h : binding.Grounded signature listed)
    (hlisted : listed ⊆ listed') : binding.Grounded signature listed' := by
  cases h with
  | fixed h => exact .fixed h
  | star index h => exact .star index h
  | member index h => exact .member index (hlisted h)
  | constant value => exact .constant value

theorem Check.Grounded.mono {check : Check} (h : check.Grounded signature listed)
    (hlisted : listed ⊆ listed') : check.Grounded signature listed' := by
  cases h with
  | same helement hknown => exact .same (helement.mono hlisted) (hknown.mono hlisted)
  | noElements h => exact .noElements (hlisted h)

namespace Scope

variable {scope after : Scope}

theorem Grounded.of_binding? (h : scope.Grounded signature) {name : String} {binding : Binding}
    (hname : scope.binding? name = some binding) : binding.Grounded signature scope.listed :=
  h.bindings (name, binding) (mem_of_lookup hname)

theorem Grounded.of_offers (h : scope.Grounded signature) {binding : Binding}
    (hoffers : scope.Offers binding) : binding.Grounded signature scope.listed := by
  cases hoffers with
  | bound hname => exact h.of_binding? hname
  | member index htype => exact .member index htype
  | constant value => exact .constant value

/-- **Each change keeps a scope grounded.** -/
theorem Grounded.of_change (h : scope.Grounded signature) (hchange : scope.Change after) :
    after.Grounded signature := by
  cases hchange with
  | list typeName =>
    have hlisted : scope.listed ⊆ (scope.list typeName).listed :=
      fun t ht => mem_listed_list.mpr (.inl ht)
    have hbindings : (scope.list typeName).bindings = scope.bindings := by
      rw [Scope.list]
      split <;> rfl
    refine ⟨?_, ?_⟩
    · rw [hbindings]
      exact fun entry hentry => (h.bindings entry hentry).mono hlisted
    · rw [residues_list]
      exact fun entry hentry checks heq check hcheck =>
        (h.checks entry hentry checks heq check hcheck).mono hlisted
  | bind _ hoffers =>
    exact ⟨List.forall_mem_cons.mpr ⟨h.of_offers hoffers, h.bindings⟩, h.checks⟩
  | settle _ hknows =>
    refine ⟨h.bindings, List.forall_mem_cons.mpr ⟨fun checks heq check hcheck => ?_, h.checks⟩⟩
    cases hknows checks heq check hcheck with
    | same helement hknown => exact .same (h.of_offers helement) (h.of_offers hknown)
    | noElements htype => exact .noElements htype

theorem Grounded.of_passes {last : Scope} {points : List Scope} (h : scope.Grounded signature)
    (hpasses : Passes scope points last) :
    ∀ point ∈ scope :: points, point.Grounded signature := by
  induction hpasses with
  | nil => exact List.forall_mem_singleton.mpr h
  | cons hchange _ ih => exact List.forall_mem_cons.mpr ⟨h, ih (h.of_change hchange)⟩

/-- The variables of an intention are bound to parameters. -/
theorem grounded_ofRule {rule : Rule} (haccepts : signature.Accepts rule.variables.length) :
    (Scope.ofRule signature rule).Grounded signature := by
  refine ⟨fun entry hentry => ?_, List.forall_mem_nil _⟩
  obtain ⟨⟨name, index⟩, hindex, rfl⟩ := List.mem_map.mp (List.mem_reverse.mp hentry)
  have hlt : index < rule.variables.length :=
    (List.getElem?_eq_some_iff.mp (List.mem_zipIdx_iff_getElem?.mp hindex)).1
  rcases supplies_of_accepts haccepts hlt with ⟨param, hparam, heq⟩ | ⟨star, hstar, -, heq⟩
  · show (signature.binding index).Grounded signature _
    rw [heq]
    exact .fixed (List.mem_of_getElem? hparam)
  · show (signature.binding index).Grounded signature _
    rw [heq]
    exact .star _ hstar

/-- Each of them is bound by its place. -/
theorem binding?_ofRule {rule : Rule} (hnodup : rule.variables.Nodup) {index : Nat} {name : String}
    (hname : rule.variables[index]? = some name) :
    (Scope.ofRule signature rule).binding? name = some (signature.binding index) := by
  have hmem : (name, signature.binding index) ∈ (Scope.ofRule signature rule).bindings := by
    refine List.mem_reverse.mpr (List.mem_map.mpr ⟨(name, index), ?_, rfl⟩)
    exact List.mem_zipIdx_iff_getElem?.mpr hname
  cases hfound : (Scope.ofRule signature rule).binding? name with
  | none =>
    have hne := List.lookup_eq_none_iff.mp hfound _ hmem
    simp at hne
  | some found =>
    -- the variable stands at one place only
    obtain ⟨⟨name', index'⟩, hindex, heq⟩ :=
      List.mem_map.mp (List.mem_reverse.mp (mem_of_lookup hfound))
    obtain ⟨rfl, rfl⟩ := Prod.mk.inj heq
    have hname' : rule.variables[index']? = some name' := List.mem_zipIdx_iff_getElem?.mp hindex
    have hlt := (List.getElem?_eq_some_iff.mp hname').1
    rw [(List.getElem?_inj hlt hnodup).mp (hname'.trans hname.symm)]

end Scope

end Grounded

end CausalRules.Imitation
