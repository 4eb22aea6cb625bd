import CausalRules.Proofs.Imitation.Parameters
import CausalRules.Proofs.Imitation.Trails
import CausalRules.Proofs.Reading.Predicates

/-!
# What a scope learns from a condition

The scope of a rule grows while its condition is read. What one predicate can do to it is said once,
by `Scope.Learns`; what a whole condition does follows by induction.

- `Scope.Learns`, `learns_of_bindPredicate`: the steps.
- `collect_induction`: what every step keeps, a condition keeps.
- `Scope.Sound`: each variable that is bound has, through its binding, the value that a valuation
  gives it.
- `Predicate.HoldsInOrder`, `Scope.binders`: what the predicates that bind variables have to say,
  and which they are.
- `sound_ofRule`, `Sound.collect`: the scope of an intention is sound, and remains so.
-/

namespace CausalRules

open Script (membersName Constant)

/-! ## Predicates that bind -/

/-- A predicate says that two arguments are equal, whichever stands first. -/
def Predicate.Equates (p : Predicate) (a b : Arg) : Prop :=
  p = .compare (.value a) .equal (.value b) p.position ∨
    p = .compare (.value b) .equal (.value a) p.position

/-- A predicate says which objects a type has. -/
def Predicate.Enumerates (p : Predicate) (typeName : String) (items : List Arg) : Prop :=
  p = .compare (.all typeName) .equal (.list items) p.position ∨
    p = .compare (.list items) .equal (.all typeName) p.position

/-- What a predicate has to say when it binds variables. A list is compared with the objects of its
type member by member, in their order; the other predicates just hold. -/
def Predicate.HoldsInOrder {V : Type} (m : Interpretation V) (scene : Scene V)
    (ρ : String → V) (p : Predicate) : Prop :=
  match p with
  | .compare (.all typeName) _ (.list items) _ | .compare (.list items) _ (.all typeName) _ =>
    ∀ (i : Nat) name, items[i]? = some (.variable name) →
      (scene.ofType m typeName)[i]? = some (ρ name)
  | p => p.truth? m scene ρ = some true

namespace Imitation

namespace Scope

variable {scope after : Scope} {underOr : Bool} {p : Predicate}

/-! ## Steps -/

/-- What an argument stands for: a variable for what it is bound to, a constant for itself. -/
inductive Denotes (scope : Scope) : Arg → Binding → Prop
  | bound {name : String} {binding : Binding} (h : scope.binding? name = some binding) :
      Denotes scope (.variable name) binding
  | constant {arg : Arg} {value : Constant} (h : arg.constant? = some value) :
      Denotes scope arg (.constant value)

/-- What a predicate may do to a scope. -/
inductive Learns (scope : Scope) (underOr : Bool) (p : Predicate) : Scope → Prop
  | nothing : Learns scope underOr p scope
  | equal {name : String} {arg : Arg} {known : Binding}
      (equates : p.Equates (.variable name) arg) (denotes : scope.Denotes arg known)
      (unbound : scope.binding? name = none) (outside : underOr = false) :
      Learns scope underOr p ((scope.add name known).settle p.position .drop)
  | members {typeName : String} {items : List Arg} {after : Scope}
      (enumerates : p.Enumerates typeName items)
      (binds : (scope.bindMembers typeName items underOr p.position).result = .ok after) :
      Learns scope underOr p after

theorem learns_of_bindEqual {a b : String} {position : Nat}
    (hp : p = .compare (.value (.variable a)) .equal (.value (.variable b)) position)
    (h : (scope.bindEqual a b underOr position).result = .ok after) :
    scope.Learns underOr p after := by
  subst hp
  unfold bindEqual at h
  split at h
  · obtain rfl := pure_eq_ok.mp h
    exact .nothing
  · rename_i known ha hb
    obtain ⟨hor, rfl⟩ := eq_settle_of_bindAndDrop h
    exact .equal (.inr rfl) (.bound ha) hb hor
  · rename_i known ha hb
    obtain ⟨hor, rfl⟩ := eq_settle_of_bindAndDrop h
    exact .equal (.inl rfl) (.bound hb) ha hor
  · cases h

theorem learns_of_bindConstant {name : String} {arg : Arg}
    (hp : p.Equates (.variable name) arg)
    (h : (scope.bindConstant name arg underOr p.position).result = .ok after) :
    scope.Learns underOr p after := by
  unfold bindConstant at h
  split at h
  · rename_i value hname harg
    obtain ⟨hor, rfl⟩ := eq_settle_of_bindAndDrop h
    exact .equal hp (.constant harg) hname hor
  · obtain rfl := pure_eq_ok.mp h
    exact .nothing

/-- **A predicate does to a scope what `Learns` says.** -/
theorem learns_of_bindPredicate (h : (scope.bindPredicate underOr p).result = .ok after) :
    scope.Learns underOr p after := by
  unfold bindPredicate at h
  split at h
  · obtain rfl := pure_eq_ok.mp h
    exact .nothing
  · rename_i left op right position
    split at h
    · split at h
      · rename_i hop
        subst hop
        exact .members (.inl rfl) h
      · cases h
    · split at h
      · rename_i hop
        subst hop
        exact .members (.inr rfl) h
      · cases h
    · cases h
    · cases h
    · split at h
      · rename_i hop
        subst hop
        exact learns_of_bindEqual rfl h
      · obtain rfl := pure_eq_ok.mp h
        exact .nothing
    · split at h
      · rename_i hop
        subst hop
        exact learns_of_bindConstant (.inl rfl) h
      · obtain rfl := pure_eq_ok.mp h
        exact .nothing
    · split at h
      · rename_i hop
        subst hop
        exact learns_of_bindConstant (.inr rfl) h
      · obtain rfl := pure_eq_ok.mp h
        exact .nothing
    · obtain rfl := pure_eq_ok.mp h
      exact .nothing

/-- What every step keeps, a condition keeps. -/
theorem collect_induction {P : Scope → Prop} {c : Condition}
    (hstep : ∀ p ∈ c.atoms, ∀ (u : Bool) (s t : Scope), s.Learns u p t → P s → P t)
    (h : (scope.collect underOr c).result = .ok after) (hstart : P scope) : P after := by
  induction c generalizing scope after underOr with
  | atom p =>
    exact hstep p (List.mem_singleton_self p) _ _ _ (learns_of_bindPredicate h) hstart
  | group inner ih => exact ih hstep h hstart
  | chain left op right ihl ihr =>
    obtain ⟨mid, hl, hr⟩ := Trail.bind_eq_ok.mp h
    have hmid := ihl (fun p hp => hstep p (List.mem_append_left _ hp)) hl hstart
    exact ihr (fun p hp => hstep p (List.mem_append_right _ hp)) hr hmid

/-! ## Lists -/

section Items

variable {sequence : String} {position index : Nat} {items : List Arg} {checks : List Check}

/-- A member of a list is bound, leaves a check, or stands for further members. -/
theorem bindItems_cons {item : Arg} {rest : List Arg}
    (h : (bindItems sequence underOr position index (item :: rest) scope).result =
      .ok (after, checks)) :
    (∃ name, item = .variable name ∧ scope.binding? name = none ∧ underOr = false ∧
      (bindItems sequence underOr position (index + 1) rest
        (scope.add name (.element sequence index))).result = .ok (after, checks)) ∨
    (∃ known checks', scope.Denotes item known ∧
      checks = .same (.element sequence index) known :: checks' ∧
      (bindItems sequence underOr position (index + 1) rest scope).result = .ok (after, checks')) ∨
    (∃ offset, item = .continuation offset ∧
      (bindItems sequence underOr position (index + 1) rest scope).result = .ok (after, checks)) := by
  have leaves_check : ∀ {item : Arg} {rest : List Arg} {known : Binding},
      scope.Denotes item known →
      addCheck (.same (.element sequence index) known) <$>
        (bindItems sequence underOr position (index + 1) rest scope).result = .ok (after, checks) →
      ∃ known checks', scope.Denotes item known ∧
        checks = .same (.element sequence index) known :: checks' ∧
        (bindItems sequence underOr position (index + 1) rest scope).result = .ok (after, checks') := by
    intro item rest known hdenotes h
    obtain ⟨⟨s, checks'⟩, hrest, heq⟩ := map_eq_ok.mp h
    obtain ⟨rfl, rfl⟩ := Prod.mk.inj heq
    exact ⟨known, checks', hdenotes, rfl, hrest⟩
  unfold bindItems at h
  split at h
  · rename_i heq
    cases heq
  · rename_i heq
    obtain ⟨rfl, rfl⟩ := List.cons.inj heq
    split at h
    · rename_i hsome
      exact .inr (.inl (leaves_check (.bound hsome) h))
    · rename_i hnone
      obtain ⟨bound, hbind, h⟩ := Trail.bind_eq_ok.mp h
      obtain ⟨hor, rfl⟩ := eq_add_of_bind hbind
      exact .inl ⟨_, rfl, hnone, hor, h⟩
  · rename_i heq
    obtain ⟨rfl, rfl⟩ := List.cons.inj heq
    exact .inr (.inl (leaves_check (.constant rfl) h))
  · rename_i heq
    obtain ⟨rfl, rfl⟩ := List.cons.inj heq
    exact .inr (.inl (leaves_check (.constant rfl) h))
  · rename_i heq
    obtain ⟨rfl, rfl⟩ := List.cons.inj heq
    exact .inr (.inr ⟨_, rfl, h⟩)
  · cases h
  · cases h

/-- Binding members touches neither the lists of objects nor what becomes of predicates. -/
theorem listed_of_bindItems
    (h : (bindItems sequence underOr position index items scope).result = .ok (after, checks)) :
    after.listed = scope.listed ∧ after.residues = scope.residues := by
  induction items generalizing index scope checks with
  | nil =>
    obtain ⟨rfl, -⟩ := Prod.mk.inj (pure_eq_ok.mp h)
    exact ⟨rfl, rfl⟩
  | cons item rest ih =>
    rcases bindItems_cons h with ⟨name, -, -, -, h⟩ | ⟨known, checks', -, -, h⟩ | ⟨offset, -, h⟩
    · obtain ⟨hlisted, hresidues⟩ := ih h
      exact ⟨hlisted, hresidues⟩
    · exact ih h
    · exact ih h

/-- Members of a list are bound to the elements at their places. -/
theorem binding_of_bindItems
    (h : (bindItems sequence underOr position index items scope).result = .ok (after, checks))
    {name : String} {binding : Binding} (hname : after.binding? name = some binding) :
    scope.binding? name = some binding ∨
      ∃ i, items[i]? = some (.variable name) ∧ binding = .element sequence (index + i) := by
  induction items generalizing index scope checks with
  | nil =>
    obtain ⟨rfl, -⟩ := Prod.mk.inj (pure_eq_ok.mp h)
    exact .inl hname
  | cons item rest ih =>
    -- a place in the rest of the list is one further in the list
    have later : ∀ {s : Scope}, (s.binding? name = some binding ∨
        ∃ i, rest[i]? = some (.variable name) ∧ binding = .element sequence (index + 1 + i)) →
        s.binding? name = some binding ∨ ∃ i, (item :: rest)[i]? = some (.variable name) ∧
          binding = .element sequence (index + i) := by
      rintro s (hs | ⟨i, hi, rfl⟩)
      · exact .inl hs
      · exact .inr ⟨i + 1, hi, by rw [Nat.add_right_comm, Nat.add_assoc]⟩
    rcases bindItems_cons h with
      ⟨name', rfl, -, -, h⟩ | ⟨known, checks', -, -, h⟩ | ⟨offset, -, h⟩
    · -- the binding is that of the first member, or was there before
      rcases later (ih h) with hs | hi
      · rw [binding?, add, List.lookup_cons] at hs
        by_cases heq : name = name'
        · rw [heq, beq_self_eq_true] at hs
          obtain rfl := Option.some.inj hs
          exact .inr ⟨0, by rw [heq]; rfl, rfl⟩
        · rw [beq_false_of_ne heq] at hs
          exact .inl hs
      · exact .inr hi
    · exact later (ih h)
    · exact later (ih h)

/-- Inside an `or` every member of a list leaves a check, unless it stands for further members. -/
theorem continuation_of_bindItems
    (h : (bindItems sequence true position index items scope).result = .ok (after, [])) :
    ∀ item ∈ items, ∃ offset, item = .continuation offset := by
  induction items generalizing index with
  | nil => exact nofun
  | cons item rest ih =>
    rcases bindItems_cons h with
      ⟨name, -, -, hor, -⟩ | ⟨known, checks', -, heq, -⟩ | ⟨offset, hitem, h⟩
    · cases hor
    · cases heq
    · exact List.forall_mem_cons.mpr ⟨⟨offset, hitem⟩, ih h⟩

end Items

/-- What binding the members of a list comes to. -/
theorem bindMembers_eq_ok {typeName : String} {items : List Arg} {position : Nat}
    (h : (scope.bindMembers typeName items underOr position).result = .ok after) :
    ∃ learned checks residue,
      (bindItems (membersName typeName) underOr position 0 items (scope.list typeName)).result =
        .ok (learned, checks) ∧
      after = learned.settle position residue ∧
      (residue = .drop → items ≠ [] ∧ checks = []) := by
  rw [result_bindMembers] at h
  obtain ⟨⟨learned, checks⟩, hitems, h⟩ := bind_eq_ok.mp h
  obtain rfl := pure_eq_ok.mp h
  refine ⟨learned, checks, _, hitems, rfl, ?_⟩
  intro hdrop
  cases items with
  | nil => cases hdrop
  | cons item rest =>
    refine ⟨List.cons_ne_nil _ _, ?_⟩
    cases checks with
    | nil => rfl
    | cons => cases hdrop

/-! ## Listed types -/

/-- A type that is listed stays so. -/
theorem listed_subset_of_learns (h : scope.Learns underOr p after) :
    scope.listed ⊆ after.listed := by
  cases h with
  | nothing => exact List.Subset.refl _
  | equal => exact List.Subset.refl _
  | members _ binds =>
    obtain ⟨learned, checks, residue, hitems, rfl, -⟩ := bindMembers_eq_ok binds
    show scope.listed ⊆ learned.listed
    rw [(listed_of_bindItems hitems).1, list]
    split
    · exact List.Subset.refl _
    · exact List.subset_append_left _ _

theorem listed_subset_of_collect {c : Condition}
    (h : (scope.collect underOr c).result = .ok after) : scope.listed ⊆ after.listed := by
  refine collect_induction (P := fun s => scope.listed ⊆ s.listed) ?_ h (List.Subset.refl _)
  intro p _ u s t hlearns hs
  exact List.Subset.trans hs (listed_subset_of_learns hlearns)

/-! ## Soundness -/

section Sound

variable {V : Type} (m : Interpretation V) (scene : Scene V) (frame : Frame V) (ρ : String → V)

/-- Every variable that is bound has the value that a valuation gives it. -/
def Sound (scope : Scope) : Prop :=
  ∀ name binding, scope.binding? name = some binding → binding.value? m frame = some (ρ name)

/-- The predicates of a condition that bind variables. -/
def binders (scope : Scope) (underOr : Bool) : Condition → List Predicate
  | .atom p =>
    match (scope.bindPredicate underOr p).result with
    | .ok after => if after.bindings = scope.bindings then [] else [p]
    | .error _ => []
  | .group inner => scope.binders underOr inner
  | .chain left op right =>
    let underOr := underOr || (Formula.chain left op right).chainHasOr
    scope.binders underOr left ++
      match (scope.collect underOr left).result with
      | .ok after => after.binders underOr right
      | .error _ => []

variable {m scene frame ρ}

theorem Sound.congr (h : scope.Sound m frame ρ) (heq : after.bindings = scope.bindings) :
    after.Sound m frame ρ := by
  intro name binding hname
  exact h name binding (by rw [binding?, ← heq]; exact hname)

theorem Sound.add (h : scope.Sound m frame ρ) {name : String} {binding : Binding}
    (hvalue : binding.value? m frame = some (ρ name)) :
    (scope.add name binding).Sound m frame ρ := by
  intro other found hother
  rw [binding?, Scope.add, List.lookup_cons] at hother
  by_cases heq : other = name
  · rw [heq, beq_self_eq_true] at hother
    rw [heq, ← Option.some.inj hother]
    exact hvalue
  · rw [beq_false_of_ne heq] at hother
    exact h other found hother

/-- What an argument stands for has its value. -/
theorem Sound.value?_of_denotes (h : scope.Sound m frame ρ) {arg : Arg} {known : Binding}
    (hdenotes : scope.Denotes arg known) : known.value? m frame = arg.value? m ρ := by
  cases hdenotes with
  | bound hname => exact h _ _ hname
  | constant hvalue => exact (Arg.value?_of_constant? hvalue).symm

/-- A predicate that holds and says that two arguments are equal is right. -/
theorem eq_of_equates {a b : Arg} (hp : p.Equates a b) (h : p.HoldsInOrder m scene ρ) :
    a.value? m ρ = b.value? m ρ := by
  have equal : ∀ {a b : Arg} {position : Nat},
      (Predicate.compare (.value a) .equal (.value b) position).HoldsInOrder m scene ρ →
      a.value? m ρ = b.value? m ρ := by
    intro a b position h
    have htruth : m.compare .equal <$> a.value? m ρ <*> b.value? m ρ = some true := h
    obtain ⟨v, w, hv, hw, heq⟩ := compare_eq_some_iff.mp htruth
    rw [hv, hw, (m.compare_equal v w).mp heq]
  rcases hp with hp | hp
  · rw [hp] at h
    exact equal h
  · rw [hp] at h
    exact (equal h).symm

/-- The members of a list are the objects at their places. -/
theorem getElem?_of_enumerates {typeName : String} {items : List Arg}
    (hp : p.Enumerates typeName items) (h : p.HoldsInOrder m scene ρ) {i : Nat} {name : String}
    (hi : items[i]? = some (.variable name)) :
    (scene.ofType m typeName)[i]? = some (ρ name) := by
  rcases hp with hp | hp
  · rw [hp] at h
    exact h i name hi
  · rw [hp] at h
    exact h i name hi

/-- A step keeps a scope sound, if its predicate holds in case it binds variables. -/
theorem Sound.of_learns (h : scope.Sound m frame ρ) (hlearns : scope.Learns underOr p after)
    (hlists : frame.Lists m scene after.listed)
    (hbinder : after.bindings ≠ scope.bindings → p.HoldsInOrder m scene ρ) :
    after.Sound m frame ρ := by
  by_cases heq : after.bindings = scope.bindings
  · exact h.congr heq
  have hholds := hbinder heq
  cases hlearns with
  | nothing => exact h
  | equal equates denotes =>
    have hadd := h.add ((h.value?_of_denotes denotes).trans (eq_of_equates equates hholds).symm)
    exact hadd.congr rfl
  | @members typeName items _ enumerates binds =>
    obtain ⟨learned, checks, residue, hitems, rfl, -⟩ := bindMembers_eq_ok binds
    -- the objects of the type are listed, because the predicate is about them
    have hsequence : frame.all? (membersName typeName) = some (scene.ofType m typeName) := by
      refine hlists typeName ?_
      show typeName ∈ learned.listed
      rw [(listed_of_bindItems hitems).1, list]
      split
      · assumption
      · exact List.mem_append_right _ (List.mem_singleton_self _)
    intro name binding hname
    rcases binding_of_bindItems hitems hname with hold | ⟨i, hi, rfl⟩
    · refine h name binding ?_
      rw [list] at hold
      split at hold
      · exact hold
      · exact hold
    · rw [Binding.value?, hsequence, Nat.zero_add]
      exact getElem?_of_enumerates enumerates hholds hi

/-- **A condition keeps a scope sound**, if those of its predicates hold that bind variables. -/
theorem Sound.collect {c : Condition} (hsound : scope.Sound m frame ρ)
    (h : (scope.collect underOr c).result = .ok after) (hlists : frame.Lists m scene after.listed)
    (hholds : ∀ p ∈ scope.binders underOr c, p.HoldsInOrder m scene ρ) :
    after.Sound m frame ρ := by
  induction c generalizing scope after underOr with
  | atom p =>
    refine hsound.of_learns (learns_of_bindPredicate h) hlists fun hne => hholds p ?_
    have hbind : (scope.bindPredicate underOr p).result = .ok after := h
    rw [binders, hbind]
    show p ∈ if after.bindings = scope.bindings then [] else [p]
    rw [if_neg hne]
    exact List.mem_singleton_self p
  | group inner ih => exact ih hsound h hlists hholds
  | chain left op right ihl ihr =>
    -- the right part is read in the scope that the left part leaves, and lists no fewer types
    obtain ⟨mid, hl, hr⟩ := Trail.bind_eq_ok.mp h
    rw [binders, hl] at hholds
    have hmid := ihl hsound hl (fun t ht => hlists t (listed_subset_of_collect hr ht))
      fun p hp => hholds p (List.mem_append_left _ hp)
    exact ihr hmid hr hlists fun p hp => hholds p (List.mem_append_right _ hp)

/-- The scope of an intention is sound when the parameters hold what its variables stand for. -/
theorem sound_ofRule {signature : Signature} {rule : Rule}
    (haccepts : signature.Accepts rule.variables.length)
    (hreceives : signature.Receives frame (rule.variables.map ρ)) :
    (Scope.ofRule signature rule).Sound m frame ρ := by
  intro name binding hname
  have hmem := List.mem_reverse.mp (mem_of_lookup hname)
  obtain ⟨⟨name', index⟩, hindex, heq⟩ := List.mem_map.mp hmem
  obtain ⟨rfl, rfl⟩ := Prod.mk.inj heq
  refine value?_of_binding ?_ hreceives ?_
  · rw [List.length_map]
    exact haccepts
  · rw [List.getElem?_map, Rule.variables, List.mem_zipIdx_iff_getElem?.mp hindex]
    rfl

end Sound

end Scope

end Imitation

end CausalRules
