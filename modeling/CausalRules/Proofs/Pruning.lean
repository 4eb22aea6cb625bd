import CausalRules.Proofs.Precedence

/-!
# Leaving tests out of a chain

Some tests of a condition are settled before the condition is tested, and are left out of it
together with their connective. That is harmless in a chain of `and`, where `true` is neutral, and
wrong next to an `or`.

- `Formula.filterMap`: what remains of a formula when only some tests are kept.
- `Formula.OmittedOutsideOr`: no test that is left out stands inside an `or`, be it of its own chain
  or of a chain around it.
- `Formula.valueOfRest_filterMap`: leaving out true tests then keeps the value.
- `Formula.holds_of_omitted`: in a true formula whose chains nest to the right, those tests are
  true.
-/

namespace CausalRules.Formula

variable {α β γ : Type}

/-! ## Formulas over other tests -/

/-- A formula with every test replaced. -/
def map (f : α → β) : Formula α → Formula β
  | atom test => atom (f test)
  | group inner => group (inner.map f)
  | chain left op right => chain (left.map f) op (right.map f)

@[simp] theorem atoms_map (f : α → β) (g : Formula α) : (g.map f).atoms = g.atoms.map f := by
  induction g with
  | atom a => rfl
  | group inner ih => exact ih
  | chain left op right ihl ihr => simp [map, atoms, ihl, ihr]

/-- A formula over pairs is known from the formulas over their parts. -/
theorem eq_of_map_eq {f g : Formula (α × β)} (hfst : f.map Prod.fst = g.map Prod.fst)
    (hsnd : f.map Prod.snd = g.map Prod.snd) : f = g := by
  induction f generalizing g with
  | atom a =>
    cases g with
    | atom b => rw [Prod.ext (Formula.atom.inj hfst) (Formula.atom.inj hsnd)]
    | group | chain => cases hfst
  | group inner ih =>
    cases g with
    | group inner' => rw [ih (Formula.group.inj hfst) (Formula.group.inj hsnd)]
    | atom | chain => cases hfst
  | chain left op right ihl ihr =>
    cases g with
    | chain left' op' right' =>
      obtain ⟨hl, rfl, hr⟩ := Formula.chain.inj hfst
      obtain ⟨hl', -, hr'⟩ := Formula.chain.inj hsnd
      rw [ihl hl hl', ihr hr hr']
    | atom | group => cases hfst

/-- A formula with its tests replaced is written like it. -/
theorem render_map (test : β → String) (connective : Connective → String) (f : α → β)
    (g : Formula α) : (g.map f).render test connective = g.render (test ∘ f) connective := by
  induction g with
  | atom a => rfl
  | group inner ih => rw [map, render, render, ih]
  | chain left op right ihl ihr => rw [map, render, render, ihl, ihr]

theorem advance_map (holds : β → Bool) (f : α → β) (g : Formula α) (p : Progress) :
    (g.map f).advance holds p = g.advance (holds ∘ f) p := by
  induction g generalizing p with
  | atom a => rfl
  | group inner ih => rw [map, advance, advance, ih]
  | chain left op right ihl ihr => rw [map, advance, advance, ihl, ihr]

theorem value_map (holds : β → Bool) (f : α → β) (g : Formula α) :
    (g.map f).value holds = g.value (holds ∘ f) :=
  congrArg Progress.value (advance_map holds f g .start)

/-- Replacing tests by ones with the same values keeps what a formula is read as. -/
theorem readsAs_map {holds? : β → Option Bool} {f : α → β} {g : Formula α} {b : Bool} :
    (g.map f).ReadsAs holds? b ↔ g.ReadsAs (holds? ∘ f) b := by
  rw [readsAs_iff, readsAs_iff, atoms_map, List.forall_mem_map, value_map]
  rfl

/-- What remains of a formula when only the tests that `keep` answers are kept. A part of which
nothing remains is left out together with its connective. -/
def filterMap (keep : α → Option β) : Formula α → Option (Formula β)
  | atom test => (keep test).map atom
  | group inner => (inner.filterMap keep).map group
  | chain left op right =>
    match left.filterMap keep, right.filterMap keep with
    | some left, some right => some (chain left op right)
    | some only, none | none, some only => some only
    | none, none => none

/-- The tests that remain are those that were kept, in order. -/
theorem atoms_filterMap (keep : α → Option β) (f : Formula α) :
    ((f.filterMap keep).map atoms).getD [] = f.atoms.filterMap keep := by
  induction f with
  | atom a => cases h : keep a <;> simp [filterMap, atoms, h]
  | group inner ih => cases h : inner.filterMap keep <;> simp_all [filterMap, atoms]
  | chain left op right ihl ihr =>
    rw [filterMap, atoms, List.filterMap_append, ← ihl, ← ihr]
    cases left.filterMap keep <;> cases right.filterMap keep <;> simp [atoms]

/-! ## Tests outside every `or` -/

/-- No test that is left out stands inside an `or`. All parts of a chain that holds an `or` are
inside it, and so is everything in their groups; `underOr` says whether the formula itself is. -/
def OmittedOutsideOr (omitted : α → Prop) : (underOr : Bool) → Formula α → Prop
  | underOr, atom test => omitted test → underOr = false
  | underOr, group inner => inner.OmittedOutsideOr omitted underOr
  | underOr, chain left op right =>
    left.OmittedOutsideOr omitted (underOr || (chain left op right).chainHasOr) ∧
      right.OmittedOutsideOr omitted (underOr || (chain left op right).chainHasOr)

section Omitted

variable {omitted : α → Prop}

/-- Fewer tests may be left out. -/
theorem OmittedOutsideOr.mono {omitted' : α → Prop} {f : Formula α} {underOr : Bool}
    (h : f.OmittedOutsideOr omitted underOr) (himp : ∀ a ∈ f.atoms, omitted' a → omitted a) :
    f.OmittedOutsideOr omitted' underOr := by
  induction f generalizing underOr with
  | atom a => exact fun ha => h (himp a (List.mem_singleton_self a) ha)
  | group inner ih => exact ih h himp
  | chain left op right ihl ihr =>
    exact ⟨ihl h.1 fun a ha => himp a (List.mem_append_left _ ha),
      ihr h.2 fun a ha => himp a (List.mem_append_right _ ha)⟩

/-- Inside an `or` nothing is left out. -/
theorem OmittedOutsideOr.not_omitted {f : Formula α} (h : f.OmittedOutsideOr omitted true) :
    ∀ a ∈ f.atoms, ¬ omitted a := by
  induction f with
  | atom a =>
    intro b hb hob
    rw [List.mem_singleton.mp hb] at hob
    cases h hob
  | group inner ih => exact ih h
  | chain left op right ihl ihr =>
    intro a ha
    rcases List.mem_append.mp ha with ha | ha
    · exact ihl h.1 a ha
    · exact ihr h.2 a ha

/-- A formula of which no test is left out remains. -/
theorem exists_filterMap {keep : α → Option β} {f : Formula α}
    (h : ∀ a ∈ f.atoms, keep a ≠ none) : ∃ g, f.filterMap keep = some g := by
  induction f with
  | atom a =>
    obtain ⟨b, hb⟩ := Option.ne_none_iff_exists'.mp (h a (List.mem_singleton_self a))
    exact ⟨atom b, by rw [filterMap, hb]; rfl⟩
  | group inner ih =>
    obtain ⟨g, hg⟩ := ih h
    exact ⟨group g, by rw [filterMap, hg]; rfl⟩
  | chain left op right ihl ihr =>
    obtain ⟨l, hl⟩ := ihl fun a ha => h a (List.mem_append_left _ ha)
    obtain ⟨r, hr⟩ := ihr fun a ha => h a (List.mem_append_right _ ha)
    exact ⟨chain l op r, by rw [filterMap, hl, hr]⟩

/-- A chain of which a side vanishes holds no `or`. -/
theorem chainHasOr_eq_false_of_filterMap {keep : α → Option β} {left right : Formula α}
    {op : Connective} {underOr : Bool}
    (h : (chain left op right).OmittedOutsideOr (fun a => keep a = none) underOr)
    (hside : left.filterMap keep = none ∨ right.filterMap keep = none) :
    (chain left op right).chainHasOr = false := by
  cases hor : (chain left op right).chainHasOr with
  | false => rfl
  | true =>
    obtain ⟨hl, hr⟩ := h
    rw [hor, Bool.or_true] at hl hr
    obtain ⟨l, hl⟩ := exists_filterMap hl.not_omitted
    obtain ⟨r, hr⟩ := exists_filterMap hr.not_omitted
    rcases hside with hside | hside
    · rw [hl] at hside
      cases hside
    · rw [hr] at hside
      cases hside

theorem eq_and_of_chainHasOr {left right : Formula α} {op : Connective}
    (h : (chain left op right).chainHasOr = false) : op = .and := by
  cases op with
  | and => rfl
  | or => simp [chainHasOr] at h

end Omitted

/-! ## The value of what remains -/

/-- The progress after what remains of a formula. -/
def advanceRest (holds : β → Bool) : Option (Formula β) → Progress → Progress
  | none, p => p
  | some f, p => f.advance holds p

/-- The value of what remains of a formula, which is true when nothing remains. -/
def valueOfRest (holds : β → Bool) (rest : Option (Formula β)) : Bool :=
  (advanceRest holds rest .start).value

/-- What remains of a formula is read as a formula, and as true when nothing remains. -/
def ReadsRest (holds : β → Bool) : Option (Formula β) → Bool → Prop
  | some f, b => Reads holds .disjunction f.symbols b
  | none, b => b = true

theorem readsRest_iff {holds : β → Bool} {rest : Option (Formula β)} {b : Bool} :
    ReadsRest holds rest b ↔ valueOfRest holds rest = b := by
  cases rest with
  | none => exact eq_comm
  | some f => exact reads_symbols_iff

/-- What remains takes reading as far as the whole formula does. -/
theorem advanceRest_filterMap {keep : α → Option β} {holds : α → Bool} {holds' : β → Bool}
    {f : Formula α} (underOr : Bool)
    (hor : f.OmittedOutsideOr (fun a => keep a = none) underOr)
    (homitted : ∀ a ∈ f.atoms, keep a = none → holds a = true)
    (hkept : ∀ a ∈ f.atoms, ∀ b, keep a = some b → holds' b = holds a) (p : Progress) :
    advanceRest holds' (f.filterMap keep) p = f.advance holds p := by
  induction f generalizing underOr p with
  | atom a =>
    have ha := List.mem_singleton_self a
    rw [filterMap, advance]
    cases hk : keep a with
    | none =>
      rw [homitted a ha hk, Progress.operand_true]
      rfl
    | some b =>
      rw [← hkept a ha b hk]
      rfl
  | group inner ih =>
    have hinner := ih underOr hor homitted hkept .start
    rw [filterMap, advance, ← hinner]
    cases inner.filterMap keep with
    | none => exact (Progress.operand_true p).symm
    | some g => rfl
  | chain left op right ihl ihr =>
    have hl := ihl _ hor.1 (fun a ha => homitted a (List.mem_append_left _ ha))
      (fun a ha => hkept a (List.mem_append_left _ ha))
    have hr := ihr _ hor.2 (fun a ha => homitted a (List.mem_append_right _ ha))
      (fun a ha => hkept a (List.mem_append_right _ ha))
    -- when a side vanishes, the connective is an `and`, which leaves the progress as it is
    have join_self : left.filterMap keep = none ∨ right.filterMap keep = none →
        ∀ q : Progress, q.join op = q := by
      intro hside q
      rw [eq_and_of_chainHasOr (chainHasOr_eq_false_of_filterMap hor hside)]
      rfl
    rw [filterMap, advance, ← hl, ← hr]
    cases hleft : left.filterMap keep with
    | none =>
      rw [join_self (.inl hleft)]
      cases right.filterMap keep <;> rfl
    | some l =>
      cases hright : right.filterMap keep with
      | none =>
        rw [join_self (.inr hright)]
        rfl
      | some r => rfl

/-- **Leaving out true tests outside every `or` keeps the value.** -/
theorem valueOfRest_filterMap {keep : α → Option β} {holds : α → Bool} {holds' : β → Bool}
    {f : Formula α} (hor : f.OmittedOutsideOr (fun a => keep a = none) false)
    (homitted : ∀ a ∈ f.atoms, keep a = none → holds a = true)
    (hkept : ∀ a ∈ f.atoms, ∀ b, keep a = some b → holds' b = holds a) :
    valueOfRest holds' (f.filterMap keep) = f.value holds :=
  congrArg Progress.value (advanceRest_filterMap false hor homitted hkept .start)

/-! ## True formulas -/

/-- Whether a formula is a chain. -/
def isChain : Formula α → Bool
  | chain .. => true
  | _ => false

/-- Every chain nests to the right: its left part is a test or a group. -/
def RightNested : Formula α → Prop
  | atom _ => True
  | group inner => inner.RightNested
  | chain left _ right => left.isChain = false ∧ left.RightNested ∧ right.RightNested

section RightNested

variable {holds : α → Bool} {omitted : α → Prop}

/-- A test or a group settles nothing. -/
theorem advance_settled {f : Formula α} (hf : f.isChain = false) {p : Progress}
    (hp : p.settled = false) : (f.advance holds p).settled = false := by
  have operand_settled : ∀ b, (p.operand b).settled = false := by
    intro b
    rw [Progress.operand]
    split
    · exact hp
    · exact hp
  cases f with
  | atom a => exact operand_settled _
  | group inner => exact operand_settled _
  | chain => cases hf

/-- A chain without `or` that has failed stays so. -/
theorem advance_failed {f : Formula α} (hnested : f.RightNested) (hor : f.chainHasOr = false) :
    f.advance holds ⟨false, false⟩ = ⟨false, false⟩ := by
  induction f with
  | atom a => rfl
  | group inner => rfl
  | chain left op right _ ihr =>
    obtain ⟨hleft, -, hright⟩ := hnested
    -- a left part that were a chain could hold an `or` of its own
    have hfailed : left.advance holds ⟨false, false⟩ = ⟨false, false⟩ := by
      cases left with
      | atom | group => rfl
      | chain => cases hleft
    rw [advance, hfailed, eq_and_of_chainHasOr hor]
    exact ihr hright (by simp [chainHasOr] at hor; exact hor.2)

/-- A false test outside every `or` makes its chain fail. -/
theorem advance_eq_failed {f : Formula α} (underOr : Bool) (hnested : f.RightNested)
    (hor : f.OmittedOutsideOr omitted underOr) {a : α} (ha : a ∈ f.atoms) (homitted : omitted a)
    (hfalse : holds a = false) {p : Progress} (hp : p.settled = false) :
    f.advance holds p = ⟨false, false⟩ := by
  have operand_false : ∀ {p : Progress}, p.settled = false → p.operand false = ⟨false, false⟩ := by
    rintro ⟨_ | _, _ | _⟩ hp
    · rfl
    · rfl
    · cases hp
    · cases hp
  induction f generalizing underOr p with
  | atom b =>
    rw [List.mem_singleton.mp ha] at hfalse
    rw [advance, hfalse]
    exact operand_false hp
  | group inner ih =>
    rw [advance, ih underOr hnested hor ha rfl]
    exact operand_false hp
  | chain left op right ihl ihr =>
    obtain ⟨hleft, hnl, hnr⟩ := hnested
    -- inside an `or` the test would not be left out
    have hnone : (chain left op right).chainHasOr = false := by
      cases h : (chain left op right).chainHasOr with
      | false => rfl
      | true =>
        rw [OmittedOutsideOr, h, Bool.or_true] at hor
        rcases List.mem_append.mp ha with ha | ha
        · exact absurd homitted (hor.1.not_omitted a ha)
        · exact absurd homitted (hor.2.not_omitted a ha)
    obtain rfl := eq_and_of_chainHasOr hnone
    rw [advance, Progress.join]
    rcases List.mem_append.mp ha with ha | ha
    · -- the left part fails, and no alternative follows
      rw [ihl _ hnl hor.1 ha hp]
      exact advance_failed hnr (by simp [chainHasOr] at hnone; exact hnone)
    · exact ihr _ hnr hor.2 ha (advance_settled hleft hp)

/-- **In a true formula, every test outside of `or` is true.** -/
theorem holds_of_omitted {f : Formula α} (hnested : f.RightNested)
    (hor : f.OmittedOutsideOr omitted false) (hvalue : f.value holds = true) {a : α}
    (ha : a ∈ f.atoms) (homitted : omitted a) : holds a = true := by
  cases h : holds a with
  | true => rfl
  | false =>
    rw [value, advance_eq_failed false hnested hor ha homitted h rfl] at hvalue
    cases hvalue

end RightNested

end CausalRules.Formula
