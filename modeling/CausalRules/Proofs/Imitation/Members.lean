import CausalRules.Proofs.Conjunction
import CausalRules.Proofs.Imitation.Guards
import CausalRules.Proofs.Rule

/-!
# All objects of a type, as methods compare them

A predicate `ALL(t) = [a, b]` compares the objects of a type with a list. A method does so element
by element: a member that is not known yet is bound to the element at its place, and any other
member is compared with it. Nothing asks how many objects there are, unless the list is empty.

- `Scope.Extends`: what a variable is bound to it stays bound to.
- `Scope.denotes_of_bindItems`: each member stands for the element at its place, or is compared
  with it.
- `conjunction?_of_guard`, `members_of_collect`: when a guard without `or` is true, so are these
  comparisons, and the members are the first objects of the type.
- `ofProgram_members`: the same for the methods of a program, where the members are all objects if
  there are no more of them; `unlisted_member` shows that there may be more.
-/

namespace CausalRules.Imitation

open Script (membersName Constant)

namespace Scope

variable {scope after : Scope} {underOr : Bool} {p : Predicate} {c : Condition}

/-! ## Bindings stay -/

/-- What a variable is bound to in one scope it is bound to in another. -/
def Extends (scope after : Scope) : Prop :=
  ∀ name binding, scope.binding? name = some binding → after.binding? name = some binding

theorem Extends.refl (scope : Scope) : scope.Extends scope :=
  fun _ _ h => h

theorem Extends.trans {mid : Scope} (h : scope.Extends mid) (h' : mid.Extends after) :
    scope.Extends after :=
  fun name binding hname => h' name binding (h name binding hname)

theorem extends_add {name : String} (hname : scope.binding? name = none) (binding : Binding) :
    scope.Extends (scope.add name binding) := by
  intro other found hother
  rw [binding?, add, List.lookup_cons]
  by_cases heq : other = name
  · rw [heq, hname] at hother
    cases hother
  · rw [beq_false_of_ne heq]
    exact hother

theorem extends_of_bindItems {sequence : String} {position index : Nat} {items : List Arg}
    {checks : List Check}
    (h : (bindItems sequence underOr position index items scope).result = .ok (after, checks)) :
    scope.Extends after := by
  induction items generalizing index scope checks with
  | nil =>
    obtain ⟨rfl, -⟩ := Prod.mk.inj (pure_eq_ok.mp h)
    exact .refl scope
  | cons item rest ih =>
    rcases bindItems_cons h with
      ⟨name, -, hname, -, h⟩ | ⟨known, checks', -, -, h⟩ | ⟨offset, -, h⟩
    · exact (extends_add hname _).trans (ih h)
    · exact ih h
    · exact ih h

theorem binding?_list (scope : Scope) (typeName name : String) :
    (scope.list typeName).binding? name = scope.binding? name := by
  rw [binding?, list]
  split
  · rfl
  · rfl

theorem extends_of_learns (h : scope.Learns underOr p after) : scope.Extends after := by
  cases h with
  | nothing => exact .refl scope
  | equal _ _ unbound => exact extends_add unbound _
  | @members typeName _ _ _ binds =>
    obtain ⟨learned, checks, residue, hitems, rfl, -⟩ := bindMembers_eq_ok binds
    intro name binding hname
    exact extends_of_bindItems hitems name binding ((binding?_list scope typeName name).trans hname)

theorem extends_of_collect (h : (scope.collect underOr c).result = .ok after) :
    scope.Extends after := by
  refine collect_induction (P := fun s => scope.Extends s) ?_ h (.refl scope)
  intro p _ u s t hlearns hs
  exact hs.trans (extends_of_learns hlearns)

/-- What an argument stands for it stands for in all further scopes. -/
theorem Denotes.mono {arg : Arg} {known : Binding} (h : scope.Denotes arg known)
    (hextends : scope.Extends after) : after.Denotes arg known := by
  cases h with
  | bound h => exact .bound (hextends _ _ h)
  | constant h => exact .constant h

/-- An argument stands for one thing. -/
theorem Denotes.unique {arg : Arg} {known known' : Binding} (h : scope.Denotes arg known)
    (h' : scope.Denotes arg known') : known = known' := by
  cases h with
  | bound h =>
    cases h' with
    | bound h' => exact Option.some.inj (h.symm.trans h')
    | constant h' => cases h'
  | constant h =>
    cases h' with
    | bound h' => cases h
    | constant h' =>
      obtain rfl := Option.some.inj (h.symm.trans h')
      rfl

/-- Each predicate of a condition is read in some scope, which what follows extends and in which
what became of the predicate is settled. -/
theorem exists_step_of_collect (h : (scope.collect underOr c).result = .ok after)
    (hnodup : (c.atoms.map Predicate.position).Nodup) (hp : p ∈ c.atoms) :
    ∃ (u : Bool) (before mid : Scope), (before.bindPredicate u p).result = .ok mid ∧
      mid.Extends after ∧ mid.listed ⊆ after.listed ∧
      after.residue? p.position = mid.residue? p.position := by
  induction c generalizing scope after underOr with
  | atom q =>
    obtain rfl := List.mem_singleton.mp hp
    exact ⟨underOr, scope, after, h, .refl after, List.Subset.refl _, rfl⟩
  | group inner ih => exact ih h hnodup hp
  | chain left op right ihl ihr =>
    obtain ⟨mid, hl, hr⟩ := Trail.bind_eq_ok.mp h
    obtain ⟨hnodupl, hnodupr⟩ := nodup_of_chain hnodup
    rcases List.mem_append.mp hp with hp | hp
    · obtain ⟨u, s, t, hbind, hextends, hlisted, hresidue⟩ := ihl hl hnodupl hp
      exact ⟨u, s, t, hbind, hextends.trans (extends_of_collect hr),
        List.Subset.trans hlisted (listed_subset_of_collect hr),
        (residue?_of_right hnodup hr hp).trans hresidue⟩
    · exact ihr hr hnodupr hp

/-! ## Members -/

/-- A member of a list stands for the element at its place, or for something that is compared with
it. -/
theorem denotes_of_bindItems {sequence : String} {position index : Nat} {items : List Arg}
    {checks : List Check}
    (h : (bindItems sequence underOr position index items scope).result = .ok (after, checks))
    (hitems : ∀ item ∈ items, item.continuation? = none) {i : Nat} {item : Arg}
    (hi : items[i]? = some item) :
    ∃ known, after.Denotes item known ∧ (known = .element sequence (index + i) ∨
      .same (.element sequence (index + i)) known ∈ checks) := by
  induction items generalizing index scope checks i with
  | nil => cases hi
  | cons first rest ih =>
    have hrest := fun arg harg => hitems arg (List.mem_cons_of_mem _ harg)
    have hplace : ∀ i, index + 1 + i = index + (i + 1) := fun i => by omega
    rcases bindItems_cons h with
      ⟨name, rfl, hname, -, hbind⟩ | ⟨known, checks', hdenotes, rfl, hbind⟩ | ⟨offset, rfl, -⟩
    · cases i with
      | zero =>
        obtain rfl := Option.some.inj hi
        refine ⟨_, .bound (extends_of_bindItems hbind name _ ?_), .inl rfl⟩
        rw [binding?, add, List.lookup_cons, beq_self_eq_true]
        rfl
      | succ i =>
        have hlater := ih hbind hrest hi
        rwa [hplace] at hlater
    · cases i with
      | zero =>
        obtain rfl := Option.some.inj hi
        exact ⟨known, hdenotes.mono (extends_of_bindItems hbind), .inr (List.mem_cons_self ..)⟩
      | succ i =>
        obtain ⟨other, hother, hcheck⟩ := ih hbind hrest hi
        rw [hplace] at hcheck
        exact ⟨other, hother, hcheck.imp_right (List.mem_cons_of_mem _)⟩
    · cases hitems _ (List.mem_cons_self ..)

/-- What becomes of a predicate about all objects of a type: the check that there are none for an
empty list, and otherwise the checks of its members, if there are any. -/
theorem residue?_of_bindMembers {typeName : String} {items : List Arg} {position : Nat}
    (h : (scope.bindMembers typeName items underOr position).result = .ok after) :
    ∃ learned checks,
      (bindItems (membersName typeName) underOr position 0 items (scope.list typeName)).result =
        .ok (learned, checks) ∧
      after.bindings = learned.bindings ∧ typeName ∈ after.listed ∧
      (items = [] → after.residue? position =
        some (.replace [.noElements (membersName typeName)])) ∧
      (items ≠ [] → checks = [] ∨ after.residue? position = some (.replace checks)) := by
  rw [result_bindMembers] at h
  obtain ⟨⟨learned, checks⟩, hitems, h⟩ := bind_eq_ok.mp h
  obtain rfl := pure_eq_ok.mp h
  refine ⟨learned, checks, hitems, rfl, ?_, ?_, ?_⟩
  · show typeName ∈ learned.listed
    rw [(listed_of_bindItems hitems).1, list]
    split
    · assumption
    · exact List.mem_append_right _ (List.mem_singleton_self _)
  · rintro rfl
    exact residue?_settle ..
  · intro hne
    cases checks with
    | nil => exact .inl rfl
    | cons check checks =>
      right
      cases items with
      | nil => exact (hne rfl).elim
      | cons => exact residue?_settle ..

/-- A predicate about all objects of a type binds the members of its list. -/
theorem bindMembers_of_enumerates {typeName : String} {items : List Arg}
    (hp : p.Enumerates typeName items) (h : (scope.bindPredicate underOr p).result = .ok after) :
    (scope.bindMembers typeName items underOr p.position).result = .ok after := by
  rcases hp with hp | hp
  · rw [hp] at h
    exact h
  · rw [hp] at h
    exact h

/-- Where checks were left in place of a predicate about all objects of a type, its test is their
conjunction. -/
theorem test_of_enumerates {typeName : String} {items : List Arg} {checks : List Check}
    (hp : p.Enumerates typeName items) (h : scope.residue? p.position = some (.replace checks)) :
    scope.test p = .ok (some (.conjunction checks)) := by
  rcases hp with hp | hp
  · rw [hp, test, h]
    rfl
  · rw [hp, test, h]
    rfl

end Scope

/-! ## True guards -/

section Truth

variable {V : Type} {m : Interpretation V} {scene : Scene V} {frame : Frame V}
  {scope start : Scope} {p : Predicate} {c : Condition}

/-- In a true conjunction every check is true. -/
theorem truth?_of_conjunction? {checks : List Check} (h : conjunction? m frame checks = some true) :
    ∀ check ∈ checks, check.truth? m frame = some true := by
  induction checks with
  | nil => exact nofun
  | cons check rest ih =>
    obtain ⟨b, hb, h⟩ := Option.bind_eq_some_iff.mp h
    cases b with
    | false => cases h
    | true => exact List.forall_mem_cons.mpr ⟨hb, ih h⟩

/-- In a true guard whose condition has no `or`, the checks are true that were left in place of a
predicate about all objects of a type. -/
theorem conjunction?_of_guard {r : Option (Formula Test)} (hformula : scope.formula c = .ok r)
    (hguard : (Guard.ofRest r).truth? m scene frame = some true) (hnested : c.RightNested)
    (hor : c.chainHasOr = false) (hp : p ∈ c.top) {typeName : String} {items : List Arg}
    (henumerates : p.Enumerates typeName items) {checks : List Check}
    (hchecks : scope.residue? p.position = some (.replace checks)) :
    conjunction? m frame checks = some true := by
  have hunit := Scope.unit?_eq_some (Scope.test_of_enumerates henumerates hchecks)
  show (Test.truth? m scene frame ∘ Prod.snd) (p, Test.conjunction checks) = some true
  refine Formula.holds_of_filterMap hnested hor hp hunit fun g hg => ?_
  rw [(Scope.formula_eq_ok hformula).1, Scope.rest, hg] at hguard
  rwa [Option.map_some, Guard.ofRest, Guard.truth?, Formula.value?_map] at hguard

/-- When the checks are true that a predicate about all objects of a type left, each member of its
list has the value of the object at its place, if there is one. -/
theorem members_of_collect (h : (start.collect false c).result = .ok scope)
    (hnodup : (c.atoms.map Predicate.position).Nodup) (hp : p ∈ c.atoms) {typeName : String}
    {items : List Arg} (henumerates : p.Enumerates typeName items)
    (hitems : ∀ item ∈ items, item.continuation? = none)
    (hlists : frame.Lists m scene scope.listed)
    (hchecks : ∀ checks, scope.residue? p.position = some (.replace checks) →
      conjunction? m frame checks = some true) :
    (items = [] → scene.ofType m typeName = []) ∧
      ∀ (i : Nat) item, items[i]? = some item → ∃ known, scope.Denotes item known ∧
        known.value? m frame = (scene.ofType m typeName)[i]? := by
  obtain ⟨u, before, mid, hbind, hextends, hlisted, hresidue⟩ :=
    Scope.exists_step_of_collect h hnodup hp
  rw [hresidue] at hchecks
  obtain ⟨learned, checks, hbound, hbindings, htype, hempty, hchecked⟩ :=
    Scope.residue?_of_bindMembers (Scope.bindMembers_of_enumerates henumerates hbind)
  have hobjects : frame.all? (membersName typeName) = some (scene.ofType m typeName) :=
    hlists typeName (hlisted htype)
  refine ⟨fun hnil => ?_, fun i item hi => ?_⟩
  · have htrue := truth?_of_conjunction? (hchecks _ (hempty hnil)) _ (List.mem_singleton_self _)
    rw [Check.truth?, hobjects] at htrue
    exact List.isEmpty_iff.mp (Option.some.inj htrue)
  · obtain ⟨known, hdenotes, hknown⟩ := Scope.denotes_of_bindItems hbound hitems hi
    rw [Nat.zero_add] at hknown
    have hplace : (Binding.element (membersName typeName) i).value? m frame =
        (scene.ofType m typeName)[i]? := by
      rw [Binding.value?, hobjects]
      rfl
    refine ⟨known, hdenotes.mono fun name binding hname => hextends name binding ?_, ?_⟩
    · rwa [Scope.binding?, hbindings]
    · rcases hknown with rfl | hmem
      · exact hplace
      · have hne : items ≠ [] := fun hnil => by
          rw [hnil] at hi
          cases hi
        rcases hchecked hne with rfl | hreplace
        · cases hmem
        · have htrue := truth?_of_conjunction? (hchecks _ hreplace) _ hmem
          obtain ⟨v, w, hv, hw, heq⟩ := compare_eq_some_iff.mp htrue
          rw [hw, ← (m.compare_equal v w).mp heq, ← hv, hplace]

end Truth

/-! ## Methods -/

/-- **The members of a list are the first objects of its type.** In a program that was read, let a
condition without `or` compare all objects of a type with a list that is written out. When the
guard of its rule is true, each member of the list has the value of the object at its place, and
there is no object if there is no member. So the members have the values of all objects, provided
that there are no more objects than members. -/
theorem ofProgram_members {limits : Limits} {text : String} {program : Program}
    (hread : Program.read limits text = .ok program) {methods : List Method}
    (h : ofProgram program = .ok methods) {rule : Rule} (hrule : rule ∈ program.rules)
    {c : Condition} (hc : rule.condition = some c) (hor : c.chainHasOr = false) {p : Predicate}
    (hp : p ∈ c.top) {typeName : String} {items : List Arg}
    (henumerates : p.Enumerates typeName items)
    (hitems : ∀ item ∈ items, item.continuation? = none) :
    ∃ method ∈ methods, ∃ clause ∈ method.clauses, ∃ scope, method.name = rule.intention.name ∧
      Clause.ofRule method.signature rule = .ok clause ∧
      Clause.scope method.signature rule = .ok scope ∧
      ∀ {V : Type} (m : Interpretation V) (scene : Scene V) (frame : Frame V),
        frame.Lists m scene clause.listed → clause.guard.truth? m scene frame = some true →
        (items = [] → scene.ofType m typeName = []) ∧
        (∀ (i : Nat) item, items[i]? = some item → ∃ known, scope.Denotes item known ∧
          known.value? m frame = (scene.ofType m typeName)[i]?) ∧
        ((scene.ofType m typeName).length ≤ items.length → ∀ v, v ∈ scene.ofType m typeName ↔
          ∃ item ∈ items, ∃ known, scope.Denotes item known ∧ known.value? m frame = some v) := by
  obtain ⟨method, hmethod, hname, clause, hclause, hof⟩ := exists_method_of_rule h hrule
  obtain ⟨scope, hscope, hlisted, -, -, hguard⟩ := Clause.eq_of_ofRule hof
  obtain ⟨r, hformula, hrest⟩ := hguard c hc
  refine ⟨method, hmethod, clause, hclause, scope, hname, hof, hscope, ?_⟩
  intro V m scene frame hlists htrue
  have hcollect : ((Scope.ofRule method.signature rule).collect false c).result = .ok scope := by
    rw [Clause.scope, hc] at hscope
    exact hscope
  have hwell := Program.wellRead_of_read hread hrule hc
  rw [hlisted] at hlists
  rw [hrest] at htrue
  obtain ⟨hempty, hmembers⟩ := members_of_collect hcollect hwell.nodup
    (Formula.mem_atoms_of_mem_top hp) henumerates hitems hlists fun checks hchecks =>
      conjunction?_of_guard hformula htrue hwell.nested hor hp henumerates hchecks
  refine ⟨hempty, hmembers, fun hfew v => ⟨fun hv => ?_, ?_⟩⟩
  · obtain ⟨i, hi⟩ := List.getElem?_of_mem hv
    have hlt : i < items.length := Nat.lt_of_lt_of_le (List.getElem?_eq_some_iff.mp hi).1 hfew
    obtain ⟨known, hdenotes, hknown⟩ := hmembers i items[i] (List.getElem?_eq_getElem hlt)
    exact ⟨_, List.getElem_mem hlt, known, hdenotes, hknown.trans hi⟩
  · rintro ⟨item, hmem, known, hdenotes, hknown⟩
    obtain ⟨i, hi⟩ := List.getElem?_of_mem hmem
    obtain ⟨known', hdenotes', hplace⟩ := hmembers i item hi
    obtain rfl := hdenotes.unique hdenotes'
    exact List.mem_of_getElem? (hplace.symm.trans hknown)

/-- A thing is lifted off a pile of two. -/
def liftingText : String :=
  "RULES \x7b if (ALL(block) = [a, 'top']): clear() := lift('top', a) \x7d"

/-- The predicate of `liftingText`. -/
def twoBlocks : Predicate :=
  .compare (.all "block") .equal (.list [.variable "a", .literal "top"]) 12

/-- The rule of `liftingText`. -/
def lifting : Rule where
  condition := some (.atom twoBlocks)
  intention := ⟨"clear", [], 38⟩
  effects := [⟨"lift", [.literal "top", .variable "a"], 49⟩]
  position := 8

theorem read_liftingText : Program.read ⟨100, 1⟩ liftingText = .ok ⟨[lifting]⟩ := by
  decide +kernel

/-- The pile from below, with what was put on top of it in the end. -/
def pile (more : List Constant) : Scene Constant :=
  (.text "low" :: .text "top" :: more).map fun name => (name, .text "block")

/-- The objects of `pile` as the method lists them. -/
def pileFrame (more : List Constant) : Frame Constant
  | "all_block" => some (.several (.text "low" :: .text "top" :: more))
  | _ => none

/-- The clause of `lifting`. -/
def liftingClause : Clause where
  listed := ["block"]
  guard := .test (.atom (.conjunction
    [.same (.element "all_block" 1) (.constant (.text "top"))]))
  calls := [⟨"lift", [.value (.constant (.text "top")), .value (.element "all_block" 0)], none⟩]

theorem ofProgram_lifting :
    ofProgram ⟨[lifting]⟩ = .ok [⟨"clear", ⟨[], none⟩, [liftingClause]⟩] :=
  rfl

/-- In a pile of two things the variable stands for the other one. -/
theorem lifting_members : ∃ scope, Clause.scope ⟨[], none⟩ lifting = .ok scope ∧
    ∀ v, v ∈ (pile []).ofType .literal "block" ↔
      ∃ item ∈ [.variable "a", .literal "top"], ∃ known, scope.Denotes item known ∧
        known.value? .literal (pileFrame []) = some v := by
  obtain ⟨method, hmethod, clause, hclause, scope, -, -, hscope, hmembers⟩ :=
    ofProgram_members read_liftingText ofProgram_lifting (List.mem_singleton_self lifting) rfl rfl
      (List.mem_singleton_self twoBlocks) (.inl rfl) (by simp [Arg.continuation?])
  obtain rfl := List.mem_singleton.mp hmethod
  obtain rfl := List.mem_singleton.mp hclause
  have hlists : (pileFrame []).Lists .literal (pile []) liftingClause.listed := by
    intro typeName htype
    obtain rfl := List.mem_singleton.mp htype
    rfl
  obtain ⟨-, -, hall⟩ := hmembers .literal (pile []) (pileFrame []) hlists rfl
  exact ⟨scope, hscope, hall (Nat.le_refl 2)⟩

/-- In a pile of three things the guard is true as well, but the third one is no member. -/
theorem unlisted_member : ∃ scope, Program.read ⟨100, 1⟩ liftingText = .ok ⟨[lifting]⟩ ∧
    ofProgram ⟨[lifting]⟩ = .ok [⟨"clear", ⟨[], none⟩, [liftingClause]⟩] ∧
    Clause.scope ⟨[], none⟩ lifting = .ok scope ∧
    (pileFrame [.text "cap"]).Lists .literal (pile [.text "cap"]) liftingClause.listed ∧
    liftingClause.guard.truth? .literal (pile [.text "cap"]) (pileFrame [.text "cap"]) =
      some true ∧
    ¬ ∀ v, v ∈ (pile [.text "cap"]).ofType .literal "block" ↔
      ∃ item ∈ [.variable "a", .literal "top"], ∃ known, scope.Denotes item known ∧
        known.value? .literal (pileFrame [.text "cap"]) = some v := by
  refine ⟨⟨[("a", .element "all_block" 0)], ["block"], [(12, .replace
    [.same (.element "all_block" 1) (.constant (.text "top"))])]⟩, read_liftingText,
    ofProgram_lifting, rfl, ?_, rfl, ?_⟩
  · intro typeName htype
    obtain rfl := List.mem_singleton.mp htype
    rfl
  · intro h
    have hcap : Constant.text "cap" ∈ (pile [.text "cap"]).ofType .literal "block" := by decide
    obtain ⟨item, hitem, known, hdenotes, hknown⟩ := (h _).mp hcap
    rcases List.mem_cons.mp hitem with rfl | hitem
    · obtain rfl := hdenotes.unique (.bound rfl)
      exact absurd hknown (by decide)
    · obtain rfl := List.mem_singleton.mp hitem
      obtain rfl := hdenotes.unique (.constant rfl)
      exact absurd hknown (by decide)

end CausalRules.Imitation
