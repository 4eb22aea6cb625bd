import CausalRules.Proofs.Facility.Blocks
import CausalRules.Proofs.Imitation.Replaying

/-!
# Replaying inverts explaining

A facility block explains observed effects by an intention, and an imitation method replays an
intention as effects. For a plain rule that is the only one of its intention, the two are inverse to
each other: where the condition of the rule is true, the block explains the effects by the
intention, and the method declared for the intention replays these effects.

- `observes_of_values`: observing the effects is observing what the variables stand for.
- `Block.run?_of_means`: explaining.
- `declared?`, `ofRules_of_declared`: the method that is called.
- `replay_inverts_explain`: both, for a program that was read.
-/

namespace CausalRules

variable {V : Type} {m : Interpretation V} {scene : Scene V} {ρ : String → V} {rule : Rule}

/-! ## Explaining -/

namespace Facility

/-- Observing the effects of a rule is observing what its variables stand for. -/
theorem observes_of_values {effects : List Action} {observed : List (String × List V)}
    (h : effects.mapM (Action.value? m ρ) = some observed) :
    observed.map Prod.fst = effects.map Action.name ∧
      Observes effects ρ (observed.map Prod.snd) := by
  have hvalues := mapM_eq_some_iff.mp h
  refine ⟨?_, ?_⟩
  · clear h
    induction hvalues with
    | nil => rfl
    | cons hvalue _ ih =>
      obtain ⟨values, -, rfl⟩ := Option.map_eq_some_iff.mp hvalue
      rw [List.map_cons, List.map_cons, ih]
  · -- argument `j` of effect `i` is value `j` of the action observed in place `i`
    intro i j effect name heffect harg
    obtain ⟨pair, hpair, hvalue⟩ := getElem?_of_forall₂ hvalues heffect
    obtain ⟨values, hargs, rfl⟩ := Option.map_eq_some_iff.mp hvalue
    obtain ⟨v, hv, hname⟩ := getElem?_of_forall₂ (mapM_eq_some_iff.mp hargs) harg
    rw [Slot.value?, List.getElem?_map, hpair]
    show values[j]? = some (ρ name)
    rw [hv, ← hname]
    rfl

/-- **Explaining**: where the condition is true, the block adds the intention as a cause of the
effects. -/
theorem Block.run?_of_means {block : Block} (h : Block.ofRule rule = .ok block)
    (hexplicit : rule.Explicit)
    (hmeans : ∀ c, rule.condition = some c → c.Means m scene ρ true)
    {observed : List (String × List V)}
    (hobserved : rule.effects.mapM (Action.value? m ρ) = some observed) :
    ∃ args, rule.intention.value? m ρ = some (rule.intention.name, args) ∧
      block.run? m scene observed = some [(rule.intention.name, args)] := by
  obtain ⟨hnames, hobserves⟩ := observes_of_values hobserved
  obtain ⟨heffects, hname, -, hguard⟩ := eq_of_ofRule h
  obtain ⟨args, hargs, htuple⟩ := tuple?_of_ofRule (m := m) h hexplicit hobserves
  rw [hname] at hargs
  have hholds : block.holds? m scene (observed.map Prod.snd) = some true := by
    cases hc : rule.condition with
    | none =>
      rw [hc] at hguard
      have hnone : block.guard = none := (pure_eq_ok.mp hguard).symm
      rw [Block.holds?, Block.store?, Block.setup, hnone]
      rfl
    | some c =>
      obtain ⟨g, hg, hiff⟩ := means_iff_of_ofRule m scene h hexplicit hobserves hc
      obtain ⟨store, hstore, hreads⟩ := (hiff true).mp (hmeans c hc)
      rw [Block.holds?, hstore, hg]
      exact hreads.value?
  refine ⟨args, hargs, ?_⟩
  rw [Block.run?, if_pos (hnames.trans heffects.symm), hholds, hname, htuple]
  rfl

end Facility

/-! ## Replaying -/

namespace Imitation

/-- The method that a name is declared for: a later declaration replaces an earlier one. -/
def declared? (methods : List Method) (name : String) : Option Method :=
  methods.reverse.find? fun method => method.name = name

/-- The method declared for an intention is made from the rules of that intention. -/
theorem ofRules_of_declared {program : Program} {methods : List Method}
    (h : ofProgram program = .ok methods) (hrule : rule ∈ program.rules) :
    ∃ method, declared? methods rule.intention.name = some method ∧
      Method.ofRules rule.intention.name (rulesOf program.rules rule.intention.name) =
        .ok method := by
  obtain ⟨named, hnamed, hname, -⟩ := exists_method_of_rule h hrule
  have hsome : (declared? methods rule.intention.name).isSome := by
    rw [declared?, List.find?_isSome]
    exact ⟨named, List.mem_reverse.mpr hnamed, decide_eq_true hname⟩
  obtain ⟨method, hmethod⟩ := Option.isSome_iff_exists.mp hsome
  refine ⟨method, hmethod, ?_⟩
  -- whichever declaration of the name is found, it is made from the same rules
  rw [declared?] at hmethod
  have hmem := List.mem_reverse.mp (List.mem_of_find?_eq_some hmethod)
  have hfound := List.find?_some hmethod
  have hmethodName : method.name = rule.intention.name := of_decide_eq_true hfound
  obtain ⟨name, -, hof⟩ := exists_of_forall₂ (ofRules_of_ofProgram h).flip hmem
  obtain ⟨hnameEq, -, -⟩ := eq_of_ofRules hof
  rw [← hmethodName, hnameEq]
  exact hof

end Imitation

/-- **Replaying inverts explaining.** Where the condition of a rule is true, its block explains the
effects by the intention; and the method declared for the intention, called with the arguments that
were explained, passes its guard and returns the effects. -/
theorem replay_inverts_explain {limits : Limits} {text : String} {program : Program}
    (hread : Program.read limits text = .ok program) {blocks : List Facility.Block}
    (hblocks : Facility.ofProgram program = .ok blocks) {methods : List Imitation.Method}
    (hmethods : Imitation.ofProgram program = .ok methods) {n : Nat} {rule : Rule}
    (hrule : program.rules[n]? = some rule) (hplain : rule.Plain)
    (honly : Imitation.rulesOf program.rules rule.intention.name = [rule])
    (m : Interpretation V) (scene : Scene V) (ρ : String → V)
    (hmeans : ∀ c, rule.condition = some c → c.Means m scene ρ true) :
    ∃ effects args block method clause,
      rule.effects.mapM (Action.value? m ρ) = some effects ∧
      rule.intention.value? m ρ = some (rule.intention.name, args) ∧
      blocks[n]? = some block ∧
      block.run? m scene effects = some [(rule.intention.name, args)] ∧
      Imitation.declared? methods rule.intention.name = some method ∧
      method.signature.star = none ∧ method.signature.Accepts args.length ∧
      method.clauses = [clause] ∧ clause.listed = [] ∧
      ∀ frame, method.signature.Receives frame args →
        clause.run? m scene frame = some (some effects) := by
  have hmem := List.mem_of_getElem? hrule
  obtain ⟨block, hblock, hof⟩ := getElem?_of_forall₂ (mapM_eq_ok_iff.mp hblocks) hrule
  obtain ⟨method, hdeclared, hofRules⟩ := Imitation.ofRules_of_declared hmethods hmem
  rw [honly] at hofRules
  obtain ⟨effects, args, clause, heffects, hargs, hmethod⟩ :=
    Imitation.Clause.run?_of_means hofRules hplain
      (fun c hc => Program.wellRead_of_read hread hmem hc) hmeans
  obtain ⟨args', hargs', hrun⟩ :=
    Facility.Block.run?_of_means hof hplain.toExplicit hmeans heffects
  -- both scripts speak of the one value that the intention has
  obtain rfl : args' = args := by
    rw [hargs] at hargs'
    exact (Prod.mk.inj (Option.some.inj hargs')).2.symm
  exact ⟨effects, args', block, method, clause, heffects, hargs, hblock, hrun, hdeclared, hmethod⟩

open Script (Constant) in
/-- Putting a red thing into a box is explained as packing, and packing it again does the same. -/
theorem packing_replayed :
    let ρ : String → Constant := fun name =>
      if name = "c" then .text "red" else if name = "b" then .text "box1" else .text "ball"
    let effects : List (String × List Constant) :=
      [("take", [.text "ball", .text "red"]), ("put", [.text "box1", .text "ball"])]
    ∃ blocks methods block method clause,
      Facility.ofProgram ⟨[Imitation.packing]⟩ = .ok blocks ∧
      Imitation.ofProgram ⟨[Imitation.packing]⟩ = .ok methods ∧ blocks[0]? = some block ∧
      block.run? .literal [(.text "box1", .text "box")] effects =
        some [("pack", [ρ "b", ρ "x"])] ∧
      Imitation.declared? methods "pack" = some method ∧ method.clauses = [clause] ∧
      clause.run? .literal [(.text "box1", .text "box")] (fun name => some (.single (ρ name))) =
        some (some effects) := by
  intro ρ effects
  obtain ⟨blocks, hblocks⟩ : ∃ blocks, Facility.ofProgram ⟨[Imitation.packing]⟩ = .ok blocks :=
    ⟨_, rfl⟩
  obtain ⟨clauses, hmethods⟩ : ∃ clauses, Imitation.ofProgram ⟨[Imitation.packing]⟩ =
      .ok [⟨"pack", ⟨["b", "x"], none⟩, clauses⟩] := ⟨_, rfl⟩
  have hplain : Imitation.packing.Plain := by
    refine ⟨⟨by decide, ?_⟩, by decide, ?_⟩
    · intro c hc
      obtain rfl := Option.some.inj hc
      exact List.forall_mem_cons.mpr ⟨⟨trivial, trivial⟩, List.forall_mem_cons.mpr
        ⟨⟨trivial, trivial⟩, List.forall_mem_singleton.mpr ⟨trivial, trivial⟩⟩⟩
    · intro c hc
      obtain rfl := Option.some.inj hc
      refine List.forall_mem_cons.mpr ⟨?_, List.forall_mem_cons.mpr
        ⟨?_, List.forall_mem_singleton.mpr ?_⟩⟩ <;>
      · rintro typeName items (h | h) <;> cases h
  have hmeans : ∀ c, Imitation.packing.condition = some c →
      c.Means .literal [(.text "box1", .text "box")] ρ true := by
    intro c hc
    obtain rfl := Option.some.inj hc
    refine Formula.readsAs_iff.mpr ⟨?_, rfl⟩
    exact List.forall_mem_cons.mpr ⟨⟨true, rfl⟩, List.forall_mem_cons.mpr
      ⟨⟨true, rfl⟩, List.forall_mem_singleton.mpr ⟨false, rfl⟩⟩⟩
  obtain ⟨effects', args, block, method, clause, heffects, hargs, hblock, hrun, hdeclared, -, -,
    hclauses, -, hreplay⟩ := replay_inverts_explain Imitation.read_packingText hblocks hmethods
      (show [Imitation.packing][0]? = some _ from rfl) hplain rfl .literal
      [(.text "box1", .text "box")] ρ hmeans
  obtain rfl : effects = effects' := Option.some.inj heffects
  obtain rfl : [ρ "b", ρ "x"] = args := (Prod.mk.inj (Option.some.inj hargs)).2
  refine ⟨blocks, _, block, method, clause, hblocks, hmethods, hblock, hrun, hdeclared, hclauses,
    ?_⟩
  refine hreplay _ ?_
  obtain rfl := Option.some.inj hdeclared
  refine ⟨?_, nofun⟩
  rintro (_ | _ | i) param value hparam hvalue
  · cases hparam
    cases hvalue
    rfl
  · cases hparam
    cases hvalue
    rfl
  · cases hparam

end CausalRules
