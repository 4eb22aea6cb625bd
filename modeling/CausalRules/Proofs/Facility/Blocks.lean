import CausalRules.Proofs.Facility.Tuples
import CausalRules.Proofs.Pruning

/-!
# Facility blocks mean their rules

A block computes what its tests need before it tests its condition, each value once. So a test takes
from the store of the block what it would compute on the spot.

- `exists_runSetups_iff`, `store_eq_of_runSetups`: when setups run through, and what the store then
  holds;
- `truth?_congr`, `exists_of_truth?`: what a test depends on, and what it needs;
- `means_iff_of_guard`: the condition of the rule means what is left to test after the setups;
- `guardText`, `tupleText`, `mem_lines_guardText`, `mem_lines_tupleText`: what is written of a block,
  by its symbols;
- `ofProgram_means`: all of it, for every block of a program.

Setups run before the test and run all, so a type that is missing from the state fails the block
even where the test would not come to it. The meaning of a condition is strict in the same way.
-/

namespace CausalRules.Facility

open Script (Constant ReadsTuple)

variable {V : Type} {m : Interpretation V} {scene : Scene V} {ρ : String → V}
  {arguments : List (List V)} {effects : List Action} {slots : Slots}

/-! ## Setups -/

/-- Setups run through when each of them has a value. -/
theorem exists_runSetups_iff {setups : List Setup} :
    (∃ store, runSetups m scene arguments setups = some store) ↔
      ∀ setup ∈ setups, ∃ content, setup.value? m scene arguments = some content := by
  have hkeyed : ∀ setup : Setup, (∃ content, setup.value? m scene arguments = some content) ↔
      ∃ pair, (setup, ·) <$> setup.value? m scene arguments = some pair := by
    intro setup
    cases setup.value? m scene arguments <;> simp
  simp only [hkeyed]
  rw [← exists_mapM_eq_some_iff]
  unfold runSetups
  constructor
  · rintro ⟨store, h⟩
    obtain ⟨computed, hcomputed, -⟩ := Option.bind_eq_some_iff.mp h
    exact ⟨computed, hcomputed⟩
  · rintro ⟨computed, hcomputed⟩
    exact ⟨_, Option.bind_eq_some_iff.mpr ⟨computed, hcomputed, rfl⟩⟩

/-- The store holds what each setup computed. -/
theorem store_eq_of_runSetups {setups : List Setup} {store : Store V}
    (h : runSetups m scene arguments setups = some store) {setup : Setup}
    (hsetup : setup ∈ setups) : store setup = setup.value? m scene arguments := by
  obtain ⟨computed, hcomputed, hstore⟩ := Option.bind_eq_some_iff.mp h
  rw [← Option.some.inj hstore]
  exact lookup_of_keyed (mapM_eq_some_iff.mp hcomputed) hsetup

/-- A test depends on what its setups computed only. -/
theorem truth?_congr {t : Test} {store store' : Store V}
    (h : ∀ setup ∈ t.setup, store setup = store' setup) :
    t.truth? m arguments store = t.truth? m arguments store' := by
  have value?_congr : ∀ {t : Term}, (∀ setup ∈ t.setup, store setup = store' setup) →
      t.value? m arguments store = t.value? m arguments store' := by
    intro t h
    cases t with
    | typeOf variableName slot => rw [Term.value?, Term.value?, h _ (List.mem_singleton_self _)]
    | _ => rfl
  cases t with
  | python code => rfl
  | sameMembers typeName members =>
    rw [Test.truth?, Test.truth?, h _ (List.mem_singleton_self _)]
  | compare left op right =>
    rw [Test.truth?, Test.truth?, value?_congr fun s hs => h s (List.mem_append_left _ hs),
      value?_congr fun s hs => h s (List.mem_append_right _ hs)]

/-- A test that has a truth value needs nothing that the state does not have. -/
theorem exists_of_truth? {t : Test} {b : Bool}
    (h : t.truth? m arguments (Setup.value? m scene arguments) = some b) :
    ∀ setup ∈ t.setup, ∃ content, setup.value? m scene arguments = some content := by
  have exists_of_value? : ∀ {t : Term} {v : V},
      t.value? m arguments (Setup.value? m scene arguments) = some v →
      ∀ setup ∈ t.setup, ∃ content, setup.value? m scene arguments = some content := by
    intro t v h setup hsetup
    cases t with
    | typeOf variableName slot =>
      obtain rfl := List.mem_singleton.mp hsetup
      rw [Term.value?] at h
      split at h
      · rename_i content hcontent
        exact ⟨_, hcontent⟩
      · cases h
    | _ => cases hsetup
  intro setup hsetup
  cases t with
  | python code => cases hsetup
  | sameMembers typeName members =>
    obtain rfl := List.mem_singleton.mp hsetup
    exact ⟨_, rfl⟩
  | compare left op right =>
    rw [Test.truth?, compare_eq_some_iff] at h
    obtain ⟨v, w, hv, hw, -⟩ := h
    rcases List.mem_append.mp hsetup with hsetup | hsetup
    · exact exists_of_value? hv setup hsetup
    · exact exists_of_value? hw setup hsetup

/-! ## Conditions -/

/-- What is tested is the condition with each predicate replaced by its test. -/
theorem exists_pairs_of_guard {c : Condition} {g : Formula Test} (h : guard slots c = .ok g) :
    ∃ pairs : Formula (Predicate × Test), pairs.map Prod.fst = c ∧ pairs.map Prod.snd = g ∧
      ∀ pair ∈ pairs.atoms, test slots pair.1 = .ok pair.2 := by
  induction c generalizing g with
  | atom p =>
    obtain ⟨t, ht, rfl⟩ := map_eq_ok.mp h
    refine ⟨.atom (p, t), rfl, rfl, ?_⟩
    rintro pair hpair
    rw [List.mem_singleton.mp hpair]
    exact ht
  | group inner ih =>
    obtain ⟨g, hg, rfl⟩ := map_eq_ok.mp h
    obtain ⟨pairs, rfl, rfl, hpairs⟩ := ih hg
    exact ⟨.group pairs, rfl, rfl, hpairs⟩
  | chain left op right ihl ihr =>
    obtain ⟨gl, hl, h⟩ := bind_eq_ok.mp h
    obtain ⟨gr, hr, h⟩ := bind_eq_ok.mp h
    obtain rfl := pure_eq_ok.mp h
    obtain ⟨pl, rfl, rfl, hpl⟩ := ihl hl
    obtain ⟨pr, rfl, rfl, hpr⟩ := ihr hr
    refine ⟨.chain pl op pr, rfl, rfl, ?_⟩
    intro pair hpair
    rcases List.mem_append.mp hpair with hpair | hpair
    · exact hpl pair hpair
    · exact hpr pair hpair

/-- **What is left to test after the setups means the condition.** -/
theorem means_iff_of_guard (hobserves : Observes effects ρ arguments) {c : Condition}
    (hc : ∀ p ∈ c.atoms, p.Explicit) {g : Formula Test}
    (hg : guard (Slots.ofEffects effects) c = .ok g) {setups : List Setup}
    (hsetups : ∀ setup, setup ∈ setups ↔ setup ∈ g.atoms.flatMap Test.setup) {b : Bool} :
    c.Means m scene ρ b ↔
      ∃ store, runSetups m scene arguments setups = some store ∧
        g.ReadsAs (Test.truth? m arguments store) b := by
  obtain ⟨pairs, rfl, rfl, hpairs⟩ := exists_pairs_of_guard hg
  have htruth : ∀ pair ∈ pairs.atoms,
      pair.2.truth? m arguments (Setup.value? m scene arguments) = pair.1.truth? m scene ρ := by
    intro pair hpair
    refine truth?_of_test hobserves (hc pair.1 ?_) (hpairs pair hpair)
    rw [Formula.atoms_map]
    exact List.mem_map_of_mem hpair
  have hmem : ∀ pair ∈ pairs.atoms, ∀ setup ∈ pair.2.setup, setup ∈ setups := by
    intro pair hpair setup hsetup
    rw [hsetups, Formula.atoms_map]
    exact List.mem_flatMap.mpr ⟨pair.2, List.mem_map_of_mem hpair, hsetup⟩
  -- once the setups have run, reading the store is computing on the spot
  have hstore : ∀ store, runSetups m scene arguments setups = some store →
      ((pairs.map Prod.snd).ReadsAs (Test.truth? m arguments store) b ↔
        (pairs.map Prod.fst).ReadsAs (Predicate.truth? m scene ρ) b) := by
    intro store hrun
    rw [Formula.readsAs_map, Formula.readsAs_map]
    refine Formula.readsAs_congr fun pair hpair => ?_
    rw [Function.comp_apply, Function.comp_apply, ← htruth pair hpair]
    exact truth?_congr fun setup hsetup => store_eq_of_runSetups hrun (hmem pair hpair setup hsetup)
  constructor
  · -- the predicates have truth values, so the setups that they need run through
    intro hmeans
    have hrun : ∃ store, runSetups m scene arguments setups = some store := by
      rw [exists_runSetups_iff]
      intro setup hsetup
      rw [hsetups, Formula.atoms_map] at hsetup
      obtain ⟨t, ht, hsetup⟩ := List.mem_flatMap.mp hsetup
      obtain ⟨pair, hpair, rfl⟩ := List.mem_map.mp ht
      obtain ⟨b, hb⟩ := (Formula.readsAs_iff.mp hmeans).1 pair.1
        (by rw [Formula.atoms_map]; exact List.mem_map_of_mem hpair)
      exact exists_of_truth? ((htruth pair hpair).trans hb) setup hsetup
    obtain ⟨store, hrun⟩ := hrun
    exact ⟨store, hrun, (hstore store hrun).mpr hmeans⟩
  · rintro ⟨store, hrun, hreads⟩
    exact (hstore store hrun).mp hreads

/-! ## Blocks -/

/-- What a block is made of. -/
theorem eq_of_ofRule {rule : Rule} {block : Block} (h : Block.ofRule rule = .ok block) :
    block.effects = rule.effects.map Action.name ∧ block.intention = rule.intention.name ∧
      pieces (Slots.ofEffects rule.effects) rule.intention.position rule.intention.args =
        .ok block.args ∧
      rule.condition.mapM (guard (Slots.ofEffects rule.effects)) = .ok block.guard := by
  obtain ⟨args, hargs, h⟩ := bind_eq_ok.mp h
  obtain ⟨g, hg, h⟩ := bind_eq_ok.mp h
  obtain rfl := pure_eq_ok.mp h
  exact ⟨rfl, rfl, hargs, hg⟩

/-- The tuple of a block holds the values of the intention's arguments. -/
theorem tuple?_of_ofRule {rule : Rule} {block : Block} (h : Block.ofRule rule = .ok block)
    (hexplicit : rule.Explicit) (hobserves : Observes rule.effects ρ arguments) :
    ∃ values, rule.intention.value? m ρ = some (block.intention, values) ∧
      tuple? m arguments block.args = some values := by
  obtain ⟨-, hname, hargs, -⟩ := eq_of_ofRule h
  obtain ⟨values, hvalues, htuple⟩ := tuple?_of_pieces hobserves hexplicit.intention hargs
  refine ⟨values, ?_, htuple⟩
  rw [Action.value?, hvalues, hname]
  rfl

/-- What a block tests after its setups means the condition of its rule. -/
theorem means_iff_of_ofRule (m : Interpretation V) (scene : Scene V) {rule : Rule}
    {block : Block} (h : Block.ofRule rule = .ok block) (hexplicit : rule.Explicit)
    (hobserves : Observes rule.effects ρ arguments) {c : Condition}
    (hc : rule.condition = some c) :
    ∃ g, block.guard = some g ∧ ∀ b, c.Means m scene ρ b ↔
      ∃ store, block.store? m scene arguments = some store ∧
        g.ReadsAs (Test.truth? m arguments store) b := by
  obtain ⟨-, -, -, hguard⟩ := eq_of_ofRule h
  rw [hc] at hguard
  obtain ⟨g, hg, hsome⟩ := map_eq_ok.mp hguard
  refine ⟨g, hsome.symm, fun b => ?_⟩
  refine means_iff_of_guard hobserves (hexplicit.lists c hc) hg fun setup => ?_
  rw [Block.setup, ← hsome]
  exact List.mem_eraseDups

/-! ## Text -/

/-- The text of a guard: that of its symbols, one after the other. -/
def guardText (g : Formula Test) : String :=
  String.join (g.symbols.map (Symbol.text Test.render Connective.scriptWord))

/-- The text of a tuple: that of its symbols, one after the other. -/
def tupleText (parts : List Piece) : String :=
  String.join ((tupleSymbols parts).map symbolText)

/-- The guard of a block is tested. -/
theorem mem_lines_guardText {block : Block} {g : Formula Test} (h : block.guard = some g) :
    ⟨2, s!"if {guardText g}:"⟩ ∈ block.lines := by
  have htext : renderGuard g = guardText g := Formula.render_eq_join_symbols ..
  unfold Block.lines
  rw [h, ← htext]
  exact List.mem_cons_of_mem _ (List.mem_append_right _ (List.mem_cons_self ..))

/-- The intention is added with its tuple of arguments. -/
theorem mem_lines_tupleText (block : Block) :
    ∃ line ∈ block.lines,
      line.text = s!"g.add((states[0],{Script.quote block.intention},{tupleText block.args}))" := by
  have htuple : renderPieces block.args = tupleText block.args := renderPieces_eq_join _
  rw [← htuple]
  unfold Block.lines
  cases block.guard with
  | none => exact ⟨⟨2, block.addStatement⟩, List.mem_cons_of_mem _ (List.mem_cons_self ..), rfl⟩
  | some g =>
    refine ⟨⟨3, block.addStatement⟩, List.mem_cons_of_mem _ (List.mem_append_right _ ?_), rfl⟩
    exact List.mem_cons_of_mem _ (List.mem_cons_self ..)

/-- **The blocks of a program mean its rules.** The tuple of an intention and the guard of a block
are written as their symbols, and what is read from these are the arguments and the condition. -/
theorem ofProgram_means {program : Program} {blocks : List Block}
    (h : ofProgram program = .ok blocks) {n : Nat} {rule : Rule}
    (hrule : program.rules[n]? = some rule) (hexplicit : rule.Explicit)
    (m : Interpretation V) (scene : Scene V) (ρ : String → V) {arguments : List (List V)}
    (hobserves : Observes rule.effects ρ arguments) :
    ∃ block, blocks[n]? = some block ∧ block.effects = rule.effects.map Action.name ∧
      (∃ values, rule.intention.value? m ρ = some (block.intention, values) ∧
        tuple? m arguments block.args = some values ∧
        (∃ line ∈ block.lines, line.text =
          s!"g.add((states[0],{Script.quote block.intention},{tupleText block.args}))") ∧
        ∀ store, ReadsTuple (Term.value? m arguments store) (Slot.slice? arguments)
          (tupleSymbols block.args) values) ∧
      (rule.condition = none → block.guard = none) ∧
      ∀ c, rule.condition = some c → ∃ g, block.guard = some g ∧
        ⟨2, s!"if {guardText g}:"⟩ ∈ block.lines ∧ ∀ b, c.Means m scene ρ b ↔
          ∃ store, block.store? m scene arguments = some store ∧
            g.ReadsAs (Test.truth? m arguments store) b := by
  obtain ⟨block, hblock, hof⟩ := getElem?_of_forall₂ (mapM_eq_ok_iff.mp h) hrule
  obtain ⟨heffects, -, -, hguard⟩ := eq_of_ofRule hof
  refine ⟨block, hblock, heffects, ?_, ?_, ?_⟩
  · obtain ⟨values, hvalues, htuple⟩ := tuple?_of_ofRule hof hexplicit hobserves
    exact ⟨values, hvalues, htuple, mem_lines_tupleText block, fun _ => readsTuple_iff.mpr htuple⟩
  · intro hnone
    rw [hnone] at hguard
    exact (pure_eq_ok.mp hguard).symm
  · intro c hc
    obtain ⟨g, hg, hmeans⟩ := means_iff_of_ofRule m scene hof hexplicit hobserves hc
    exact ⟨g, hg, mem_lines_guardText hg, hmeans⟩

/-- A block may be put on the one table. -/
def stacking : Rule where
  condition := some (.chain
    (.atom (.compare (.type "obj") .equal (.value (.literal "block")) 4)) .and
    (.atom (.compare (.all "table") .equal (.list [.variable "dest"]) 24)))
  intention := ⟨"stack", [.variable "dest", .variable "obj", .literal "top"], 45⟩
  effects := [⟨"grasp", [.variable "obj"], 60⟩,
    ⟨"release", [.variable "obj", .variable "dest"], 72⟩]
  position := 0

/-- The block for stacking explains that `b` was put on the table `t`. -/
theorem stacking_means :
    let arguments : List (List Constant) := [[.text "b"], [.text "b", .text "t"]]
    ∃ blocks block, ofProgram ⟨[stacking]⟩ = .ok blocks ∧ blocks[0]? = some block ∧
      tuple? .literal arguments block.args = some [.text "t", .text "b", .text "top"] ∧
      ∃ g store, block.guard = some g ∧
        block.store? .literal [(.text "t", .text "table"), (.text "b", .text "block")] arguments =
          some store ∧
        g.ReadsAs (Test.truth? .literal arguments store) true := by
  intro arguments
  obtain ⟨blocks, hof⟩ : ∃ blocks, ofProgram ⟨[stacking]⟩ = .ok blocks := ⟨_, rfl⟩
  have hexplicit : stacking.Explicit := by
    refine ⟨by decide, ?_⟩
    rintro c hc p hp
    obtain rfl := Option.some.inj hc
    rcases List.mem_cons.mp hp with rfl | hp
    · exact ⟨trivial, trivial⟩
    · obtain rfl := List.mem_singleton.mp hp
      refine ⟨trivial, ?_⟩
      show ∀ arg ∈ [Arg.variable "dest"], arg.continuation? = none
      decide
  have hobserves : Observes stacking.effects
      (fun name => if name = "obj" then .text "b" else .text "t") arguments := by
    rintro (_ | _ | i) (_ | _ | j) effect name heffect harg <;> cases heffect <;> cases harg <;> rfl
  obtain ⟨block, hblock, -, ⟨values, hvalues, htuple, -⟩, -, hmeans⟩ :=
    ofProgram_means hof (n := 0) rfl hexplicit .literal
      [(.text "t", .text "table"), (.text "b", .text "block")] _ hobserves
  obtain ⟨g, hg, -, hmeans⟩ := hmeans _ rfl
  have htruth : ∀ p ∈ [Predicate.compare (.type "obj") .equal (.value (.literal "block")) 4,
      .compare (.all "table") .equal (.list [.variable "dest"]) 24],
      ∃ b, p.truth? .literal [(.text "t", .text "table"), (.text "b", .text "block")]
        (fun name => if name = "obj" then .text "b" else .text "t") = some b := by
    intro p hp
    rcases List.mem_cons.mp hp with rfl | hp
    · exact ⟨true, rfl⟩
    · obtain rfl := List.mem_singleton.mp hp
      exact ⟨true, rfl⟩
  obtain ⟨store, hstore, hreads⟩ := (hmeans true).mp (Formula.readsAs_iff.mpr ⟨htruth, rfl⟩)
  refine ⟨blocks, block, hof, hblock, ?_, g, store, hg, hstore, hreads⟩
  rw [htuple, ← (Prod.mk.inj (Option.some.inj hvalues)).2]
  rfl

end CausalRules.Facility
