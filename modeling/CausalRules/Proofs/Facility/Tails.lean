import CausalRules.Proofs.Facility.Blocks
import CausalRules.Proofs.Grammar.Soundness
import CausalRules.Proofs.Rule

/-!
# Tails in facility blocks

An intention may end with a variable and a continuation, which together stand for what was observed
at an effect from that variable on. Which effect that is depends on where the variable occurs last:

- when the last effect to name the variable ends with it and a continuation, the block adds exactly
  what was observed there after the written arguments;
- when a later effect names the variable, the tail is taken from that effect, and what was observed
  under the continuation is lost.

- `Action.written`, `Action.SeenAs`: observed arguments that match an effect.
- `lastOccurrence_of_slotOf`: the slot of a variable is its last occurrence.
- `tuple?_of_endsWith`: the tuple of a block whose intention ends with a continuation.
- `ofProgram_tail`: both cases, for every block of a program; `losing_tail` is an instance of the
  second.
-/

namespace CausalRules

variable {V : Type}

/-! ## Observations with continuations -/

namespace Action

/-- The arguments that are written out. -/
def written (action : Action) : List Arg :=
  action.args.filter fun arg => arg.continuation?.isNone

/-- One of the arguments stands for further ones. -/
def Continued (action : Action) : Prop :=
  ∃ offset, .continuation offset ∈ action.args

/-- The last arguments are a variable and a continuation. -/
def EndsWith (action : Action) (name : String) : Prop :=
  ∃ before offset, action.args = before ++ [.variable name, .continuation offset]

/-- Observed arguments match an effect: they begin with the values of its written arguments, and
only a continuation stands for more of them. The value of a state is left open. -/
structure SeenAs (m : Interpretation V) (ρ : String → V) (effect : Action)
    (observed : List V) : Prop where
  enough : effect.written.length ≤ observed.length
  begins : ∀ (j : Nat) (arg : Arg) (v : V), effect.written[j]? = some arg →
    arg.value? m ρ = some v → observed[j]? = some v
  ends : ¬ effect.Continued → observed.length = effect.written.length

end Action

/-- Only the last argument may be a continuation. -/
theorem ContinuationsPlaced.forall_mem {before : List Arg} {last : Arg}
    (h : ContinuationsPlaced (before ++ [last])) : ∀ arg ∈ before, arg.continuation? = none := by
  intro arg harg
  obtain ⟨i, hi, rfl⟩ := List.getElem_of_mem harg
  cases hcontinuation : before[i].continuation? with
  | none => rfl
  | some offset =>
    have heq : before[i] = .continuation offset := by
      cases hcase : before[i] <;> rw [hcase] at hcontinuation <;> cases hcontinuation
      rfl
    have hget : (before ++ [last])[i]? = some (.continuation offset) := by
      rw [List.getElem?_append_left hi, List.getElem?_eq_getElem hi, heq]
    have hlast := (h i offset hget).1
    rw [List.length_append, List.length_singleton] at hlast
    omega

/-- The written arguments are all of them, or all but the continuation that comes last. -/
theorem Action.args_eq_written {action : Action} (h : ContinuationsPlaced action.args) :
    action.args = action.written ∨
      ∃ offset, action.args = action.written ++ [Arg.continuation offset] := by
  obtain hnil | ⟨before, last, hlast⟩ := List.eq_nil_or_concat action.args
  · left
    rw [written, hnil]
    rfl
  · rw [List.concat_eq_append] at hlast
    rw [hlast] at h
    have hbefore : before.filter (fun arg => arg.continuation?.isNone) = before :=
      List.filter_eq_self.mpr fun arg harg => Option.isNone_iff_eq_none.mpr (h.forall_mem arg harg)
    rw [written, hlast, List.filter_append, hbefore]
    cases last with
    | continuation offset => exact .inr ⟨offset, by simp [Arg.continuation?]⟩
    | _ => exact .inl rfl

/-- An argument that is written out keeps its place. -/
theorem Action.written_getElem? {action : Action} (h : ContinuationsPlaced action.args) {j : Nat}
    {arg : Arg} (harg : action.args[j]? = some arg) (hwritten : arg.continuation? = none) :
    action.written[j]? = some arg := by
  obtain hargs | ⟨offset, hargs⟩ := args_eq_written h
  · rw [← hargs]
    exact harg
  · rw [hargs] at harg
    by_cases hj : j < action.written.length
    · rwa [List.getElem?_append_left hj] at harg
    · rw [List.getElem?_append_right (Nat.le_of_not_lt hj)] at harg
      obtain rfl := List.mem_singleton.mp (List.mem_of_getElem? harg)
      cases hwritten

/-- What is written in an action that ends with a variable and a continuation. -/
theorem Action.written_of_endsWith {action : Action} (h : ContinuationsPlaced action.args)
    {before : List Arg} {name : String} {offset : Nat}
    (hargs : action.args = before ++ [Arg.variable name, Arg.continuation offset]) :
    (∀ arg ∈ before, arg.continuation? = none) ∧
      action.written = before ++ [Arg.variable name] := by
  have hsplit : before ++ [Arg.variable name, Arg.continuation offset] =
      (before ++ [Arg.variable name]) ++ [Arg.continuation offset] := by simp
  rw [hargs, hsplit] at h
  have hbefore := h.forall_mem
  refine ⟨fun arg harg => hbefore arg (List.mem_append_left _ harg), ?_⟩
  rw [written, hargs, hsplit, List.filter_append, List.filter_eq_self.mpr fun arg harg =>
    Option.isNone_iff_eq_none.mpr (hbefore arg harg)]
  simp [Arg.continuation?]

namespace Facility

open Script (Constant)

variable {m : Interpretation V} {ρ : String → V} {arguments : List (List V)}
  {effects : List Action} {slots : Slots} {position : Nat}

/-- Observed arguments that match the effects are observed where the effects name variables. -/
theorem observes_of_seenAs (hplaced : ∀ effect ∈ effects, ContinuationsPlaced effect.args)
    (hseen : List.Forall₂ (Action.SeenAs m ρ) effects arguments) :
    Observes effects ρ arguments := by
  intro i j effect name heffect harg
  obtain ⟨observed, hobserved, hseen⟩ := getElem?_of_forall₂ hseen heffect
  have hwritten := Action.written_getElem? (hplaced effect (List.mem_of_getElem? heffect)) harg rfl
  exact Option.bind_eq_some_iff.mpr ⟨observed, hobserved, hseen.begins j _ _ hwritten rfl⟩

/-! ## Last occurrences -/

/-- One place comes before another. -/
def Slot.Before (s t : Slot) : Prop :=
  s.effect < t.effect ∨ s.effect = t.effect ∧ s.arg < t.arg

theorem zipIdx_pairwise {α : Type} (as : List α) : as.zipIdx.Pairwise (·.2 < ·.2) := by
  rw [← List.pairwise_map (f := Prod.snd) (R := (· < ·)), List.zipIdx_map_snd]
  exact List.pairwise_lt_range'

/-- Occurrences are noted from the last one to the first. -/
theorem ofEffects_pairwise (effects : List Action) :
    (Slots.ofEffects effects).Pairwise fun a b => b.2.Before a.2 := by
  have ofArgs_effect : ∀ {i args entry}, entry ∈ Slots.ofArgs i args → entry.2.effect = i := by
    intro i args entry hentry
    obtain ⟨⟨arg, j⟩, -, hentry⟩ := List.mem_filterMap.mp hentry
    obtain ⟨name, -, rfl⟩ := Option.map_eq_some_iff.mp hentry
    rfl
  unfold Slots.ofEffects
  rw [List.pairwise_reverse, List.pairwise_flatMap]
  constructor
  · rintro ⟨effect, i⟩ -
    -- within one effect, by the number of the argument
    unfold Slots.ofArgs
    rw [List.pairwise_filterMap]
    refine (zipIdx_pairwise effect.args).imp fun hlt a ha b hb => ?_
    obtain ⟨name, -, rfl⟩ := Option.map_eq_some_iff.mp ha
    obtain ⟨name', -, rfl⟩ := Option.map_eq_some_iff.mp hb
    exact .inr ⟨rfl, hlt⟩
  · refine (zipIdx_pairwise effects).imp fun hlt a ha b hb => .inl ?_
    rw [ofArgs_effect ha, ofArgs_effect hb]
    exact hlt

/-- A variable occurs at a slot and nowhere after it. -/
structure LastOccurrence (effects : List Action) (name : String) (slot : Slot) : Prop where
  occurs : ∃ effect, effects[slot.effect]? = some effect ∧
    effect.args[slot.arg]? = some (.variable name)
  last : ∀ (i j : Nat) (effect : Action), effects[i]? = some effect →
    effect.args[j]? = some (.variable name) → slot = ⟨i, j⟩ ∨ (Slot.mk i j).Before slot

/-- The slot of a variable is its last occurrence. -/
theorem lastOccurrence_of_slotOf {name : String} {slot : Slot}
    (h : slotOf (Slots.ofEffects effects) position name = .ok slot) :
    LastOccurrence effects name slot := by
  refine ⟨exists_of_slotOf h, fun i j effect heffect harg => ?_⟩
  have hlookup : (Slots.ofEffects effects).lookup name = some slot := by
    unfold slotOf at h
    split at h
    · rename_i found hfound
      rw [← Except.ok.inj h]
      exact hfound
    · cases h
  have hmem : (name, Slot.mk i j) ∈ Slots.ofEffects effects :=
    mem_ofEffects_iff.mpr ⟨effect, heffect, harg⟩
  have hpairwise := ofEffects_pairwise effects
  obtain ⟨before, after, hsplit, hbefore⟩ := List.lookup_eq_some_iff.mp hlookup
  rw [hsplit] at hmem hpairwise
  rcases List.mem_append.mp hmem with hmem | hmem
  · -- entries before the one that is found are for other names
    have hne := hbefore _ hmem
    simp at hne
  · rcases List.mem_cons.mp hmem with heq | hmem
    · exact .inl (Prod.mk.inj heq).2.symm
    · exact .inr ((List.pairwise_cons.mp (List.pairwise_append.mp hpairwise).2.1).1 _ hmem)

/-! ## Tuples with a tail -/

theorem tuple?_append {parts parts' : List Piece} {values values' : List V}
    (h : tuple? m arguments parts = some values) (h' : tuple? m arguments parts' = some values') :
    tuple? m arguments (parts ++ parts') = some (values ++ values') := by
  obtain ⟨lists, hlists, rfl⟩ := Option.map_eq_some_iff.mp h
  obtain ⟨lists', hlists', rfl⟩ := Option.map_eq_some_iff.mp h'
  have happend : (parts ++ parts').mapM (Piece.values? m arguments) = some (lists ++ lists') := by
    rw [List.mapM_append, hlists, hlists']
    rfl
  exact Option.map_eq_some_iff.mpr ⟨lists ++ lists', happend, List.flatten_append⟩

/-- Arguments give their pieces one by one, unless a continuation follows. -/
theorem pieces_cons {arg : Arg} {rest : List Arg}
    (hrest : ∀ offset rest', rest ≠ .continuation offset :: rest') :
    pieces slots position (arg :: rest) = do
      return (← pieces slots position [arg]) ++ (← pieces slots position rest) := by
  cases arg with
  | «variable» name =>
    rw [pieces.eq_3 _ _ name rest fun offset rest' heq => hrest offset rest' heq, pieces]
    · cases slotOf slots position name with
      | error e => rfl
      | ok slot => cases pieces slots position rest <;> rfl
    · exact nofun
  | literal text => cases hpieces : pieces slots position rest <;> simp [pieces, hpieces]
  | number value => cases hpieces : pieces slots position rest <;> simp [pieces, hpieces]
  | continuation offset => rfl
  | state args => rfl
  | python code => rfl

/-- The variable and the continuation that end a list give one piece, after those for the arguments
before them. -/
theorem pieces_endsWith {before : List Arg} (hbefore : ∀ arg ∈ before, arg.continuation? = none)
    {name : String} {offset : Nat} {parts : List Piece}
    (h : pieces slots position (before ++ [Arg.variable name, Arg.continuation offset]) =
      .ok parts) : ∃ init slot, pieces slots position before = .ok init ∧
      slotOf slots position name = .ok slot ∧ parts = init ++ [Piece.tail slot] := by
  induction before generalizing parts with
  | nil =>
    obtain ⟨slot, hslot, h⟩ := bind_eq_ok.mp h
    obtain ⟨parts', hparts, h⟩ := bind_eq_ok.mp h
    obtain rfl := pure_eq_ok.mp h
    obtain rfl := pure_eq_ok.mp hparts
    exact ⟨[], slot, rfl, hslot, rfl⟩
  | cons arg before ih =>
    have hrest := fun arg harg => hbefore arg (List.mem_cons_of_mem _ harg)
    have hnext : ∀ offset' rest', before ++ [Arg.variable name, Arg.continuation offset] ≠
        Arg.continuation offset' :: rest' := by
      intro offset' rest' heq
      cases before with
      | nil => cases heq
      | cons first before =>
        obtain rfl := (List.cons.inj heq).1
        cases hrest _ (List.mem_cons_self ..)
    have hnext' : ∀ offset' rest', before ≠ Arg.continuation offset' :: rest' := by
      rintro offset' rest' rfl
      cases hrest _ (List.mem_cons_self ..)
    rw [List.cons_append, pieces_cons hnext] at h
    obtain ⟨first, hfirst, h⟩ := bind_eq_ok.mp h
    obtain ⟨parts', hparts, h⟩ := bind_eq_ok.mp h
    obtain rfl := pure_eq_ok.mp h
    obtain ⟨init, slot, hinit, hslot, rfl⟩ := ih hrest hparts
    refine ⟨first ++ init, slot, ?_, hslot, (List.append_assoc ..).symm⟩
    rw [pieces_cons hnext', hfirst, hinit]
    rfl

/-- What was observed at a slot and after it. -/
theorem drop_of_value? {slot : Slot} {v : V} (h : slot.value? arguments = some v) :
    ∃ seen, arguments[slot.effect]? = some seen ∧
      (Piece.tail slot).values? m arguments = some (v :: seen.drop (slot.arg + 1)) := by
  obtain ⟨seen, hseen, hget⟩ := Option.bind_eq_some_iff.mp h
  obtain ⟨hlt, rfl⟩ := List.getElem?_eq_some_iff.mp hget
  refine ⟨seen, hseen, ?_⟩
  rw [Piece.values?, hseen, ← List.drop_eq_getElem_cons hlt]
  rfl

/-- The tuple of an intention that ends with a continuation holds the values of the written
arguments and what was observed after the slot of the last of them. -/
theorem tuple?_of_endsWith (hobserves : Observes effects ρ arguments) {intention : Action}
    (hplaced : ContinuationsPlaced intention.args) {name : String}
    (hends : intention.EndsWith name) {parts : List Piece}
    (h : pieces (Slots.ofEffects effects) position intention.args = .ok parts) :
    ∃ values slot seen, intention.written.mapM (Arg.value? m ρ) = some values ∧
      slotOf (Slots.ofEffects effects) position name = .ok slot ∧
      arguments[slot.effect]? = some seen ∧
      tuple? m arguments parts = some (values ++ seen.drop (slot.arg + 1)) := by
  obtain ⟨before, offset, hargs⟩ := hends
  obtain ⟨hbefore, hwritten⟩ := Action.written_of_endsWith hplaced hargs
  rw [hargs] at h
  obtain ⟨init, slot, hinit, hslot, rfl⟩ := pieces_endsWith hbefore h
  obtain ⟨values, hvalues, htuple⟩ := tuple?_of_pieces (m := m) hobserves hbefore hinit
  obtain ⟨seen, hseen, htail⟩ := drop_of_value? (m := m) (value?_of_slotOf hobserves hslot)
  refine ⟨values ++ [ρ name], slot, seen, ?_, hslot, hseen, ?_⟩
  · rw [hwritten, List.mapM_append, hvalues]
    rfl
  · rw [List.append_assoc, List.singleton_append]
    refine tuple?_append htuple ?_
    rw [tuple?_cons, htail]
    exact congrArg some (List.append_nil _)

/-! ## Blocks -/

/-- **What a block adds for an intention that ends with a variable and a continuation.** Some effect
ends with them too. If no later effect names the variable, the tuple holds the values of the written
arguments and what was observed at that effect after its written arguments. Otherwise the tuple ends
with what was observed after the last occurrence of the variable, in a later effect. -/
theorem ofProgram_tail {limits : Limits} {text : String} {program : Program}
    (hread : Program.read limits text = .ok program) {blocks : List Block}
    (hof : ofProgram program = .ok blocks) {n : Nat} {rule : Rule}
    (hrule : program.rules[n]? = some rule) {name : String}
    (hintention : rule.intention.EndsWith name) (m : Interpretation V) (ρ : String → V)
    {arguments : List (List V)}
    (hseen : List.Forall₂ (Action.SeenAs m ρ) rule.effects arguments) {k : Nat} {effect : Action}
    (heffect : rule.effects[k]? = some effect) (hends : effect.EndsWith name)
    {observed : List V} (hobserved : arguments[k]? = some observed) :
    ∃ block values, blocks[n]? = some block ∧
      rule.intention.written.mapM (Arg.value? m ρ) = some values ∧
      ((∀ i later, k < i → rule.effects[i]? = some later → .variable name ∉ later.args) →
        tuple? m arguments block.args =
          some (values ++ observed.drop effect.written.length)) ∧
      ((∃ i later, k < i ∧ rule.effects[i]? = some later ∧ .variable name ∈ later.args) →
        ∃ slot seen, LastOccurrence rule.effects name slot ∧ k < slot.effect ∧
          arguments[slot.effect]? = some seen ∧
          tuple? m arguments block.args = some (values ++ seen.drop (slot.arg + 1))) := by
  obtain ⟨block, hblock, hrule'⟩ := getElem?_of_forall₂ (mapM_eq_ok_iff.mp hof) hrule
  have hplaced := Program.placed_of_read hread (List.mem_of_getElem? hrule)
  obtain ⟨-, -, hpieces, -⟩ := eq_of_ofRule hrule'
  obtain ⟨values, slot, seen, hvalues, hslot, hseen', htuple⟩ := tuple?_of_endsWith
    (observes_of_seenAs hplaced.effects hseen) hplaced.intention hintention hpieces
  have hlast := lastOccurrence_of_slotOf hslot
  obtain ⟨before, offset, hargs⟩ := hends
  have hcovered : effect.args[before.length]? = some (.variable name) := by
    rw [hargs, List.getElem?_append_right (Nat.le_refl _), Nat.sub_self]
    rfl
  refine ⟨block, values, hblock, hvalues, fun hnone => ?_, fun hlater => ?_⟩
  · -- the variable under the continuation is the last occurrence
    have hslot' : slot = ⟨k, before.length⟩ := by
      obtain ⟨effect', heffect', harg'⟩ := hlast.occurs
      rcases hlast.last k before.length effect heffect hcovered with heq | hafter | ⟨hk, hafter⟩
      · exact heq
      · exact (hnone _ effect' hafter heffect' (List.mem_of_getElem? harg')).elim
      · obtain rfl := Option.some.inj (heffect.symm.trans ((congrArg _ hk).trans heffect'))
        replace hafter : before.length < slot.arg := hafter
        rw [hargs, List.getElem?_append_right (Nat.le_of_lt hafter)] at harg'
        obtain ⟨d, hd⟩ := Nat.exists_eq_add_of_lt hafter
        rw [show slot.arg - before.length = d + 1 by omega] at harg'
        cases d <;> cases harg'
    have hwritten := (Action.written_of_endsWith
      (hplaced.effects effect (List.mem_of_getElem? heffect)) hargs).2
    rw [hslot'] at hseen' htuple
    obtain rfl := Option.some.inj (hobserved.symm.trans hseen')
    rw [htuple, hwritten, List.length_append, List.length_singleton]
  · obtain ⟨i, later, hi, hlater, hmem⟩ := hlater
    obtain ⟨j, hj⟩ := List.getElem?_of_mem hmem
    refine ⟨slot, seen, hlast, ?_, hseen', htuple⟩
    rcases hlast.last i j later hlater hj with rfl | hbefore | ⟨heq, -⟩
    · exact hi
    · exact Nat.lt_trans hi hbefore
    · exact heq ▸ hi

/-- Things are swept up, with all that belongs to the first of them. -/
def sweepingText : String :=
  "RULES \x7b keep(x, CONT) := lift(x), push(x, CONT); lose(x, CONT) := push(x, CONT), drop(x) \x7d"

/-- The rule of `sweepingText` in which the continuation comes with the last occurrence. -/
def keeping : Rule where
  condition := none
  intention := ⟨"keep", [.variable "x", .continuation 1], 8⟩
  effects := [⟨"lift", [.variable "x"], 25⟩, ⟨"push", [.variable "x", .continuation 1], 34⟩]
  position := 8

/-- The rule of `sweepingText` in which it does not. -/
def losing : Rule where
  condition := none
  intention := ⟨"lose", [.variable "x", .continuation 1], 49⟩
  effects := [⟨"push", [.variable "x", .continuation 1], 66⟩, ⟨"drop", [.variable "x"], 81⟩]
  position := 49

theorem read_sweepingText : Program.read ⟨100, 0⟩ sweepingText = .ok ⟨[keeping, losing]⟩ := by
  decide +kernel

/-- The thing that is swept up and another one. -/
def swept : List Constant := [.text "cup", .text "lid"]

theorem seenAs_swept {name : String} {position : Nat} :
    Action.SeenAs .literal (fun _ => .text "cup")
      ⟨name, [.variable "x", .continuation 1], position⟩ swept where
  enough := Nat.le_succ 1
  begins j arg v harg hv := by
    cases j with
    | zero =>
      cases harg
      exact hv
    | succ j => cases harg
  ends h := (h ⟨1, List.mem_cons_of_mem _ (List.mem_cons_self ..)⟩).elim

theorem seenAs_cup {name : String} {position : Nat} :
    Action.SeenAs .literal (fun _ => .text "cup") ⟨name, [.variable "x"], position⟩
      [.text "cup"] where
  enough := Nat.le_refl _
  begins j arg v harg hv := by
    cases j with
    | zero =>
      cases harg
      exact hv
    | succ j => cases harg
  ends _ := rfl

/-- Both things are kept when the last effect was seen with both. -/
theorem keeping_tail : ∃ blocks block, ofProgram ⟨[keeping, losing]⟩ = .ok blocks ∧
    blocks[0]? = some block ∧
    tuple? .literal [[.text "cup"], swept] block.args = some [.text "cup", .text "lid"] := by
  obtain ⟨blocks, hof⟩ : ∃ blocks, ofProgram ⟨[keeping, losing]⟩ = .ok blocks := ⟨_, rfl⟩
  have hseen : List.Forall₂ (Action.SeenAs .literal fun _ => .text "cup") keeping.effects
      [[.text "cup"], swept] :=
    .cons seenAs_cup (.cons seenAs_swept .nil)
  obtain ⟨block, values, hblock, hvalues, hkept, -⟩ :=
    ofProgram_tail read_sweepingText hof (n := 0) rfl ⟨[], 1, rfl⟩ _ _ hseen (k := 1) rfl
      ⟨[], 1, rfl⟩ rfl
  refine ⟨blocks, block, hof, hblock, ?_⟩
  obtain rfl := Option.some.inj hvalues
  refine hkept fun i later hi hlater => ?_
  obtain ⟨i, rfl⟩ := Nat.exists_eq_add_of_lt hi
  rw [show 1 + i + 1 = i + 2 by omega] at hlater
  cases hlater

/-- What was seen under the only continuation is lost when a later effect names the variable
before it. -/
theorem losing_tail : ∃ blocks block values,
    Program.read ⟨100, 0⟩ sweepingText = .ok ⟨[keeping, losing]⟩ ∧
    ofProgram ⟨[keeping, losing]⟩ = .ok blocks ∧ blocks[1]? = some block ∧
    List.Forall₂ (Action.SeenAs .literal fun _ => .text "cup") losing.effects
      [swept, [.text "cup"]] ∧
    losing.intention.EndsWith "x" ∧
    (∀ i effect, losing.effects[i]? = some effect → (effect.EndsWith "x" ↔ i = 0)) ∧
    losing.intention.written.mapM (Arg.value? .literal fun _ => .text "cup") = some values ∧
    tuple? .literal [swept, [.text "cup"]] block.args ≠ some (values ++ [.text "lid"]) := by
  obtain ⟨first, hof⟩ : ∃ first, ofProgram ⟨[keeping, losing]⟩ =
      .ok [first, ⟨["push", "drop"], none, "lose", [.tail ⟨1, 0⟩]⟩] := ⟨_, rfl⟩
  refine ⟨_, _, [.text "cup"], read_sweepingText, hof, rfl,
    .cons seenAs_swept (.cons seenAs_cup .nil), ⟨[], 1, rfl⟩, ?_, rfl, by decide⟩
  intro i effect heffect
  match i with
  | 0 =>
    cases heffect
    exact ⟨fun _ => rfl, fun _ => ⟨[], 1, rfl⟩⟩
  | 1 =>
    cases heffect
    refine ⟨?_, nofun⟩
    rintro ⟨before, offset, hargs⟩
    have hlength := congrArg List.length hargs
    rw [List.length_append] at hlength
    simp at hlength
  | _ + 2 => cases heffect

end Facility

end CausalRules
