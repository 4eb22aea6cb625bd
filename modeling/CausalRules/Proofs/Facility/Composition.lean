import CausalRules.Proofs.Facility.Spelling
import CausalRules.Proofs.Template

/-!
# Facility scripts rule by rule

The body of the function that collects causes has a part for each rule, in order, and nothing in a
part depends on another rule. Each part begins by comparing the observed actions with the effects of
its rule, and nothing else that is generated compares them. The number that bounds the search for
causes is the largest number of effects in these comparisons.

- `Domain.ofProgram_append_iff`: the domain of two programs that are put together.
- `Pending`, `Written`: a text is read from left to right, and what follows each `= (` in it is one
  of some given tuples.
- `Cut`: such a text with inline code between its pieces. Texts put together are cut where their
  parts are.
- `cut_of_test`, `cut_of_guard`, `cut_of_ofRule`: the parts of a block.
- `Domain.ofProgram_composes`: the body of a program, its tuples and the number that goes with it.
- `foreignTuple_copied`: inline code is copied, so it may bring in a tuple of its own.
-/

namespace CausalRules

open Script (Line quote)

/-- The inline code in the condition of a rule, in order. -/
def Rule.conditionCodes (rule : Rule) : List String :=
  rule.operands.flatMap Operand.codes

/-- The inline code in the conditions of a program, in order. -/
def Program.conditionCodes (program : Program) : List String :=
  program.rules.flatMap Rule.conditionCodes

theorem Program.maxEffects_append (rules rules' : List Rule) :
    Program.maxEffects ⟨rules ++ rules'⟩ =
      max (Program.maxEffects ⟨rules⟩) (Program.maxEffects ⟨rules'⟩) := by
  have hmax : ∀ (rules : List Rule) (n : Nat),
      rules.foldl (fun n rule => max n rule.effects.length) n =
        max n (Program.maxEffects ⟨rules⟩) := by
    intro rules n
    induction rules generalizing n with
    | nil => exact (Nat.max_zero n).symm
    | cons rule rules ih =>
      rw [Program.maxEffects, List.foldl_cons, List.foldl_cons, ih, ih, Nat.zero_max, Nat.max_assoc]
  rw [Program.maxEffects, List.foldl_append, hmax]
  rfl

namespace Facility

/-! ## Two programs -/

theorem Domain.ofProgram_eq_ok_iff {program : Program} {domain : Domain} :
    Domain.ofProgram program = .ok domain ↔ ∃ blocks, Facility.ofProgram program = .ok blocks ∧
      domain = ⟨Line.renderAll (blocks.flatMap Block.lines), program.maxEffects⟩ := by
  rw [Domain.ofProgram, bind_eq_ok]
  constructor
  · rintro ⟨blocks, hblocks, h⟩
    exact ⟨blocks, hblocks, (pure_eq_ok.mp h).symm⟩
  · rintro ⟨blocks, hblocks, rfl⟩
    exact ⟨blocks, hblocks, rfl⟩

theorem ofProgram_append_iff {rules rules' : List Rule} {blocks : List Block} :
    Facility.ofProgram ⟨rules ++ rules'⟩ = .ok blocks ↔
      ∃ first second, Facility.ofProgram ⟨rules⟩ = .ok first ∧
        Facility.ofProgram ⟨rules'⟩ = .ok second ∧ blocks = first ++ second := by
  simp only [Facility.ofProgram, List.mapM_append, bind_eq_ok, pure_eq_ok]
  constructor
  · rintro ⟨first, hfirst, second, hsecond, rfl⟩
    exact ⟨first, second, hfirst, hsecond, rfl⟩
  · rintro ⟨first, second, hfirst, hsecond, rfl⟩
    exact ⟨first, hfirst, second, hsecond, rfl⟩

/-- **Two programs put together have the body of the first and that of the second**, when both have
one, and the larger of the two numbers. -/
theorem Domain.ofProgram_append_iff {p q : Program} {domain : Domain} :
    Domain.ofProgram ⟨p.rules ++ q.rules⟩ = .ok domain ↔
      ∃ first second, Domain.ofProgram p = .ok first ∧ Domain.ofProgram q = .ok second ∧
        domain = ⟨first.causes ++ second.causes, max first.maxEffects second.maxEffects⟩ := by
  simp only [Domain.ofProgram_eq_ok_iff, Facility.ofProgram_append_iff, Program.maxEffects_append]
  constructor
  · rintro ⟨_, ⟨first, second, hfirst, hsecond, rfl⟩, rfl⟩
    refine ⟨_, _, ⟨first, hfirst, rfl⟩, ⟨second, hsecond, rfl⟩, ?_⟩
    rw [List.flatMap_append, Line.renderAll_append]
  · rintro ⟨_, _, ⟨first, hfirst, rfl⟩, ⟨second, hsecond, rfl⟩, rfl⟩
    refine ⟨_, ⟨first, second, hfirst, hsecond, rfl⟩, ?_⟩
    rw [List.flatMap_append, Line.renderAll_append]

/-! ## Texts in which tuples are compared -/

/-- How much of `= (` has been read. -/
inductive Pending
  | nothing
  | sign
  | space
  deriving DecidableEq

namespace Pending

def next (s : Pending) (c : Char) : Pending :=
  if c = '=' then .sign else if s = .sign ∧ c = ' ' then .space else .nothing

/-- What follows each `= (` of a text. -/
def openings (s : Pending) : List Char → List (List Char)
  | [] => []
  | c :: cs => (if s = .space ∧ c = '(' then [cs] else []) ++ (s.next c).openings cs

theorem openings_append (s : Pending) (a b : List Char) :
    s.openings (a ++ b) = (s.openings a).map (· ++ b) ++ (a.foldl next s).openings b := by
  induction a generalizing s with
  | nil => rfl
  | cons c a ih =>
    rw [List.cons_append, openings, openings, ih, List.map_append, List.append_assoc]
    split <;> rfl

theorem mem_openings (s : Pending) (before after : List Char) :
    after ∈ s.openings (before ++ ('=' :: ' ' :: '(' :: after)) := by
  rw [openings_append]
  refine List.mem_append_right _ ?_
  simp [openings, next]

/-- Without a sign nothing is pending. -/
theorem ends_of_ne {text : List Char} (h : ∀ c ∈ text, c ≠ '=') :
    text.foldl next .nothing = .nothing ∧ nothing.openings text = [] := by
  induction text with
  | nil => exact ⟨rfl, rfl⟩
  | cons c text ih =>
    obtain ⟨hc, htext⟩ := List.forall_mem_cons.mp h
    have hnext : nothing.next c = .nothing := by simp [next, hc]
    rw [List.foldl_cons, openings, hnext]
    exact ih htext

end Pending

/-- Each `= (` of the text is followed by one of the tuples, when it is read from one state to
another. -/
structure Written (tuples : List String) (s : Pending) (text : String) (e : Pending) : Prop where
  ends : text.toList.foldl Pending.next s = e
  opens : ∀ after ∈ s.openings text.toList, ∃ tuple ∈ tuples, tuple.toList <+: after

namespace Written

variable {tuples : List String} {s m e : Pending} {text a b : String}

theorem append (h : Written tuples s a m) (h' : Written tuples m b e) :
    Written tuples s (a ++ b) e := by
  refine ⟨by rw [String.toList_append, List.foldl_append, h.ends, h'.ends], fun after hafter => ?_⟩
  rw [String.toList_append, Pending.openings_append, h.ends] at hafter
  rcases List.mem_append.mp hafter with hmem | hmem
  · obtain ⟨rest, hrest, rfl⟩ := List.mem_map.mp hmem
    obtain ⟨tuple, htuple, hstarts⟩ := h.opens rest hrest
    exact ⟨tuple, htuple, hstarts.trans (List.prefix_append _ _)⟩
  · exact h'.opens after hmem

/-- A text that opens no tuple. -/
theorem of_openings (hends : text.toList.foldl Pending.next s = e)
    (hopens : s.openings text.toList = []) : Written tuples s text e :=
  ⟨hends, hopens ▸ nofun⟩

theorem of_ne (h : Over (· ≠ '=') text) : Written tuples .nothing text .nothing :=
  have hends := Pending.ends_of_ne h
  of_openings hends.1 hends.2

theorem tame (h : Over IsTame text) : Written tuples .nothing text .nothing :=
  of_ne (h.mono fun _ hc => hc.2)

/-- A value opens no tuple, even if a sign stands before it. -/
theorem bare (hs : s ≠ .sign) (h : Over IsBare text) (hne : text ≠ "") :
    Written tuples s text .nothing := by
  cases htext : text.toList with
  | nil => exact absurd (String.toList_eq_nil_iff.mp htext) hne
  | cons c cs =>
    rw [Over, htext, List.forall_mem_cons] at h
    have hnext : s.next c = .nothing := by simp [Pending.next, hs, h.1.1.2]
    have hends := Pending.ends_of_ne fun c hc => (h.2 c hc).1.2
    refine of_openings ?_ ?_
    · rw [htext, List.foldl_cons, hnext, hends.1]
    · rw [htext, Pending.openings, hnext, hends.2, if_neg fun hc => h.1.2 hc.2, List.nil_append]

/-- A sign of comparison between blanks. -/
theorem exists_scriptSign (op : Comparison) :
    ∃ m, m ≠ Pending.sign ∧ Written tuples .nothing (" " ++ op.scriptSign ++ " ") m := by
  cases op with
  | equal | notEqual | lessEqual | greaterEqual =>
    exact ⟨.space, by decide, of_openings (by decide) (by decide)⟩
  | less | greater => exact ⟨.nothing, by decide, of_openings (by decide) (by decide)⟩

/-- What follows a comparison of the actions. -/
theorem exists_of_eq (h : Written tuples s text e) {before after : String}
    (heq : text = before ++ "actions == (" ++ after) :
    ∃ tuple ∈ tuples, ∃ rest, after = tuple ++ rest := by
  have hlist : text.toList =
      (before ++ "actions =").toList ++ ('=' :: ' ' :: '(' :: after.toList) := by
    simp [heq]
  obtain ⟨tuple, htuple, rest, hrest⟩ :=
    h.opens after.toList (hlist ▸ Pending.mem_openings s _ _)
  refine ⟨tuple, htuple, String.ofList rest, String.toList_inj.mp ?_⟩
  rw [String.toList_append, String.toList_ofList, hrest]

end Written

/-! ## Texts with inline code -/

/-- The text is made of copies of inline code, in this order, and of pieces around them in which
each `= (` is followed by one of the tuples. -/
inductive Cut (tuples : List String) : List String → Pending → String → Pending → Prop
  | piece {s text e} : Written tuples s text e → Cut tuples [] s text e
  | code {codes code s before m after e} : Written tuples s before m →
      Cut tuples codes .nothing after e → Cut tuples (code :: codes) s (before ++ code ++ after) e

namespace Cut

variable {tuples codes codes' : List String} {s m e : Pending} {text a b : String}

theorem append (h : Cut tuples codes s a m) (h' : Cut tuples codes' m b e) :
    Cut tuples (codes ++ codes') s (a ++ b) e := by
  induction h with
  | piece ha =>
    cases h' with
    | piece hb => exact .piece (ha.append hb)
    | code hb hafter =>
      rw [← String.append_assoc, ← String.append_assoc]
      exact .code (ha.append hb) hafter
  | code hbefore _ ih =>
    rw [String.append_assoc]
    exact .code hbefore (ih h')

theorem before (h : Written tuples s a m) (h' : Cut tuples codes m b e) :
    Cut tuples codes s (a ++ b) e :=
  (piece h).append h'

theorem after (h : Cut tuples codes s a m) (h' : Written tuples m b e) :
    Cut tuples codes s (a ++ b) e := by
  simpa using h.append (piece h')

/-- Inline code by itself. -/
theorem copy (code : String) : Cut tuples [code] s code .nothing := by
  have hempty : ∀ s, Written tuples s "" s := fun s => .of_openings rfl rfl
  have hcut : Cut tuples [code] s ("" ++ code ++ "") .nothing :=
    .code (hempty s) (.piece (hempty .nothing))
  simpa using hcut

theorem exists_pieces (h : Cut tuples codes s text e) :
    ∃ first rest, rest.length = codes.length ∧
      text = first ++ String.join (List.zipWith (· ++ ·) codes rest) ∧
      ∀ piece ∈ first :: rest, ∃ s e, Written tuples s piece e := by
  induction h with
  | @piece s text e htext =>
    exact ⟨text, [], rfl, String.append_empty.symm, List.forall_mem_singleton.mpr ⟨s, e, htext⟩⟩
  | @code codes code s before m after e hbefore _ ih =>
    obtain ⟨first, rest, hlength, rfl, hpieces⟩ := ih
    refine ⟨before, first :: rest, congrArg (· + 1) hlength, ?_,
      List.forall_mem_cons.mpr ⟨⟨s, m, hbefore⟩, hpieces⟩⟩
    rw [List.zipWith_cons_cons, String.join_cons, String.append_assoc, String.append_assoc]

/-- A formula is cut where its tests are. -/
theorem render {α : Type} {f : Formula α} {codes : α → List String} {test : α → String}
    (h : ∀ a ∈ f.atoms, Cut tuples (codes a) .nothing (test a) .nothing) :
    Cut tuples (f.atoms.flatMap codes) .nothing (f.render test Connective.scriptWord) .nothing := by
  induction f with
  | atom a => simpa [Formula.atoms, Formula.render] using h a (List.mem_singleton_self a)
  | group inner ih => exact ((ih h).before (.tame (by decide))).after (.tame (by decide))
  | chain left op right ihl ihr =>
    obtain ⟨hleft, hright⟩ := List.forall_mem_append.mp h
    have hword : Over IsTame op.scriptWord := by cases op <;> decide
    rw [Formula.atoms, List.flatMap_append]
    exact ((((ihl hleft).after (.tame (by decide))).after (.tame hword)).after
      (.tame (by decide))).append (ihr hright)

theorem render_line (h : Cut tuples codes .nothing text .nothing) (depth : Nat) :
    Cut tuples codes .nothing (Line.render ⟨depth, text⟩) .nothing := by
  have hmargin : Over IsTame (Line.margin ⟨depth, text⟩) := by
    intro c hc
    rw [Line.eq_of_mem_margin hc]
    decide
  exact (h.before (.tame hmargin)).after (.of_openings (by decide) (by decide))

/-- Lines without inline code. -/
theorem renderAll {lines : List Line}
    (h : ∀ line ∈ lines, Cut tuples [] .nothing line.text .nothing) :
    Cut tuples [] .nothing (Line.renderAll lines) .nothing := by
  induction lines with
  | nil => exact .piece (.of_openings rfl rfl)
  | cons line lines ih =>
    obtain ⟨hline, hlines⟩ := List.forall_mem_cons.mp h
    rw [Line.renderAll_cons]
    exact (hline.render_line line.depth).append (ih hlines)

end Cut

/-! ## Parts of a block -/

section Parts

variable {tuples : List String} {slots : Slots} {position : Nat} {s : Pending}

theorem render_slot_ne_empty (slot : Slot) : slot.render ≠ "" := by
  simp [Slot.render, toString]

theorem render_constant_ne_empty (value : Script.Constant) : value.render ≠ "" := by
  cases value with
  | text value => simp [Script.Constant.render, quote]
  | number n =>
    rw [Script.Constant.render, Number.text]
    split <;> split <;> simp_all

/-- Arguments of a tuple are no inline code. -/
theorem argsCodes_of_pieces {args : List Arg} {parts : List Piece}
    (h : pieces slots position args = .ok parts) : argsCodes args = [] := by
  fun_induction pieces slots position args generalizing parts with
  | case1 => rfl
  | case2 name offset rest ih =>
    obtain ⟨slot, -, h⟩ := bind_eq_ok.mp h
    obtain ⟨others, hothers, -⟩ := bind_eq_ok.mp h
    exact ih hothers
  | case3 name rest _ ih =>
    obtain ⟨slot, -, h⟩ := bind_eq_ok.mp h
    obtain ⟨others, hothers, -⟩ := bind_eq_ok.mp h
    exact ih hothers
  | case4 text rest ih | case5 value rest ih =>
    obtain ⟨others, hothers, -⟩ := bind_eq_ok.mp h
    exact ih hothers
  | case6 | case7 | case8 => cases h

theorem cut_of_term (hs : s ≠ .sign) {operand : Operand} {t : Term}
    (hoperand : operand.WellFormed) (h : term slots position operand = .ok t) :
    Cut tuples operand.codes s t.render .nothing := by
  have hconstant : ∀ {arg : Arg} {value : Script.Constant}, arg.WellFormed →
      arg.constant? = some value → Written tuples s value.render .nothing := fun harg hvalue =>
    .bare hs (over_of_constant? (fun _ => isBare_of_isSpelling) (by decide) harg hvalue)
      (render_constant_ne_empty _)
  cases hoperand with
  | value harg hcontinuation =>
    cases harg with
    | «variable» =>
      obtain ⟨slot, -, h⟩ := bind_eq_ok.mp h
      obtain rfl := pure_eq_ok.mp h
      exact .piece (.bare hs (bare_render_slot slot) (render_slot_ne_empty slot))
    | literal htext =>
      obtain rfl := pure_eq_ok.mp h
      exact .piece (hconstant (.literal htext) rfl)
    | number hnumber =>
      obtain rfl := pure_eq_ok.mp h
      exact .piece (hconstant (.number hnumber) rfl)
    | continuation => cases h
    | state => cases h
    | python =>
      obtain rfl := pure_eq_ok.mp h
      exact .copy _
  | type hname =>
    obtain ⟨slot, -, h⟩ := bind_eq_ok.mp h
    obtain rfl := pure_eq_ok.mp h
    exact .piece (.bare hs (bare_typeOfName hname) (by simp [Term.render, typeOfName]))
  | all => cases h
  | list => cases h

theorem cut_of_membersTest {op : Comparison} {typeName : String} {items : List Arg} {t : Test}
    (hname : IsName typeName) (hitems : ArgsWellFormed items)
    (h : membersTest slots position op typeName items = .ok t) :
    Cut tuples (argsCodes items) .nothing t.render .nothing := by
  unfold membersTest at h
  split at h
  · obtain ⟨parts, hparts, h⟩ := bind_eq_ok.mp h
    obtain rfl := pure_eq_ok.mp h
    have hmembers : Over IsTame (Script.membersName typeName) :=
      (bare_membersName hname).mono fun _ hc => hc.1
    have hlisted := tame_renderPieces hitems.each hparts
    rw [argsCodes_of_pieces hparts]
    exact .piece (((((Written.tame (by decide)).append (.tame hmembers)).append
      (.of_openings (by decide) (by decide))).append (.tame hlisted)).append (.tame (by decide)))
  · cases h

theorem cut_of_test {p : Predicate} {t : Test} (hp : p.WellFormed) (h : test slots p = .ok t) :
    Cut tuples (p.operands.flatMap Operand.codes) .nothing t.render .nothing := by
  unfold test at h
  split at h
  · obtain rfl := pure_eq_ok.mp h
    exact .copy _
  · cases h
  · obtain ⟨hleft, hright⟩ := hp
    split at h
    · cases hleft with
      | all hname =>
        cases hright with
        | list hitems =>
          simpa [Predicate.operands, Operand.codes] using cut_of_membersTest hname hitems h
    · cases hleft with
      | list hitems =>
        cases hright with
        | all hname =>
          simpa [Predicate.operands, Operand.codes] using cut_of_membersTest hname hitems h
    · cases h
    · cases h
    · cases h
    · cases h
    · split at h
      · cases h
      · obtain ⟨left, hl, h⟩ := bind_eq_ok.mp h
        obtain ⟨right, hr, h⟩ := bind_eq_ok.mp h
        obtain rfl := pure_eq_ok.mp h
        obtain ⟨m, hm, hsign⟩ := @Written.exists_scriptSign tuples ‹Comparison›
        have hcut := ((cut_of_term (s := .nothing) (by decide) hleft hl).after hsign).append
          (cut_of_term hm hright hr)
        simpa [Predicate.operands, Test.render, toString, String.append_assoc] using hcut

theorem cut_of_guard {c : Condition} {g : Formula Test} (hc : Condition.WellFormed c)
    (h : guard slots c = .ok g) :
    Cut tuples ((c.atoms.flatMap Predicate.operands).flatMap Operand.codes) .nothing (renderGuard g)
      .nothing := by
  obtain ⟨pairs, rfl, rfl, hpairs⟩ := exists_pairs_of_guard h
  rw [List.flatMap_assoc, Formula.atoms_map, List.flatMap_map, renderGuard, Formula.render_map]
  refine Cut.render fun pair hpair => cut_of_test (hc.atoms _ ?_) (hpairs pair hpair)
  rw [Formula.atoms_map]
  exact List.mem_map_of_mem hpair

theorem written_of_setup {operand : Operand} {setup : Setup} (hoperand : operand.WellFormed)
    (h : neededFor slots operand = some setup) : Written tuples .nothing setup.render .nothing := by
  cases hoperand with
  | all hname =>
    obtain rfl := Option.some.inj h
    have hquoted : Written tuples .space (quote _) .nothing := .bare (by decide)
      (over_quote_of_spelling (fun _ => isBare_of_isSpelling) (by decide) hname.spelling)
      (render_constant_ne_empty (.text _))
    have hquery : Written tuples .space
        "[obj_id for (obj_id, obj_type,_,_,_,_) in states[0] if obj_type == " .space :=
      .of_openings (by decide +kernel) (by decide +kernel)
    have hmembers := (bare_membersName hname).mono fun _ hc => hc.1
    exact ((Written.tame hmembers).append (.of_openings (by decide) (by decide))).append
      ((hquery.append hquoted).append (.tame (by decide)))
  | type hname =>
    obtain ⟨slot, -, rfl⟩ := Option.map_eq_some_iff.mp h
    have hvariable := (bare_typeOfName hname).mono fun _ hc => hc.1
    have hslot := (bare_render_slot slot).mono fun _ hc => hc.1
    have hcall : Written tuples .space "lookup_type(" .nothing :=
      .of_openings (by decide) (by decide)
    exact ((Written.tame hvariable).append (.of_openings (by decide) (by decide))).append
      ((hcall.append (.tame hslot)).append (.tame (by decide)))
  | value => cases h
  | list => cases h

end Parts

/-! ## Blocks -/

/-- The names of a rule's effects, in order, as they stand in a tuple. -/
def effectNames (rule : Rule) : String :=
  String.join (rule.effects.map fun effect => quote effect.name ++ ",")

theorem Block.lines_eq (block : Block) :
    block.lines = ⟨1, s!"if actions == {block.actionsTuple}:"⟩ :: block.lines.tail :=
  rfl

section Blocks

variable {tuples : List String} {rule : Rule} {block : Block}

/-- The first line of a block compares the actions with the effects of its rule. -/
theorem renderAll_lines (h : Block.ofRule rule = .ok block) :
    Line.renderAll block.lines = "    if actions == (" ++ (effectNames rule ++ "):\n") ++
      Line.renderAll block.lines.tail := by
  obtain ⟨heffects, -⟩ := eq_of_ofRule h
  rw [Block.lines_eq, Line.renderAll_cons, List.tail_cons]
  refine congrArg (· ++ _) (String.toList_inj.mp ?_)
  simp [Line.render, Block.actionsTuple, heffects, effectNames, Line.toList_margin,
    Function.comp_def, toString]

theorem written_head (htuple : effectNames rule ++ "):\n" ∈ tuples)
    (hnames : Over (· ≠ '=') (effectNames rule)) :
    Written tuples .nothing ("    if actions == (" ++ (effectNames rule ++ "):\n")) .nothing := by
  obtain ⟨hends, hopens⟩ := @Pending.ends_of_ne (effectNames rule ++ "):\n").toList
    (over_append.mpr ⟨hnames, by decide⟩)
  have hhead : "    if actions == (".toList.foldl Pending.next .nothing = .nothing := by decide
  have hopen : Pending.nothing.openings "    if actions == (".toList = [[]] := by decide
  constructor
  · rw [String.toList_append, List.foldl_append, hhead, hends]
  · rw [String.toList_append, Pending.openings_append, hhead, hopen, hopens]
    intro after hafter
    obtain rfl := List.mem_singleton.mp hafter
    exact ⟨_, htuple, List.prefix_rfl⟩

/-- **A block is cut at the inline code of its rule's condition**, and compares the actions once. -/
theorem cut_of_ofRule (hrule : rule.WellFormed) (htuple : effectNames rule ++ "):\n" ∈ tuples)
    (h : Block.ofRule rule = .ok block) :
    Cut tuples rule.conditionCodes .nothing (Line.renderAll block.lines) .nothing := by
  have hquote : ∀ {name}, IsName name → Over IsTame (quote name) := fun hname =>
    over_quote_of_spelling (fun _ hc => (isBare_of_isSpelling hc).1) (by decide) hname.spelling
  obtain ⟨-, hintention, hargs, hguard⟩ := eq_of_ofRule h
  have hnames : Over IsTame (effectNames rule) := by
    refine over_join (List.forall_mem_map.mpr fun effect heffect => ?_)
    exact over_append.mpr ⟨hquote (hrule.effects effect heffect).name, by decide⟩
  have hadd : ∀ depth,
      Cut tuples [] .nothing (Line.renderAll [⟨depth, block.addStatement⟩]) .nothing := by
    intro depth
    have hname : Over IsTame (quote block.intention) := hquote (hintention ▸ hrule.intention.name)
    have htuple := tame_renderPieces hrule.intention.args.each hargs
    refine Cut.renderAll (List.forall_mem_singleton.mpr (.piece (.tame ?_)))
    exact over_append.mpr ⟨over_append.mpr ⟨over_append.mpr ⟨over_append.mpr
      ⟨by decide +kernel, hname⟩, by decide⟩, htuple⟩, by decide⟩
  have hsetup : ∀ setup ∈ block.setup, Written tuples .nothing setup.render .nothing := by
    intro setup hsetup
    rw [setup_of_ofRule h, List.mem_eraseDups, List.mem_filterMap] at hsetup
    obtain ⟨operand, hoperand, hsetup⟩ := hsetup
    exact written_of_setup (hrule.operands operand hoperand) hsetup
  rw [renderAll_lines h]
  refine .before (written_head htuple (hnames.mono fun _ hc => hc.2)) ?_
  rw [Block.lines, List.tail_cons, Rule.conditionCodes, Rule.operands]
  cases hc : rule.condition with
  | none =>
    rw [hc] at hguard
    rw [← pure_eq_ok.mp hguard]
    exact hadd 2
  | some c =>
    rw [hc] at hguard
    obtain ⟨g, hg, hsome⟩ := map_eq_ok.mp hguard
    have hif : Cut tuples ((c.atoms.flatMap Predicate.operands).flatMap Operand.codes) .nothing
        s!"if {renderGuard g}:" .nothing :=
      ((cut_of_guard (hrule.condition c hc) hg).before (.tame (by decide))).after
        (.tame (by decide))
    have hsetups : Cut tuples [] .nothing
        (Line.renderAll (block.setup.map fun setup => ⟨2, setup.render⟩)) .nothing :=
      .renderAll (List.forall_mem_map.mpr fun setup hmem => .piece (hsetup setup hmem))
    have hcut := hsetups.append ((hif.render_line 2).append (hadd 3))
    rw [List.append_nil, List.nil_append] at hcut
    rw [← hsome]
    dsimp only
    rw [Line.renderAll_append, Line.renderAll_cons]
    exact hcut

/-- The body of a program is cut at the inline code of its conditions. -/
theorem cut_of_forall₂ {rules : List Rule} {blocks : List Block}
    (hrules : ∀ rule ∈ rules, rule.WellFormed ∧ effectNames rule ++ "):\n" ∈ tuples)
    (h : List.Forall₂ (fun rule block => Block.ofRule rule = .ok block) rules blocks) :
    Cut tuples (rules.flatMap Rule.conditionCodes) .nothing
      (Line.renderAll (blocks.flatMap Block.lines)) .nothing := by
  induction h with
  | nil => exact .piece (.of_openings rfl rfl)
  | cons hof _ ih =>
    obtain ⟨⟨hrule, htuple⟩, hrules⟩ := List.forall_mem_cons.mp hrules
    rw [List.flatMap_cons, List.flatMap_cons, Line.renderAll_append]
    exact (cut_of_ofRule hrule htuple hof).append (ih hrules)

end Blocks

/-! ## Bodies -/

/-- The body of a program has a part for each rule, which compares the actions with its effects. -/
theorem Domain.exists_parts {program : Program} {domain : Domain}
    (h : Domain.ofProgram program = .ok domain) :
    ∃ parts, domain.causes = String.join parts ∧ List.Forall₂ (fun rule part =>
      ∃ rest, part = "    if actions == (" ++ (effectNames rule ++ "):\n") ++ rest)
        program.rules parts := by
  obtain ⟨blocks, hblocks, rfl⟩ := Domain.ofProgram_eq_ok_iff.mp h
  refine ⟨_, Line.renderAll_flatMap Block.lines blocks, ?_⟩
  rw [List.forall₂_map_right_iff]
  exact (mapM_eq_ok_iff.mp hblocks).imp fun rule block hof => ⟨_, renderAll_lines hof⟩

/-- **A body is put together rule by rule, and its number fits it.** Cut at the inline code of the
conditions, which is copied as it is, it compares the actions with the effects of its rules and with
nothing else. -/
theorem Domain.ofProgram_composes :
    (∀ (p q : Program) (domain : Domain), Domain.ofProgram ⟨p.rules ++ q.rules⟩ = .ok domain ↔
      ∃ first second, Domain.ofProgram p = .ok first ∧ Domain.ofProgram q = .ok second ∧
        domain = ⟨first.causes ++ second.causes, max first.maxEffects second.maxEffects⟩) ∧
    (∀ (program : Program) (domain : Domain), Domain.ofProgram program = .ok domain →
      (∃ parts, domain.causes = String.join parts ∧ List.Forall₂ (fun rule part =>
        ∃ rest, part = "    if actions == (" ++ (effectNames rule ++ "):\n") ++ rest)
          program.rules parts) ∧
      (program.rules ≠ [] →
        IsGreatest {n | ∃ rule ∈ program.rules, rule.effects.length = n} domain.maxEffects)) ∧
    ∀ (limits : Limits) (text : String) (program : Program) (domain : Domain),
      Program.read limits text = .ok program → Domain.ofProgram program = .ok domain →
      ∃ first rest, rest.length = program.conditionCodes.length ∧
        domain.causes =
          first ++ String.join (List.zipWith (· ++ ·) program.conditionCodes rest) ∧
        ∀ piece ∈ first :: rest, ∀ before after, piece = before ++ "actions == (" ++ after →
          ∃ rule ∈ program.rules, rule.effects.length ≤ domain.maxEffects ∧
            ∃ more, after = effectNames rule ++ "):\n" ++ more := by
  refine ⟨fun p q domain => Domain.ofProgram_append_iff, fun program domain h => ?_,
    fun limits text program domain hread h => ?_⟩
  · refine ⟨Domain.exists_parts h, fun hne => ?_⟩
    obtain ⟨blocks, -, rfl⟩ := Domain.ofProgram_eq_ok_iff.mp h
    exact Program.isGreatest_maxEffects hne
  · obtain ⟨blocks, hblocks, rfl⟩ := Domain.ofProgram_eq_ok_iff.mp h
    have hwell := Program.wellFormed_of_read hread
    have hcut := @cut_of_forall₂ (program.rules.map fun rule => effectNames rule ++ "):\n") _ _
      (fun rule hrule => ⟨hwell.rules rule hrule, List.mem_map_of_mem hrule⟩)
      (mapM_eq_ok_iff.mp hblocks)
    obtain ⟨first, rest, hlength, htext, hpieces⟩ := hcut.exists_pieces
    refine ⟨first, rest, hlength, htext, fun piece hpiece before after heq => ?_⟩
    obtain ⟨s, e, hwritten⟩ := hpieces piece hpiece
    obtain ⟨_, htuple, more, hafter⟩ := hwritten.exists_of_eq heq
    obtain ⟨rule, hrule, rfl⟩ := List.mem_map.mp htuple
    have hgreatest := Program.isGreatest_maxEffects (List.ne_nil_of_mem hrule)
    exact ⟨rule, hrule, hgreatest.2 ⟨rule, hrule, rfl⟩, more, hafter⟩

/-- The text of a rule with inline code and of one with more effects. -/
def twoPartsText : String :=
  "RULES \x7b if (PYTHON(#wet#)): m() := f(); n() := g(), h() \x7d"

/-- The number is that of the second rule, and the body is cut at the one piece of inline code. -/
theorem twoParts_composed : ∃ program domain, Program.read ⟨100, 1⟩ twoPartsText = .ok program ∧
    Domain.ofProgram program = .ok domain ∧ domain.maxEffects = 2 ∧
    (∃ rule ∈ program.rules, rule.effects.length = 2) ∧
    ∃ first last, domain.causes = first ++ ("wet" ++ last) ∧
      ∀ before after, last = before ++ "actions == (" ++ after →
        ∃ rule ∈ program.rules, ∃ more, after = effectNames rule ++ "):\n" ++ more := by
  have hdomain : ((Program.read ⟨100, 1⟩ twoPartsText).toOption.any fun program =>
      decide (program.conditionCodes = ["wet"] ∧ program.rules ≠ []) &&
        (Domain.ofProgram program).toOption.any fun domain => domain.maxEffects = 2) = true := by
    decide +kernel
  obtain ⟨program, hread, hdomain⟩ := exists_of_any_toOption hdomain
  obtain ⟨hcodes, hdomain⟩ := Bool.and_eq_true_iff.mp hdomain
  obtain ⟨hcodes, hne⟩ := of_decide_eq_true hcodes
  obtain ⟨domain, hof, hmax⟩ := exists_of_any_toOption hdomain
  have hmax := of_decide_eq_true hmax
  obtain ⟨-, hparts, hpieces⟩ := Domain.ofProgram_composes
  obtain ⟨hmem, -⟩ := (hparts program domain hof).2 hne
  obtain ⟨first, rest, hlength, hcauses, htuples⟩ := hpieces _ _ program domain hread hof
  rw [hcodes] at hlength hcauses
  obtain ⟨last, rfl⟩ := List.length_eq_one_iff.mp hlength
  refine ⟨program, domain, hread, hof, hmax, hmax ▸ hmem, first, last, ?_,
    fun before after heq => ?_⟩
  · rw [hcauses]
    rfl
  · obtain ⟨rule, hrule, -, hmore⟩ := htuples last (by simp) before after heq
    exact ⟨rule, hrule, hmore⟩

/-- The text of a rule whose inline code compares the actions with two names. -/
def foreignTupleText : String :=
  "RULES \x7b if (PYTHON(#actions == ('f','g',)#)): m() := f() \x7d"

/-- **Inline code may bring in a tuple of its own**, which is that of no rule and longer than the
number says. -/
theorem foreignTuple_copied : ∃ program domain,
    Program.read ⟨100, 1⟩ foreignTupleText = .ok program ∧
    Domain.ofProgram program = .ok domain ∧ domain.maxEffects = 1 ∧
    (∃ before after, domain.causes = before ++ "actions == (" ++ ("'f','g'," ++ "):\n") ++ after) ∧
    ∀ rule ∈ program.rules, effectNames rule ≠ "'f','g'," := by
  have hdomain : ((Program.read ⟨100, 1⟩ foreignTupleText).toOption.any fun program =>
      decide (∀ rule ∈ program.rules, effectNames rule ≠ "'f','g',") &&
        (Domain.ofProgram program).toOption.any fun domain => domain =
          ⟨"    if actions == ('f',):\n        if " ++ "actions == (" ++ ("'f','g'," ++ "):\n") ++
            "            g.add((states[0],'m',()))\n", 1⟩) = true := by
    decide +kernel
  obtain ⟨program, hread, hdomain⟩ := exists_of_any_toOption hdomain
  obtain ⟨hnames, hdomain⟩ := Bool.and_eq_true_iff.mp hdomain
  obtain ⟨domain, hof, hdomain⟩ := exists_of_any_toOption hdomain
  obtain rfl := of_decide_eq_true hdomain
  exact ⟨program, _, hread, hof, rfl, ⟨_, _, rfl⟩, of_decide_eq_true hnames⟩

end Facility

end CausalRules
