import CausalRules.Proofs.Facility.Composition
import CausalRules.Proofs.Facility.Expressible
import CausalRules.Proofs.Facility.Tails

/-!
# Indices in facility blocks

A block sees observed arguments by two numbers, that of an effect and that of an argument of it.
The numbers for a variable are those of its last occurrence among the effects of the rule, so they
are in range, and there are none when no effect names the variable.

- `slot?_eq_some_iff`, `slot?_eq_none_iff`: the slot of a variable is its last occurrence.
- `PiecesFor`, `TermFor`, `TestFor`, `BlockFor`: the parts of a block that stand for those of a
  rule. Each variable is observed at its last occurrence.
- `Indexed`: in a text, each bracket that opens an index of observed arguments is followed by the
  numbers of a last occurrence.
- `Spliced`: such a text with inline code between its pieces.
- `Domain.ofProgram_locates`: the slots of variables, the blocks of a program and the text of each.
- `foreignIndex_copied`: inline code is copied, so it may bring in an index of its own.
-/

namespace CausalRules.Facility

open Script (Line quote)

variable {effects : List Action} {slots : Slots} {position : Nat}

/-! ## Slots -/

theorem slotOf_eq_ok_iff {name : String} {slot : Slot} :
    slotOf slots position name = .ok slot ↔ slots.slot? name = some slot := by
  constructor
  · exact slot?_of_slotOf
  · intro h
    rw [slotOf, h]

/-- A variable has one last occurrence at most. -/
theorem LastOccurrence.unique {name : String} {slot slot' : Slot}
    (h : LastOccurrence effects name slot) (h' : LastOccurrence effects name slot') :
    slot = slot' := by
  obtain ⟨effect, heffect, harg⟩ := h.occurs
  obtain ⟨effect', heffect', harg'⟩ := h'.occurs
  rcases h.last _ _ _ heffect' harg' with heq | hbefore
  · exact heq
  rcases h'.last _ _ _ heffect harg with heq | hbefore'
  · exact heq.symm
  · -- neither comes before the other
    simp only [Slot.Before] at hbefore hbefore'
    omega

/-- A variable has a slot when it stands in some effect. -/
theorem exists_slot?_iff {name : String} :
    (∃ slot, (Slots.ofEffects effects).slot? name = some slot) ↔ Occurs effects name := by
  have hslots : (∃ slot, slotOf (Slots.ofEffects effects) 0 name = .ok slot) ↔
      Occurs effects name := exists_slotOf_iff
  rw [← hslots]
  exact exists_congr fun slot => slotOf_eq_ok_iff.symm

/-- **The slot of a variable is its last occurrence.** -/
theorem slot?_eq_some_iff {name : String} {slot : Slot} :
    (Slots.ofEffects effects).slot? name = some slot ↔ LastOccurrence effects name slot := by
  have hlast : ∀ {slot}, (Slots.ofEffects effects).slot? name = some slot →
      LastOccurrence effects name slot := by
    intro slot h
    have hslot : slotOf (Slots.ofEffects effects) 0 name = .ok slot := slotOf_eq_ok_iff.mpr h
    exact lastOccurrence_of_slotOf hslot
  constructor
  · exact hlast
  · intro h
    obtain ⟨effect, heffect, harg⟩ := h.occurs
    have hoccurs : Occurs effects name :=
      ⟨effect, List.mem_of_getElem? heffect, List.mem_of_getElem? harg⟩
    obtain ⟨found, hfound⟩ := exists_slot?_iff.mpr hoccurs
    rw [hfound, (hlast hfound).unique h]

/-- **A variable has no slot when it is an argument of no effect.** -/
theorem slot?_eq_none_iff {name : String} :
    (Slots.ofEffects effects).slot? name = none ↔
      ∀ effect ∈ effects, .variable name ∉ effect.args := by
  rw [Option.eq_none_iff_forall_ne_some, ← not_exists, exists_slot?_iff, Occurs]
  push Not
  rfl

/-! ## Blocks and their rules -/

/-- Parts of a tuple for its arguments. A variable is observed at its last occurrence, and when a
continuation follows it, so is all after it. -/
inductive PiecesFor (effects : List Action) : List Arg → List Piece → Prop
  | nil : PiecesFor effects [] []
  | item {name slot args parts} : LastOccurrence effects name slot → PiecesFor effects args parts →
      PiecesFor effects (.variable name :: args) (.item slot :: parts)
  | tail {name slot offset args parts} : LastOccurrence effects name slot →
      PiecesFor effects args parts →
      PiecesFor effects (.variable name :: .continuation offset :: args) (.tail slot :: parts)
  | constant {arg value args parts} : arg.constant? = some value → PiecesFor effects args parts →
      PiecesFor effects (arg :: args) (.constant value :: parts)

/-- The term for an operand. A variable, and the object whose type is asked for, is observed at its
last occurrence. -/
inductive TermFor (effects : List Action) : Operand → Term → Prop
  | item {name slot} : LastOccurrence effects name slot →
      TermFor effects (.value (.variable name)) (.item slot)
  | constant {arg value} : arg.constant? = some value →
      TermFor effects (.value arg) (.constant value)
  | python (code : String) : TermFor effects (.value (.python code)) (.python code)
  | typeOf {name slot} : LastOccurrence effects name slot →
      TermFor effects (.type name) (.typeOf name slot)

/-- The test for a predicate. -/
inductive TestFor (effects : List Action) : Predicate → Test → Prop
  | python (code : String) (position : Nat) :
      TestFor effects (.bare (.value (.python code)) position) (.python code)
  | all {typeName items parts position} : PiecesFor effects items parts →
      TestFor effects (.compare (.all typeName) .equal (.list items) position)
        (.sameMembers typeName parts)
  | list {typeName items parts position} : PiecesFor effects items parts →
      TestFor effects (.compare (.list items) .equal (.all typeName) position)
        (.sameMembers typeName parts)
  | compare {left right l r op position} : TermFor effects left l → TermFor effects right r →
      TestFor effects (.compare left op right position) (.compare l op r)

/-- The guard of a block for the condition of a rule: a test for each predicate. -/
def GuardFor (effects : List Action) (c : Condition) (g : Formula Test) : Prop :=
  ∃ pairs : Formula (Predicate × Test), pairs.map Prod.fst = c ∧ pairs.map Prod.snd = g ∧
    ∀ pair ∈ pairs.atoms, TestFor effects pair.1 pair.2

/-- The block of a rule. Types are looked up for objects at last occurrences. -/
structure BlockFor (rule : Rule) (block : Block) : Prop where
  effects : block.effects = rule.effects.map Action.name
  intention : block.intention = rule.intention.name
  args : PiecesFor rule.effects rule.intention.args block.args
  guard : Option.Rel (GuardFor rule.effects) rule.condition block.guard
  setup : ∀ name slot, .typeOf name slot ∈ block.setup → LastOccurrence rule.effects name slot

theorem piecesFor_of_pieces {args : List Arg} {parts : List Piece}
    (h : pieces (Slots.ofEffects effects) position args = .ok parts) :
    PiecesFor effects args parts := by
  fun_induction pieces (Slots.ofEffects effects) position args generalizing parts with
  | case1 =>
    obtain rfl := pure_eq_ok.mp h
    exact .nil
  | case2 name offset rest ih =>
    obtain ⟨slot, hslot, h⟩ := bind_eq_ok.mp h
    obtain ⟨others, hothers, h⟩ := bind_eq_ok.mp h
    obtain rfl := pure_eq_ok.mp h
    exact .tail (lastOccurrence_of_slotOf hslot) (ih hothers)
  | case3 name rest _ ih =>
    obtain ⟨slot, hslot, h⟩ := bind_eq_ok.mp h
    obtain ⟨others, hothers, h⟩ := bind_eq_ok.mp h
    obtain rfl := pure_eq_ok.mp h
    exact .item (lastOccurrence_of_slotOf hslot) (ih hothers)
  | case4 text rest ih | case5 value rest ih =>
    obtain ⟨others, hothers, h⟩ := bind_eq_ok.mp h
    obtain rfl := pure_eq_ok.mp h
    exact .constant rfl (ih hothers)
  | case6 | case7 | case8 => cases h

theorem termFor_of_term {operand : Operand} {t : Term}
    (h : term (Slots.ofEffects effects) position operand = .ok t) : TermFor effects operand t := by
  unfold term at h
  split at h
  · obtain ⟨slot, hslot, h⟩ := bind_eq_ok.mp h
    obtain rfl := pure_eq_ok.mp h
    exact .item (lastOccurrence_of_slotOf hslot)
  · obtain rfl := pure_eq_ok.mp h
    exact .python _
  · cases h
  · cases h
  · split at h
    · rename_i value hvalue
      obtain rfl := pure_eq_ok.mp h
      exact .constant hvalue
    · cases h
  · obtain ⟨slot, hslot, h⟩ := bind_eq_ok.mp h
    obtain rfl := pure_eq_ok.mp h
    exact .typeOf (lastOccurrence_of_slotOf hslot)
  · cases h
  · cases h

theorem eq_of_membersTest {op : Comparison} {typeName : String} {items : List Arg} {t : Test}
    (h : membersTest (Slots.ofEffects effects) position op typeName items = .ok t) :
    op = .equal ∧ ∃ parts, PiecesFor effects items parts ∧ t = .sameMembers typeName parts := by
  unfold membersTest at h
  split at h
  · rename_i hop
    obtain ⟨parts, hparts, h⟩ := bind_eq_ok.mp h
    exact ⟨hop, parts, piecesFor_of_pieces hparts, (pure_eq_ok.mp h).symm⟩
  · cases h

theorem testFor_of_test {p : Predicate} {t : Test} (h : test (Slots.ofEffects effects) p = .ok t) :
    TestFor effects p t := by
  unfold test at h
  split at h
  · obtain rfl := pure_eq_ok.mp h
    exact .python _ _
  · cases h
  · split at h
    · obtain ⟨rfl, parts, hparts, rfl⟩ := eq_of_membersTest h
      exact .all hparts
    · obtain ⟨rfl, parts, hparts, rfl⟩ := eq_of_membersTest h
      exact .list hparts
    · cases h
    · cases h
    · cases h
    · cases h
    · split at h
      · cases h
      · obtain ⟨left, hl, h⟩ := bind_eq_ok.mp h
        obtain ⟨right, hr, h⟩ := bind_eq_ok.mp h
        obtain rfl := pure_eq_ok.mp h
        exact .compare (termFor_of_term hl) (termFor_of_term hr)

theorem guardFor_of_guard {c : Condition} {g : Formula Test}
    (h : guard (Slots.ofEffects effects) c = .ok g) : GuardFor effects c g := by
  obtain ⟨pairs, hfst, hsnd, hpairs⟩ := exists_pairs_of_guard h
  exact ⟨pairs, hfst, hsnd, fun pair hpair => testFor_of_test (hpairs pair hpair)⟩

/-- **Every place in a block that observes an argument observes a last occurrence.** -/
theorem blockFor_of_ofRule {rule : Rule} {block : Block} (h : Block.ofRule rule = .ok block) :
    BlockFor rule block := by
  obtain ⟨heffects, hintention, hargs, hguard⟩ := eq_of_ofRule h
  refine ⟨heffects, hintention, piecesFor_of_pieces hargs, ?_, fun name slot hsetup => ?_⟩
  · cases hc : rule.condition with
    | none =>
      rw [hc] at hguard
      rw [← pure_eq_ok.mp hguard]
      exact .none
    | some c =>
      rw [hc] at hguard
      obtain ⟨g, hg, hsome⟩ := map_eq_ok.mp hguard
      rw [← hsome]
      exact .some (guardFor_of_guard hg)
  · rw [setup_of_ofRule h, List.mem_eraseDups, List.mem_filterMap] at hsetup
    obtain ⟨operand, -, hneeded⟩ := hsetup
    cases operand with
    | type =>
      obtain ⟨found, hfound, heq⟩ := Option.map_eq_some_iff.mp hneeded
      obtain ⟨rfl, rfl⟩ := Setup.typeOf.inj heq
      exact slot?_eq_some_iff.mp hfound
    | all => cases hneeded
    | value => cases hneeded
    | list => cases hneeded

/-! ## Texts with indices -/

/-- What stands between the first bracket of an observed argument and its end. -/
def Slot.numbers (slot : Slot) (close : String) : List Char :=
  (s!"{slot.effect}][{slot.arg}" ++ close).toList

/-- The text goes on with the numbers of a last occurrence. -/
def Cites (effects : List Action) (after : List Char) : Prop :=
  ∃ name slot, LastOccurrence effects name slot ∧
    ∃ close ∈ ["]", ":]"], slot.numbers close <+: after

/-- A bracket after these opens no index of observed arguments, or the second one. -/
def openers : List String := ["]", " ", "states"]

/-- Each bracket that opens an index of observed arguments is followed by the numbers of a last
occurrence. -/
def Indexed (effects : List Action) (text : String) : Prop :=
  ∀ before after, text.toList = before ++ '[' :: after →
    (∃ word ∈ openers, word.toList <:+ before) ∨ Cites effects after

namespace Indexed

variable {text a b : String}

theorem of_ne (h : Over (· ≠ '[') text) : Indexed effects text := by
  intro before after heq
  exact absurd rfl (h '[' (by simp [heq]))

theorem append (ha : Indexed effects a) (hb : Indexed effects b) : Indexed effects (a ++ b) := by
  intro before after h
  rw [String.toList_append, List.append_eq_append_iff] at h
  rcases h with ⟨rest, rfl, hrest⟩ | ⟨rest, hrest, hafter⟩
  · -- the bracket stands in the second text
    rcases hb rest after hrest with ⟨word, hword, hends⟩ | hcites
    · exact .inl ⟨word, hword, hends.trans (List.suffix_append _ _)⟩
    · exact .inr hcites
  · cases rest with
    | nil =>
      rcases hb [] after hafter.symm with ⟨word, hword, hends⟩ | hcites
      · exact .inl ⟨word, hword, hends.trans (List.nil_suffix)⟩
      · exact .inr hcites
    | cons c rest =>
      obtain ⟨rfl, rfl⟩ := List.cons.inj hafter
      rcases ha before rest hrest with hopener | ⟨name, slot, hlast, close, hclose, hnumbers⟩
      · exact .inl hopener
      · exact .inr ⟨name, slot, hlast, close, hclose, hnumbers.trans (List.prefix_append _ _)⟩

/-- A text with one more bracket before it. -/
theorem opens (ha : Over (· ≠ '[') a) (hb : Indexed effects b)
    (h : (∃ word ∈ openers, word.toList <:+ a.toList) ∨ Cites effects b.toList) :
    Indexed effects (a ++ "[" ++ b) := by
  intro before after heq
  have hlist : a.toList ++ '[' :: b.toList = before ++ '[' :: after := by simpa using heq
  rw [List.append_eq_append_iff] at hlist
  rcases hlist with ⟨rest, rfl, hrest⟩ | ⟨rest, hrest, hafter⟩
  · cases rest with
    | nil =>
      obtain ⟨-, rfl⟩ := List.cons.inj hrest
      simpa using h
    | cons c rest =>
      obtain ⟨rfl, hrest'⟩ := List.cons.inj hrest
      rcases hb rest after hrest' with ⟨word, hword, hends⟩ | hcites
      · refine .inl ⟨word, hword, hends.trans ?_⟩
        exact (List.suffix_cons _ _).trans (List.suffix_append _ _)
      · exact .inr hcites
  · cases rest with
    | nil =>
      obtain ⟨-, rfl⟩ := List.cons.inj hafter
      rw [List.append_nil] at hrest
      rw [← hrest]
      exact h
    | cons c rest =>
      obtain ⟨rfl, -⟩ := List.cons.inj hafter
      exact absurd rfl (ha '[' (by simp [hrest]))

theorem intercalate {separator : String} {texts : List String}
    (hseparator : Indexed effects separator) (h : ∀ text ∈ texts, Indexed effects text) :
    Indexed effects (separator.intercalate texts) := by
  induction texts with
  | nil => exact of_ne (List.forall_mem_nil _)
  | cons text texts ih =>
    obtain ⟨htext, htexts⟩ := List.forall_mem_cons.mp h
    by_cases hnil : texts = []
    · rwa [hnil, String.intercalate_singleton]
    · rw [String.intercalate_cons_of_ne_nil hnil]
      exact (htext.append hseparator).append (ih htexts)

/-- What follows the name of the observed arguments. -/
theorem cites_of_eq (h : Indexed effects text) {before after : String}
    (heq : text = before ++ "arguments[" ++ after) : Cites effects after.toList := by
  have hlist : text.toList =
      (before.toList ++ "arguments".toList) ++ '[' :: after.toList := by
    simp [heq]
  rcases h _ _ hlist with ⟨word, hword, hends⟩ | hcites
  · -- the name ends with none of the words
    have hname : ∀ word ∈ openers, word.toList.length ≤ "arguments".toList.length ∧
        ¬ word.toList <:+ "arguments".toList := by decide
    obtain ⟨hlength, hnot⟩ := hname word hword
    have hends' := List.suffix_of_suffix_length_le hends (List.suffix_append _ _) hlength
    exact absurd hends' hnot
  · exact hcites

end Indexed

section Slots

variable {name : String} {slot : Slot}

/-- The numbers of a last occurrence, in brackets. -/
theorem indexed_numbers (h : LastOccurrence effects name slot) (close : String)
    (hclose : close ∈ ["]", ":]"]) :
    Indexed effects s!"arguments[{slot.effect}][{slot.arg}{close}" := by
  have hdigits : ∀ n : Nat, Over (· ≠ '[') (toString n) :=
    over_toString fun c hc heq => by simp [heq] at hc
  have hend : Over (· ≠ '[') close := by
    revert close
    decide
  have hinner : Indexed effects ((toString slot.effect ++ "]") ++ "[" ++
      (toString slot.arg ++ close)) := by
    refine .opens (over_append.mpr ⟨hdigits _, by decide⟩) ?_ (.inl ⟨"]", by decide, ?_⟩)
    · exact .of_ne (over_append.mpr ⟨hdigits _, hend⟩)
    · rw [String.toList_append]
      exact List.suffix_append _ _
  have houter := Indexed.opens (a := "arguments") (by decide) hinner
    (.inr ⟨name, slot, h, close, hclose, by simp [Slot.numbers, toString]⟩)
  simpa [toString, String.append_assoc] using houter

theorem indexed_render_slot (h : LastOccurrence effects name slot) :
    Indexed effects slot.render := by
  simpa [Slot.render, toString] using indexed_numbers h "]" (by decide)

theorem indexed_render_tail (h : LastOccurrence effects name slot) :
    Indexed effects (Piece.tail slot).render := by
  simpa [Piece.render, toString, String.append_assoc] using indexed_numbers h ":]" (by decide)

end Slots

/-! ## Texts with inline code -/

/-- The text is made of copies of inline code, in this order, and of pieces around them in which
each index is that of a last occurrence. -/
inductive Spliced (effects : List Action) : List String → String → Prop
  | piece {text} : Indexed effects text → Spliced effects [] text
  | code {codes code before after} : Indexed effects before → Spliced effects codes after →
      Spliced effects (code :: codes) (before ++ code ++ after)

namespace Spliced

variable {codes codes' : List String} {text a b : String}

theorem append (h : Spliced effects codes a) (h' : Spliced effects codes' b) :
    Spliced effects (codes ++ codes') (a ++ b) := by
  induction h with
  | piece ha =>
    cases h' with
    | piece hb => exact .piece (ha.append hb)
    | code hb hafter =>
      rw [← String.append_assoc, ← String.append_assoc]
      exact .code (ha.append hb) hafter
  | code hbefore _ ih =>
    rw [String.append_assoc]
    exact .code hbefore ih

theorem before (h : Indexed effects a) (h' : Spliced effects codes b) :
    Spliced effects codes (a ++ b) :=
  (piece h).append h'

theorem after (h : Spliced effects codes a) (h' : Indexed effects b) :
    Spliced effects codes (a ++ b) := by
  simpa using h.append (piece h')

/-- Inline code by itself. -/
theorem copy (code : String) : Spliced effects [code] code := by
  have hempty : Indexed effects "" := .of_ne (by decide)
  have hcode : Spliced effects [code] ("" ++ code ++ "") := .code hempty (.piece hempty)
  simpa using hcode

theorem exists_pieces (h : Spliced effects codes text) :
    ∃ first rest, rest.length = codes.length ∧
      text = first ++ String.join (List.zipWith (· ++ ·) codes rest) ∧
      ∀ piece ∈ first :: rest, Indexed effects piece := by
  induction h with
  | @piece text htext =>
    exact ⟨text, [], rfl, String.append_empty.symm, List.forall_mem_singleton.mpr htext⟩
  | @code codes code before after hbefore _ ih =>
    obtain ⟨first, rest, hlength, rfl, hpieces⟩ := ih
    refine ⟨before, first :: rest, congrArg (· + 1) hlength, ?_,
      List.forall_mem_cons.mpr ⟨hbefore, hpieces⟩⟩
    rw [List.zipWith_cons_cons, String.join_cons, String.append_assoc, String.append_assoc]

/-- A formula is spliced as its tests are. -/
theorem render {α : Type} {f : Formula α} {codes : α → List String} {test : α → String}
    (h : ∀ a ∈ f.atoms, Spliced effects (codes a) (test a)) :
    Spliced effects (f.atoms.flatMap codes) (f.render test Connective.scriptWord) := by
  induction f with
  | atom a => simpa [Formula.atoms, Formula.render] using h a (List.mem_singleton_self a)
  | group inner ih => exact ((ih h).before (.of_ne (by decide))).after (.of_ne (by decide))
  | chain left op right ihl ihr =>
    obtain ⟨hleft, hright⟩ := List.forall_mem_append.mp h
    have hspace : Indexed effects " " := .of_ne (by decide)
    have hword : Indexed effects op.scriptWord := .of_ne (by cases op <;> decide)
    rw [Formula.atoms, List.flatMap_append]
    exact ((((ihl hleft).after hspace).after hword).after hspace).append (ihr hright)

theorem render_line (h : Spliced effects codes text) (depth : Nat) :
    Spliced effects codes (Line.render ⟨depth, text⟩) := by
  have hmargin : Indexed effects (Line.margin ⟨depth, text⟩) := by
    refine .of_ne fun c hc => ?_
    rw [Line.eq_of_mem_margin hc]
    decide
  exact (h.before hmargin).after (.of_ne (by decide))

/-- Lines without inline code. -/
theorem renderAll {lines : List Line} (h : ∀ line ∈ lines, Indexed effects line.text) :
    Spliced effects [] (Line.renderAll lines) := by
  induction lines with
  | nil => exact .piece (.of_ne (by decide))
  | cons line lines ih =>
    obtain ⟨hline, hlines⟩ := List.forall_mem_cons.mp h
    rw [Line.renderAll_cons]
    exact ((piece hline).render_line line.depth).append (ih hlines)

end Spliced

/-! ## The text of a block -/

theorem indexed_constant {arg : Arg} {value : Script.Constant} (harg : arg.WellFormed)
    (h : arg.constant? = some value) : Indexed effects value.render :=
  .of_ne (over_of_constant? (fun _ hc => hc.ne (by decide)) (by decide) harg h)

theorem indexed_quote {name : String} (h : IsName name) : Indexed effects (quote name) :=
  .of_ne (over_quote_of_spelling (fun _ hc => hc.ne (by decide)) (by decide) h.spelling)

/-- A constant is no inline code. -/
theorem codes_of_constant? {arg : Arg} {value : Script.Constant} (h : arg.constant? = some value) :
    arg.codes = [] := by
  cases arg with
  | literal | number => rfl
  | _ => cases h

/-- Arguments of a tuple are no inline code. -/
theorem PiecesFor.codes {args : List Arg} {parts : List Piece} (h : PiecesFor effects args parts) :
    argsCodes args = [] := by
  induction h with
  | nil => rfl
  | item _ _ ih => exact ih
  | tail _ _ ih => exact ih
  | constant harg _ ih =>
    rw [argsCodes_eq_flatMap, List.flatMap_cons, codes_of_constant? harg, ← argsCodes_eq_flatMap,
      ih]
    rfl

theorem indexed_renderPieces {args : List Arg} {parts : List Piece}
    (hargs : ∀ arg ∈ args, arg.WellFormed) (h : PiecesFor effects args parts) :
    Indexed effects (renderPieces parts) := by
  have hparts : ∀ part ∈ parts, Indexed effects part.render := by
    induction h with
    | nil => exact List.forall_mem_nil _
    | item hlast _ ih =>
      refine List.forall_mem_cons.mpr ⟨?_, ih fun arg harg => hargs arg (.tail _ harg)⟩
      exact ((Indexed.of_ne (by decide)).append (indexed_render_slot hlast)).append
        (.of_ne (by decide))
    | tail hlast _ ih =>
      refine List.forall_mem_cons.mpr ⟨?_, ih fun arg harg => hargs arg (.tail _ (.tail _ harg))⟩
      exact indexed_render_tail hlast
    | constant hvalue _ ih =>
      obtain ⟨harg, hargs⟩ := List.forall_mem_cons.mp hargs
      refine List.forall_mem_cons.mpr ⟨?_, ih hargs⟩
      exact ((Indexed.of_ne (by decide)).append (indexed_constant harg hvalue)).append
        (.of_ne (by decide))
  unfold renderPieces
  split
  · exact .of_ne (by decide)
  · exact .intercalate (.of_ne (by decide)) (List.forall_mem_map.mpr hparts)

theorem indexed_identifier {name : String} (h : IsName name) :
    Indexed effects (Script.identifier name) :=
  .of_ne (Script.over_identifier (h.spelling.mono fun _ hc => hc.ne (by decide)) (by decide))

theorem indexed_membersName {name : String} (h : IsName name) :
    Indexed effects (Script.membersName name) :=
  .append (.of_ne (by decide)) (indexed_identifier h)

theorem indexed_typeOfName {name : String} (h : IsName name) :
    Indexed effects (typeOfName name) :=
  .append (indexed_identifier h) (.of_ne (by decide))

theorem spliced_of_term {operand : Operand} {t : Term} (hoperand : operand.WellFormed)
    (h : TermFor effects operand t) : Spliced effects operand.codes t.render := by
  cases h with
  | item hlast => exact .piece (indexed_render_slot hlast)
  | @constant arg value hvalue =>
    cases hoperand with
    | value harg =>
      have hcodes : arg.codes = [] := codes_of_constant? hvalue
      rw [Operand.codes, hcodes]
      exact .piece (indexed_constant harg hvalue)
  | python code => exact .copy code
  | typeOf hlast =>
    cases hoperand with
    | type hname => exact .piece (indexed_typeOfName hname)

theorem spliced_sameMembers {typeName : String} {items : List Arg} {parts : List Piece}
    (hname : IsName typeName) (hitems : ArgsWellFormed items) (h : PiecesFor effects items parts) :
    Spliced effects (argsCodes items) (Test.sameMembers typeName parts).render := by
  have hset : Indexed effects "set(" := .of_ne (by decide)
  have hlisted := indexed_renderPieces hitems.each h
  rw [h.codes]
  exact .piece ((((hset.append (indexed_membersName hname)).append (.of_ne (by decide))).append
    hlisted).append (.of_ne (by decide)))

theorem spliced_of_test {p : Predicate} {t : Test} (hp : p.WellFormed) (h : TestFor effects p t) :
    Spliced effects (p.operands.flatMap Operand.codes) t.render := by
  cases h with
  | python code => exact .copy code
  | all hparts =>
    obtain ⟨hall, hlist⟩ := hp
    cases hall with
    | all hname =>
      cases hlist with
      | list hitems =>
        simpa [Predicate.operands, Operand.codes] using spliced_sameMembers hname hitems hparts
  | list hparts =>
    obtain ⟨hlist, hall⟩ := hp
    cases hall with
    | all hname =>
      cases hlist with
      | list hitems =>
        simpa [Predicate.operands, Operand.codes] using spliced_sameMembers hname hitems hparts
  | @compare left right l r op position hl hr =>
    have hspace : Indexed effects " " := .of_ne (by decide)
    have hsign : Indexed effects op.scriptSign := .of_ne (by cases op <;> decide)
    have hspliced := ((((spliced_of_term hp.1 hl).after hspace).after hsign).after hspace).append
      (spliced_of_term hp.2 hr)
    simpa [Predicate.operands, Test.render, toString, String.append_assoc] using hspliced

theorem spliced_of_guard {c : Condition} {g : Formula Test} (hc : Condition.WellFormed c)
    (h : GuardFor effects c g) :
    Spliced effects ((c.atoms.flatMap Predicate.operands).flatMap Operand.codes)
      (renderGuard g) := by
  obtain ⟨pairs, rfl, rfl, hpairs⟩ := h
  rw [List.flatMap_assoc, Formula.atoms_map, List.flatMap_map, renderGuard, Formula.render_map]
  refine Spliced.render fun pair hpair => spliced_of_test (hc.atoms _ ?_) (hpairs pair hpair)
  rw [Formula.atoms_map]
  exact List.mem_map_of_mem hpair

/-- The list of all objects of a type begins with a bracket, after a blank. -/
theorem indexed_members {typeName : String} (h : IsName typeName) :
    Indexed effects (Setup.members typeName).render := by
  have hlist : Indexed effects (" = " ++ "[" ++ "obj_id for (obj_id, obj_type,_,_,_,_) in ") :=
    .opens (by decide) (.of_ne (by decide +kernel)) (.inl ⟨" ", by decide, by decide⟩)
  have hstate : Indexed effects ("states" ++ "[" ++ "0] if obj_type == ") :=
    .opens (by decide) (.of_ne (by decide)) (.inl ⟨"states", by decide, by decide⟩)
  have hquoted : Indexed effects (quote typeName ++ "]") :=
    (indexed_quote h).append (.of_ne (by decide))
  have hquery := hlist.append hstate
  have hsplit : (" = " ++ "[" ++ "obj_id for (obj_id, obj_type,_,_,_,_) in ") ++
      ("states" ++ "[" ++ "0] if obj_type == ") =
        " = " ++ "[obj_id for (obj_id, obj_type,_,_,_,_) in states[0] if obj_type == " := by
    decide +kernel
  have hassoc : ∀ a b c d e : String, (a ++ b) ++ (c ++ d ++ e) = a ++ (b ++ c) ++ (d ++ e) := by
    intro a b c d e
    simp only [String.append_assoc]
  rw [hsplit] at hquery
  have htext : (Setup.members typeName).render = (Script.membersName typeName ++ " = ") ++
      ("[obj_id for (obj_id, obj_type,_,_,_,_) in states[0] if obj_type == " ++ quote typeName ++
        "]") := rfl
  rw [htext, hassoc]
  exact ((indexed_membersName h).append hquery).append hquoted

theorem indexed_typeOf {name : String} {slot : Slot} (hname : IsName name)
    (h : LastOccurrence effects name slot) : Indexed effects (Setup.typeOf name slot).render := by
  have hstate : Indexed effects (", states" ++ "[" ++ "0])") :=
    .opens (by decide) (.of_ne (by decide)) (.inl ⟨"states", by decide, by decide⟩)
  have hlookup : Indexed effects "lookup_type(" := .of_ne (by decide)
  exact ((indexed_typeOfName hname).append (.of_ne (by decide))).append
    ((hlookup.append (indexed_render_slot h)).append hstate)

theorem indexed_setup {rule : Rule} {block : Block} (hrule : rule.WellFormed)
    (h : Block.ofRule rule = .ok block) : ∀ setup ∈ block.setup,
      Indexed rule.effects setup.render := by
  intro setup hsetup
  have hneeded := hsetup
  rw [setup_of_ofRule h, List.mem_eraseDups, List.mem_filterMap] at hneeded
  obtain ⟨operand, hoperand, hneeded⟩ := hneeded
  cases hrule.operands operand hoperand with
  | all hname =>
    obtain rfl := Option.some.inj hneeded
    exact indexed_members hname
  | type hname =>
    obtain ⟨slot, -, rfl⟩ := Option.map_eq_some_iff.mp hneeded
    exact indexed_typeOf hname ((blockFor_of_ofRule h).setup _ slot hsetup)
  | value => cases hneeded
  | list => cases hneeded

theorem indexed_addStatement {rule : Rule} {block : Block} (hrule : rule.WellFormed)
    (h : BlockFor rule block) : Indexed rule.effects block.addStatement := by
  have hstate : Indexed rule.effects ("g.add((states" ++ "[" ++ "0],") :=
    .opens (by decide) (.of_ne (by decide)) (.inl ⟨"states", by decide, by decide⟩)
  have hname : Indexed rule.effects (quote block.intention) :=
    indexed_quote (h.intention ▸ hrule.intention.name)
  have hargs := indexed_renderPieces hrule.intention.args.each h.args
  exact (((hstate.append hname).append (.of_ne (by decide))).append hargs).append
    (.of_ne (by decide))

/-- The comparison of the actions with the effects of a rule. -/
theorem indexed_head {rule : Rule} (hrule : rule.WellFormed) :
    Indexed effects ("    if actions == (" ++ (effectNames rule ++ "):\n")) := by
  have hnames : Over (· ≠ '[') (effectNames rule) := by
    refine over_join (List.forall_mem_map.mpr fun effect heffect => ?_)
    have hname := (hrule.effects effect heffect).name.spelling
    exact over_append.mpr
      ⟨over_quote_of_spelling (fun _ hc => hc.ne (by decide)) (by decide) hname, by decide⟩
  exact (Indexed.of_ne (by decide)).append ((Indexed.of_ne hnames).append (.of_ne (by decide)))

/-- **A block is spliced from the inline code of its rule's condition** and from pieces in which
each index is that of a last occurrence. -/
theorem spliced_of_ofRule {rule : Rule} {block : Block} (hrule : rule.WellFormed)
    (h : Block.ofRule rule = .ok block) :
    Spliced rule.effects rule.conditionCodes (Line.renderAll block.lines) := by
  have hblock := blockFor_of_ofRule h
  have hadd : ∀ depth,
      Spliced rule.effects [] (Line.renderAll [⟨depth, block.addStatement⟩]) := fun depth =>
    .renderAll (List.forall_mem_singleton.mpr (indexed_addStatement hrule hblock))
  have hguard := hblock.guard
  rw [renderAll_lines h]
  refine .before (indexed_head hrule) ?_
  rw [Block.lines, List.tail_cons, Rule.conditionCodes, Rule.operands]
  cases hc : rule.condition with
  | none =>
    rw [hc] at hguard
    cases hg : block.guard with
    | none => exact hadd 2
    | some g =>
      rw [hg] at hguard
      cases hguard
  | some c =>
    rw [hc] at hguard
    cases hg : block.guard with
    | none =>
      rw [hg] at hguard
      cases hguard
    | some g =>
      rw [hg] at hguard
      cases hguard with
      | some hguard =>
        have htest := spliced_of_guard (hrule.condition c hc) hguard
        have hif : Spliced rule.effects ((c.atoms.flatMap Predicate.operands).flatMap Operand.codes)
            s!"if {renderGuard g}:" :=
          (htest.before (.of_ne (by decide))).after (.of_ne (by decide))
        have hsetups : Spliced rule.effects []
            (Line.renderAll (block.setup.map fun setup => ⟨2, setup.render⟩)) :=
          .renderAll (List.forall_mem_map.mpr (indexed_setup hrule h))
        have hspliced := hsetups.append ((hif.render_line 2).append (hadd 3))
        rw [List.append_nil, List.nil_append] at hspliced
        dsimp only
        rw [Line.renderAll_append, Line.renderAll_cons]
        exact hspliced

/-! ## Bodies -/

/-- The text is made of the codes, in order, and of pieces around them. In these each index of
observed arguments, of one alone or of one with all after it, is that of a last occurrence. -/
def Locates (effects : List Action) (codes : List String) (text : String) : Prop :=
  ∃ first rest, rest.length = codes.length ∧
    text = first ++ String.join (List.zipWith (· ++ ·) codes rest) ∧
    ∀ piece ∈ first :: rest, ∀ before after, piece = before ++ "arguments[" ++ after →
      ∃ name slot more, LastOccurrence effects name slot ∧
        ("arguments[" ++ after = slot.render ++ more ∨
          "arguments[" ++ after = (Piece.tail slot).render ++ more)

theorem Spliced.locates {codes : List String} {text : String} (h : Spliced effects codes text) :
    Locates effects codes text := by
  obtain ⟨first, rest, hlength, htext, hpieces⟩ := h.exists_pieces
  refine ⟨first, rest, hlength, htext, fun piece hpiece before after heq => ?_⟩
  obtain ⟨name, slot, hlast, close, hclose, more, hmore⟩ := (hpieces piece hpiece).cites_of_eq heq
  have hafter : after = s!"{slot.effect}][{slot.arg}" ++ close ++ String.ofList more := by
    apply String.toList_inj.mp
    rw [← hmore]
    simp [Slot.numbers]
  refine ⟨name, slot, String.ofList more, hlast, ?_⟩
  rcases List.mem_cons.mp hclose with rfl | hclose
  · left
    rw [hafter]
    simp [Slot.render, toString, String.append_assoc]
  · obtain rfl := List.mem_singleton.mp hclose
    right
    rw [hafter]
    simp [Piece.render, toString, String.append_assoc]

/-- **Indices of observed arguments are in range and last.** The slot of a variable is the last
place at which an effect names it, if there is one. In the blocks of a program every place that
observes an argument observes such a slot, and stands for its variable. The text of the blocks, of a
program that was read and apart from inline code, has no other index. -/
theorem Domain.ofProgram_locates :
    (∀ effects name,
      (∀ slot, (Slots.ofEffects effects).slot? name = some slot ↔
        LastOccurrence effects name slot) ∧
      ((Slots.ofEffects effects).slot? name = none ↔
        ∀ effect ∈ effects, .variable name ∉ effect.args)) ∧
    ∀ (program : Program) (domain : Domain), Domain.ofProgram program = .ok domain →
      ∃ blocks : List Block,
        domain.causes = String.join (blocks.map fun block => Line.renderAll block.lines) ∧
        List.Forall₂ BlockFor program.rules blocks ∧
        ∀ (limits : Limits) (text : String), Program.read limits text = .ok program →
          List.Forall₂ (fun rule block =>
            Locates rule.effects rule.conditionCodes (Line.renderAll block.lines))
              program.rules blocks := by
  refine ⟨fun effects name => ⟨fun slot => slot?_eq_some_iff, slot?_eq_none_iff⟩,
    fun program domain h => ?_⟩
  obtain ⟨blocks, hblocks, rfl⟩ := Domain.ofProgram_eq_ok_iff.mp h
  have hof := mapM_eq_ok_iff.mp hblocks
  refine ⟨blocks, Line.renderAll_flatMap Block.lines blocks,
    hof.imp fun rule block => blockFor_of_ofRule, fun limits text hread => ?_⟩
  have hwell := Program.wellFormed_of_read hread
  refine List.forall₂_iff_get.mpr ⟨hof.length_eq, fun i hi hi' => ?_⟩
  exact (spliced_of_ofRule (hwell.rules _ (List.getElem_mem hi)) (hof.get hi hi')).locates

/-- The text of a rule with inline code and with a variable that two effects name. -/
def releasingText : String :=
  "RULES \x7b if (PYTHON(#wet#)): put(x) := grasp(x), release(y, x) \x7d"

/-- The variable is observed where the second effect names it. -/
theorem releasing_located : ∃ program domain rule block,
    Program.read ⟨100, 1⟩ releasingText = .ok program ∧ program.rules = [rule] ∧
    Domain.ofProgram program = .ok domain ∧ domain.causes = Line.renderAll block.lines ∧
    LastOccurrence rule.effects "x" ⟨1, 1⟩ ∧ BlockFor rule block ∧
    Locates rule.effects ["wet"] (Line.renderAll block.lines) := by
  have hprogram : ((Program.read ⟨100, 1⟩ releasingText).toOption.any fun program =>
      decide (program.rules.length = 1) && (Domain.ofProgram program).isOk &&
        program.rules.all fun rule => decide (rule.conditionCodes = ["wet"] ∧
          (Slots.ofEffects rule.effects).slot? "x" = some ⟨1, 1⟩)) = true := by
    decide +kernel
  obtain ⟨program, hread, hprogram⟩ := exists_of_any_toOption hprogram
  obtain ⟨hprogram, hrules⟩ := Bool.and_eq_true_iff.mp hprogram
  obtain ⟨hlength, hok⟩ := Bool.and_eq_true_iff.mp hprogram
  obtain ⟨rule, hrule⟩ := List.length_eq_one_iff.mp (of_decide_eq_true hlength)
  obtain ⟨domain, hdomain⟩ := exists_of_isOk hok
  rw [hrule, List.all_cons, List.all_nil, Bool.and_true] at hrules
  obtain ⟨hcodes, hslot⟩ := of_decide_eq_true hrules
  obtain ⟨hslots, hbodies⟩ := Domain.ofProgram_locates
  obtain ⟨blocks, hcauses, hblocks, hlocates⟩ := hbodies program domain hdomain
  have hlocates := hlocates _ _ hread
  rw [hrule] at hblocks hlocates
  obtain ⟨block, _, hblock, hnil, rfl⟩ := List.forall₂_cons_left_iff.mp hblocks
  obtain rfl := List.forall₂_nil_left_iff.mp hnil
  obtain ⟨hlocates, -⟩ := List.forall₂_cons.mp hlocates
  refine ⟨program, domain, rule, block, hread, hrule, hdomain, ?_,
    ((hslots rule.effects "x").1 ⟨1, 1⟩).mp hslot, hblock, hcodes ▸ hlocates⟩
  rw [hcauses, List.map_singleton, String.join_cons]
  exact String.append_empty

/-- The text of a rule whose inline code has an index of its own. -/
def foreignIndexText : String :=
  "RULES \x7b if (PYTHON(#arguments[7][7]#)): m() := f() \x7d"

/-- **Inline code may bring in an index of its own**, of an effect that no rule has. -/
theorem foreignIndex_copied : ∃ program domain,
    Program.read ⟨100, 1⟩ foreignIndexText = .ok program ∧
    Domain.ofProgram program = .ok domain ∧
    (∃ before after, domain.causes = before ++ Slot.render ⟨7, 7⟩ ++ after) ∧
    ∀ rule ∈ program.rules, rule.effects[7]? = none := by
  have hdomain : ((Program.read ⟨100, 1⟩ foreignIndexText).toOption.any fun program =>
      (program.rules.all fun rule => decide (rule.effects.length ≤ 7)) &&
        (Domain.ofProgram program).toOption.any fun domain => decide (domain =
          ⟨"    if actions == ('f',):\n        if " ++ Slot.render ⟨7, 7⟩ ++ (":\n" ++
            "            g.add((states[0],'m',()))\n"), 1⟩)) = true := by
    decide +kernel
  obtain ⟨program, hread, hdomain⟩ := exists_of_any_toOption hdomain
  obtain ⟨hshort, hdomain⟩ := Bool.and_eq_true_iff.mp hdomain
  obtain ⟨domain, hof, hdomain⟩ := exists_of_any_toOption hdomain
  obtain rfl := of_decide_eq_true hdomain
  refine ⟨program, _, hread, hof, ⟨_, _, rfl⟩, fun rule hrule => ?_⟩
  exact List.getElem?_eq_none (of_decide_eq_true (List.all_eq_true.mp hshort rule hrule))

end CausalRules.Facility
