import CausalRules.Facility.Text
import CausalRules.Proofs.Facility.Names
import CausalRules.Proofs.Spelling

/-!
# What facility blocks are spelled with

Inline code is copied into the condition of a block. All else in a block is plain: names, numbers and
quoted texts of a program that was read, and the words of the script.

- `IsTame`, `IsBare`: the characters of tuples, and of single values.
- `tame_of_pieces`, `over_of_test`, `over_of_guard`, `plain_of_setup`: the parts of a block.
- `over_lines`: its lines have the characters of the rule's inline code, and plain ones.
- `Domain.hashless_ofProgram`: the body of the function that collects causes holds no comment.
-/

namespace CausalRules

namespace Facility

open Script (Line IsPlain membersName over_identifier over_membersName)

/-! ## Tuples and values -/

/-- A plain character that is no sign of equality. -/
def IsTame (c : Char) : Prop :=
  IsPlain c ∧ c ≠ '='

/-- A tame character that opens no parenthesis. -/
def IsBare (c : Char) : Prop :=
  IsTame c ∧ c ≠ '('

instance : DecidablePred IsTame := fun c =>
  inferInstanceAs (Decidable (IsPlain c ∧ c ≠ '='))

instance : DecidablePred IsBare := fun c =>
  inferInstanceAs (Decidable (IsTame c ∧ c ≠ '('))

theorem IsBare.plain {c : Char} (h : IsBare c) : IsPlain c :=
  h.1.1

theorem isBare_of_isSpelling {c : Char} (h : IsSpelling c) : IsBare c :=
  ⟨⟨isPlain_of_isSpelling h, h.ne (by decide)⟩, h.ne (by decide)⟩

/-! ## Parts of a block -/

section Parts

variable {P : Char → Prop} {slots : Slots} {position : Nat}

theorem bare_render_slot (slot : Slot) : Over IsBare slot.render := by
  have hdigits : ∀ n : Nat, Over IsBare (toString n) :=
    over_toString fun _ hc => isBare_of_isSpelling (isSpelling_of_isDigit hc)
  have hsigns : Over IsBare "arguments[" ∧ Over IsBare "][" ∧ Over IsBare "]" := by decide
  simp only [Slot.render, over_append]
  exact ⟨⟨⟨⟨hsigns.1, hdigits _⟩, hsigns.2.1⟩, hdigits _⟩, hsigns.2.2⟩

theorem tame_of_pieces {args : List Arg} {parts : List Piece}
    (hargs : ∀ arg ∈ args, arg.WellFormed) (h : pieces slots position args = .ok parts) :
    ∀ part ∈ parts, Over IsTame part.render := by
  have hslot : ∀ slot : Slot, Over IsTame slot.render := fun slot =>
    (bare_render_slot slot).mono fun _ hc => hc.1
  have hitem : ∀ slot, Over IsTame (Piece.item slot).render := fun slot =>
    over_append.mpr ⟨over_append.mpr ⟨by decide, hslot slot⟩, by decide⟩
  have htail : ∀ slot, Over IsTame (Piece.tail slot).render := by
    intro slot
    have hslot := hslot slot
    simp only [Slot.render, over_append] at hslot
    simp only [Piece.render, over_append]
    exact ⟨hslot.1, by decide⟩
  intro part hpart
  rcases mem_of_pieces h part hpart with ⟨slot, rfl | rfl⟩ | ⟨arg, harg, value, hvalue, rfl⟩
  · exact hitem slot
  · exact htail slot
  · have hconstant : Over IsTame value.render := over_of_constant?
      (fun _ hc => (isBare_of_isSpelling hc).1) (by decide) (hargs arg harg) hvalue
    exact over_append.mpr ⟨over_append.mpr ⟨by decide, hconstant⟩, by decide⟩

/-- A tuple that is written out is tame. -/
theorem tame_renderPieces {args : List Arg} {parts : List Piece}
    (hargs : ∀ arg ∈ args, arg.WellFormed) (h : pieces slots position args = .ok parts) :
    Over IsTame (renderPieces parts) := by
  unfold renderPieces
  split
  · decide
  · exact over_intercalate (by decide) (List.forall_mem_map.mpr (tame_of_pieces hargs h))

theorem bare_typeOfName {name : String} (h : IsName name) : Over IsBare (typeOfName name) :=
  over_append.mpr ⟨over_identifier (h.spelling.mono fun _ => isBare_of_isSpelling) (by decide),
    by decide⟩

theorem bare_membersName {name : String} (h : IsName name) : Over IsBare (membersName name) :=
  over_append.mpr ⟨by decide,
    over_identifier (h.spelling.mono fun _ => isBare_of_isSpelling) (by decide)⟩

/-- A term is inline code, or plain. -/
theorem over_of_term (hplain : ∀ c, IsPlain c → P c) {operand : Operand} {t : Term}
    (hoperand : operand.WellFormed) (hcodes : ∀ code ∈ operand.codes, Over P code)
    (h : term slots position operand = .ok t) : Over P t.render := by
  cases hoperand with
  | value harg hcontinuation =>
    cases harg with
    | «variable» =>
      obtain ⟨slot, -, h⟩ := bind_eq_ok.mp h
      obtain rfl := pure_eq_ok.mp h
      exact (bare_render_slot slot).mono fun c hc => hplain c hc.plain
    | literal htext =>
      obtain rfl := pure_eq_ok.mp h
      exact over_quote_of_spelling (fun c hc => hplain c (isPlain_of_isSpelling hc))
        (hplain _ (by decide)) htext.spelling
    | number hnumber =>
      obtain rfl := pure_eq_ok.mp h
      exact hnumber.spelling.mono fun c hc => hplain c (isPlain_of_isSpelling hc)
    | continuation => cases h
    | state => cases h
    | python =>
      obtain rfl := pure_eq_ok.mp h
      exact hcodes _ (List.mem_singleton_self _)
  | type hname =>
    obtain ⟨slot, -, h⟩ := bind_eq_ok.mp h
    obtain rfl := pure_eq_ok.mp h
    exact (bare_typeOfName hname).mono fun c hc => hplain c hc.plain
  | all => cases h
  | list => cases h

theorem plain_of_membersTest {op : Comparison} {typeName : String} {items : List Arg} {t : Test}
    (hname : IsName typeName) (hitems : ArgsWellFormed items)
    (h : membersTest slots position op typeName items = .ok t) : Over IsPlain t.render := by
  unfold membersTest at h
  split at h
  · obtain ⟨parts, hparts, h⟩ := bind_eq_ok.mp h
    obtain rfl := pure_eq_ok.mp h
    have hsigns : Over IsPlain "set(" ∧ Over IsPlain ") == set(" ∧ Over IsPlain ")" := by decide
    have hlisted : Over IsPlain (renderPieces parts) :=
      (tame_renderPieces hitems.each hparts).mono fun _ hc => hc.1
    simp only [Test.render, toString, over_append]
    exact ⟨⟨⟨⟨hsigns.1, over_membersName hname.plain⟩, hsigns.2.1⟩, hlisted⟩, hsigns.2.2⟩
  · cases h

theorem over_of_test (hplain : ∀ c, IsPlain c → P c) {p : Predicate} {t : Test}
    (hp : p.WellFormed) (hcodes : ∀ operand ∈ p.operands, ∀ code ∈ operand.codes, Over P code)
    (h : test slots p = .ok t) : Over P t.render := by
  unfold test at h
  split at h
  · obtain rfl := pure_eq_ok.mp h
    exact hcodes _ (List.mem_singleton_self _) _ (List.mem_singleton_self _)
  · cases h
  · obtain ⟨hleft, hright⟩ := hp
    split at h
    · cases hleft with
      | all hname =>
        cases hright with
        | list hitems => exact (plain_of_membersTest hname hitems h).mono hplain
    · cases hleft with
      | list hitems =>
        cases hright with
        | all hname => exact (plain_of_membersTest hname hitems h).mono hplain
    · cases h
    · cases h
    · cases h
    · cases h
    · split at h
      · cases h
      · obtain ⟨left, hl, h⟩ := bind_eq_ok.mp h
        obtain ⟨right, hr, h⟩ := bind_eq_ok.mp h
        obtain rfl := pure_eq_ok.mp h
        have hlcodes := hcodes _ (List.mem_cons_self ..)
        have hrcodes := hcodes _ (List.mem_cons_of_mem _ (List.mem_singleton_self _))
        have hspace : Over P " " := Over.mono (P := IsPlain) (by decide) hplain
        simp only [Test.render, toString, over_append]
        exact ⟨⟨⟨⟨over_of_term hplain hleft hlcodes hl, hspace⟩, (over_scriptSign _).mono hplain⟩,
          hspace⟩, over_of_term hplain hright hrcodes hr⟩

theorem over_of_guard (hplain : ∀ c, IsPlain c → P c) {c : Condition} {g : Formula Test}
    (hc : Condition.WellFormed c)
    (hcodes : ∀ p ∈ c.atoms, ∀ operand ∈ p.operands, ∀ code ∈ operand.codes, Over P code)
    (h : guard slots c = .ok g) : Over P (renderGuard g) := by
  obtain ⟨pairs, rfl, rfl, hpairs⟩ := exists_pairs_of_guard h
  refine Formula.over_render hplain ?_
  rw [Formula.atoms_map, List.forall_mem_map]
  intro pair hpair
  have hatom : pair.1 ∈ (pairs.map Prod.fst).atoms := by
    rw [Formula.atoms_map]
    exact List.mem_map_of_mem hpair
  exact over_of_test hplain (hc.atoms _ hatom) (hcodes _ hatom) (hpairs pair hpair)

/-- What an operand needs is computed by plain statements. -/
theorem plain_of_setup {operand : Operand} {setup : Setup} (hoperand : operand.WellFormed)
    (h : neededFor slots operand = some setup) : Over IsPlain setup.render := by
  cases hoperand with
  | all hname =>
    obtain rfl := Option.some.inj h
    have hquery : Over IsPlain
        "[obj_id for (obj_id, obj_type,_,_,_,_) in states[0] if obj_type == " := by decide +kernel
    have hsigns : Over IsPlain " = " ∧ Over IsPlain "]" := by decide
    refine over_append.mpr ⟨over_append.mpr ⟨over_membersName hname.plain, hsigns.1⟩, ?_⟩
    exact over_append.mpr
      ⟨over_append.mpr ⟨hquery, over_quote_of_plain hname.plain⟩, hsigns.2⟩
  | type hname =>
    obtain ⟨slot, -, rfl⟩ := Option.map_eq_some_iff.mp h
    have hsigns : Over IsPlain " = " ∧ Over IsPlain "lookup_type(" ∧
        Over IsPlain ", states[0])" := by decide
    have hslot := (bare_render_slot slot).mono fun _ => IsBare.plain
    have hvariable := (bare_typeOfName hname).mono fun _ => IsBare.plain
    refine over_append.mpr ⟨over_append.mpr ⟨hvariable, hsigns.1⟩, ?_⟩
    exact over_append.mpr ⟨over_append.mpr ⟨hsigns.2.1, hslot⟩, hsigns.2.2⟩
  | value => cases h
  | list => cases h

end Parts

/-! ## Blocks -/

variable {P : Char → Prop}

/-- The lines of a block have the characters of the rule's inline code, and plain ones. -/
theorem over_lines (hplain : ∀ c, IsPlain c → P c) {rule : Rule} {block : Block}
    (hrule : rule.WellFormed) (hcodes : ∀ code ∈ rule.codes, Over P code)
    (h : Block.ofRule rule = .ok block) : ∀ line ∈ block.lines, Over P line.text := by
  obtain ⟨heffects, hintention, hargs, hguard⟩ := eq_of_ofRule h
  have hhead : Over IsPlain s!"if actions == {block.actionsTuple}:" := by
    have hsigns : Over IsPlain "if actions == " ∧ Over IsPlain ":" ∧ Over IsPlain "(" ∧
        Over IsPlain ")" ∧ Over IsPlain "," := by decide
    have hnames : ∀ name ∈ block.effects, Over IsPlain (Script.quote name ++ ",") := by
      rw [heffects, List.forall_mem_map]
      exact fun effect heffect => over_append.mpr
        ⟨over_quote_of_plain (hrule.effects effect heffect).name.plain, hsigns.2.2.2.2⟩
    simp only [toString, Block.actionsTuple, over_append]
    exact ⟨⟨hsigns.1, ⟨hsigns.2.2.1, over_join (List.forall_mem_map.mpr hnames)⟩,
      hsigns.2.2.2.1⟩, hsigns.2.1⟩
  have hadd : Over IsPlain block.addStatement := by
    have hsigns : Over IsPlain "g.add((states[0]," ∧ Over IsPlain "," ∧ Over IsPlain "))" := by
      decide +kernel
    have hname : Over IsPlain (Script.quote block.intention) :=
      over_quote_of_plain (hintention ▸ hrule.intention.name.plain)
    have htuple := (tame_renderPieces hrule.intention.args.each hargs).mono fun _ hc => hc.1
    exact over_append.mpr ⟨over_append.mpr ⟨over_append.mpr ⟨over_append.mpr
      ⟨hsigns.1, hname⟩, hsigns.2.1⟩, htuple⟩, hsigns.2.2⟩
  have hsetup : ∀ setup ∈ block.setup, Over IsPlain setup.render := by
    intro setup hsetup
    rw [setup_of_ofRule h, List.mem_eraseDups, List.mem_filterMap] at hsetup
    obtain ⟨operand, hoperand, hsetup⟩ := hsetup
    exact plain_of_setup (hrule.operands operand hoperand) hsetup
  refine List.forall_mem_cons.mpr ⟨hhead.mono hplain, ?_⟩
  cases hc : rule.condition with
  | none =>
    rw [hc] at hguard
    rw [← pure_eq_ok.mp hguard]
    exact List.forall_mem_singleton.mpr (hadd.mono hplain)
  | some c =>
    rw [hc] at hguard
    obtain ⟨g, hg, hsome⟩ := map_eq_ok.mp hguard
    have htest : Over P (renderGuard g) := by
      refine over_of_guard hplain (hrule.condition c hc) ?_ hg
      intro p hp operand hoperand code hcode
      exact hcodes code (Rule.mem_codes_of_operand (Rule.mem_operands hc hp hoperand) hcode)
    have hif : Over P s!"if {renderGuard g}:" := by
      have hsigns : Over IsPlain "if " ∧ Over IsPlain ":" := by decide
      simp only [toString, over_append]
      exact ⟨⟨hsigns.1.mono hplain, htest⟩, hsigns.2.mono hplain⟩
    rw [← hsome]
    refine List.forall_mem_append.mpr ⟨List.forall_mem_map.mpr fun setup hmem => ?_, ?_⟩
    · exact (hsetup setup hmem).mono hplain
    · exact List.forall_mem_cons.mpr ⟨hif, List.forall_mem_singleton.mpr (hadd.mono hplain)⟩

/-- **The body of the function that collects causes holds no comment.** -/
theorem Domain.hashless_ofProgram {program : Program} {domain : Domain}
    (hprogram : program.WellFormed) (h : Domain.ofProgram program = .ok domain) :
    Hashless domain.causes := by
  obtain ⟨blocks, hblocks, h⟩ := bind_eq_ok.mp h
  obtain rfl := pure_eq_ok.mp h
  have hrules := mapM_eq_ok_iff.mp hblocks
  refine hashless_iff_over.mpr (Line.over_renderAll (fun line hline => ?_) (by decide) (by decide))
  obtain ⟨block, hblock, hline⟩ := List.mem_flatMap.mp hline
  obtain ⟨rule, hrule, hof⟩ := exists_of_forall₂ hrules.flip hblock
  have hwell := hprogram.rules rule hrule
  exact over_lines (fun _ hc => hc.1) hwell (fun _ => hwell.hashless_codes) hof line hline

end Facility

end CausalRules
