import CausalRules.Script.Line
import CausalRules.Script.Literal
import CausalRules.Script.Name
import CausalRules.Script.Sign

/-!
# What rendered texts consist of

- `Line.renderAll_eq_join`: the text of lines is that of each line, one after the other, and that of
  several blocks of lines is that of each block (`Line.renderAll_flatMap`).
- `Over`: texts whose characters have a property. Texts put together from such texts are such texts.
- `Script.IsPlain`: characters that neither begin a comment nor end a line. Everything that is rendered
  consists of them, inline code apart.
- `Hashless`: texts without the sign that begins a comment.
-/

namespace CausalRules

namespace Script

theorem Line.toList_margin (line : Line) :
    line.margin.toList = List.replicate (4 * line.depth) ' ' := by
  obtain ⟨depth, text⟩ := line
  unfold margin
  induction depth with
  | zero => rfl
  | succ depth ih =>
    have hindent : indent.toList = List.replicate 4 ' ' := by decide
    rw [List.replicate_succ, String.join_cons, String.toList_append, ih, hindent,
      List.replicate_append_replicate]
    exact congrArg (List.replicate · ' ') (Nat.add_comm ..)

/-- In front of the text of a line there are blanks only. -/
theorem Line.eq_of_mem_margin {line : Line} {c : Char} (h : c ∈ line.margin.toList) : c = ' ' := by
  rw [toList_margin] at h
  exact List.eq_of_mem_replicate h

theorem Line.renderAll_eq_join (lines : List Line) :
    renderAll lines = String.join (lines.map render) := by
  rw [renderAll, String.join, List.foldl_map]

theorem Line.renderAll_cons (line : Line) (lines : List Line) :
    renderAll (line :: lines) = line.render ++ renderAll lines := by
  rw [renderAll_eq_join, renderAll_eq_join, List.map_cons, String.join_cons]

theorem Line.renderAll_append (lines lines' : List Line) :
    renderAll (lines ++ lines') = renderAll lines ++ renderAll lines' := by
  rw [renderAll_eq_join, renderAll_eq_join, renderAll_eq_join, List.map_append, String.join_append]

theorem Line.renderAll_flatMap {α : Type} (lines : α → List Line) (as : List α) :
    renderAll (as.flatMap lines) = String.join (as.map fun a => renderAll (lines a)) := by
  induction as with
  | nil => rfl
  | cons a as ih => rw [List.flatMap_cons, renderAll_append, ih, List.map_cons, String.join_cons]

/-- The character neither begins a comment nor ends a line. -/
def IsPlain (c : Char) : Prop :=
  c ≠ '#' ∧ c ≠ '\n'

instance : DecidablePred IsPlain := fun c =>
  inferInstanceAs (Decidable (c ≠ '#' ∧ c ≠ '\n'))

end Script

open Script (IsPlain)

/-- Every character of the text has the property. -/
def Over (P : Char → Prop) (text : String) : Prop :=
  ∀ c ∈ text.toList, P c

instance (P : Char → Prop) [DecidablePred P] (text : String) : Decidable (Over P text) :=
  List.decidableBAll P text.toList

/-- No comment begins in the text. -/
def Hashless (text : String) : Prop :=
  '#' ∉ text.toList

theorem hashless_iff_over {text : String} : Hashless text ↔ Over (· ≠ '#') text := by
  constructor
  · intro h c hc heq
    exact h (heq ▸ hc)
  · intro h hmem
    exact h '#' hmem rfl

section Over

variable {P Q : Char → Prop} {text : String} {texts : List String}

theorem Over.mono (h : Over P text) (himp : ∀ c, P c → Q c) : Over Q text :=
  fun c hc => himp c (h c hc)

@[simp] theorem over_append {before after : String} :
    Over P (before ++ after) ↔ Over P before ∧ Over P after := by
  rw [Over, String.toList_append, List.forall_mem_append]
  rfl

@[simp] theorem over_ofList {cs : List Char} : Over P (String.ofList cs) ↔ ∀ c ∈ cs, P c := by
  rw [Over, String.toList_ofList]

theorem over_toString (hdigits : ∀ c, c.isDigit = true → P c) (n : Nat) : Over P (toString n) := by
  rw [Nat.toString_eq_ofList_toDigits, over_ofList]
  exact fun c hc => hdigits c (Nat.isDigit_of_mem_toDigits (by omega) (by omega) hc)

theorem over_join (h : ∀ text ∈ texts, Over P text) : Over P (String.join texts) := by
  induction texts with
  | nil => exact List.forall_mem_nil _
  | cons text texts ih =>
    obtain ⟨htext, htexts⟩ := List.forall_mem_cons.mp h
    rw [String.join_cons]
    exact over_append.mpr ⟨htext, ih htexts⟩

theorem over_intercalate {separator : String} (hseparator : Over P separator)
    (h : ∀ text ∈ texts, Over P text) : Over P (separator.intercalate texts) := by
  induction texts with
  | nil => exact List.forall_mem_nil _
  | cons text texts ih =>
    obtain ⟨htext, htexts⟩ := List.forall_mem_cons.mp h
    by_cases hnil : texts = []
    · rwa [hnil, String.intercalate_singleton]
    · rw [String.intercalate_cons_of_ne_nil hnil]
      exact over_append.mpr ⟨over_append.mpr ⟨htext, hseparator⟩, ih htexts⟩

theorem over_map {f : Char → Char} (h : Over P text) (hf : ∀ c, P c → Q (f c)) :
    Over Q (String.ofList (text.toList.map f)) := by
  rw [over_ofList, List.forall_mem_map]
  exact fun c hc => hf c (h c hc)

theorem isPlain_of_isDigit {c : Char} (h : c.isDigit = true) : IsPlain c := by
  refine ⟨?_, ?_⟩
  · rintro rfl
    cases h
  · rintro rfl
    cases h

theorem over_scriptSign (op : Comparison) : Over IsPlain op.scriptSign := by
  cases op <;> decide

/-- A formula consists of what its tests consist of, and of plain characters. -/
theorem Formula.over_render {α : Type} {f : Formula α} {test : α → String}
    (hplain : ∀ c, IsPlain c → P c) (h : ∀ a ∈ f.atoms, Over P (test a)) :
    Over P (f.render test Connective.scriptWord) := by
  have hspace : Over P " " := Over.mono (P := IsPlain) (by decide) hplain
  induction f with
  | atom a => exact h a (List.mem_singleton_self a)
  | group inner ih =>
    have hopen : Over P "(" := Over.mono (P := IsPlain) (by decide) hplain
    have hclose : Over P ")" := Over.mono (P := IsPlain) (by decide) hplain
    simp only [Formula.render, over_append]
    exact ⟨⟨hopen, ih h⟩, hclose⟩
  | chain left op right ihl ihr =>
    obtain ⟨hleft, hright⟩ := List.forall_mem_append.mp h
    have hword : Over IsPlain op.scriptWord := by cases op <;> decide
    simp only [Formula.render, over_append]
    exact ⟨⟨⟨⟨ihl hleft, hspace⟩, hword.mono hplain⟩, hspace⟩, ihr hright⟩

namespace Script

/-- A quoted text is plain when no comment begins in the text, for its line ends are written out. -/
theorem over_quote (h : Over (· ≠ '#') text) : Over IsPlain (quote text) := by
  have hescaped : ∀ {c}, IsPlain c → ∀ d ∈ ['\\', c], IsPlain d := fun hc =>
    List.forall_mem_cons.mpr ⟨by decide, List.forall_mem_singleton.mpr hc⟩
  have hchar : ∀ c, c ≠ '#' → ∀ d ∈ quoteChar c, IsPlain d := by
    intro c hc
    unfold quoteChar
    split
    · exact hescaped (by decide)
    · exact hescaped (by decide)
    · exact hescaped (by decide)
    · rename_i hline
      exact List.forall_mem_singleton.mpr ⟨hc, hline⟩
  have hmark : IsPlain '\'' := by decide
  rw [quote, over_ofList, List.forall_mem_cons, List.forall_mem_append, List.forall_mem_singleton]
  refine ⟨hmark, ?_, hmark⟩
  intro d hd
  obtain ⟨c, hc, hd⟩ := List.mem_flatMap.mp hd
  exact hchar c (h c hc) d hd

/-- The characters of an identifier are those of the name, underscores apart. -/
theorem over_identifier_of_ne {name : String} (h : Over P name) (hQ : ∀ c, P c → c ≠ '-' → Q c)
    (hline : Q '_') : Over Q (identifier name) := by
  have hunderscored : Over Q (underscored name) := by
    refine over_map h fun c hc => ?_
    split
    · exact hline
    · rename_i hne
      exact hQ c hc hne
  unfold identifier
  dsimp only
  split
  · refine over_append.mpr ⟨hunderscored, ?_⟩
    exact List.forall_mem_singleton.mpr hline
  · exact hunderscored

theorem over_identifier {name : String} (h : Over P name) (hline : P '_') :
    Over P (identifier name) :=
  over_identifier_of_ne h (fun _ hc _ => hc) hline

theorem over_membersName {name : String} (h : Over IsPlain name) :
    Over IsPlain (membersName name) :=
  over_append.mpr ⟨by decide, over_identifier h (by decide)⟩

theorem Line.over_renderAll {lines : List Line} (h : ∀ line ∈ lines, Over P line.text)
    (hspace : P ' ') (hend : P '\n') : Over P (renderAll lines) := by
  rw [renderAll_eq_join]
  refine over_join (List.forall_mem_map.mpr fun line hline => ?_)
  rw [render, over_append, over_append]
  refine ⟨⟨?_, h line hline⟩, List.forall_mem_singleton.mpr hend⟩
  intro c hc
  rw [eq_of_mem_margin hc]
  exact hspace

end Script

end Over

end CausalRules
