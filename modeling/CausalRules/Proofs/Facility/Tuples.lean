import CausalRules.Facility.Text
import CausalRules.Proofs.Facility.Tests
import CausalRules.Proofs.Script.Tuples

/-!
# Facility tuples are read as what they hold

The arguments of an intention, and the values that all objects of a type are compared with, are
written as a concatenation: each single value as a tuple of one, each tail as a slice of the
observed arguments, and no parts at all as the empty tuple.

- `tupleSymbols`, `renderPieces_eq_join`: the text of a tuple is the text of its symbols.
- `readsTuple_iff`: what is read from it is what the parts hold.
-/

namespace CausalRules.Facility

open Script (TupleSymbol Slice ReadsTuple contents? contents?_cons contents?_append
  contents?_cons_sign)

/-! ## Text -/

/-- What a part of a tuple is written with. -/
def Piece.symbols : Piece → List (TupleSymbol Term Slot)
  | .item slot => [.opening, .item (.item slot), .comma, .closing]
  | .constant value => [.opening, .item (.constant value), .comma, .closing]
  | .tail slot => [.slice slot]

/-- What a tuple is written with. -/
def tupleSymbols : List Piece → List (TupleSymbol Term Slot)
  | [] => [.opening, .closing]
  | [part] => part.symbols
  | part :: next :: rest => part.symbols ++ .plus :: tupleSymbols (next :: rest)

/-- The observed arguments from a slot on, in the script. -/
def Slot.renderSlice (slot : Slot) : String :=
  s!"arguments[{slot.effect}][{slot.arg}:]"

/-- How a symbol of a tuple is written. -/
abbrev symbolText : TupleSymbol Term Slot → String :=
  TupleSymbol.text Term.render Slot.renderSlice ", "

theorem render_eq_join_symbols (part : Piece) :
    part.render = String.join (part.symbols.map symbolText) := by
  cases part with
  | item | constant =>
    simp only [Piece.render, Piece.symbols, List.map_cons, List.map_nil, String.join_cons,
      String.join_nil, TupleSymbol.text, Term.render, toString, String.append_assoc,
      String.append_empty]
    rfl
  | tail slot =>
    simp only [Piece.render, Piece.symbols, List.map_cons, List.map_nil, String.join_cons,
      String.join_nil, TupleSymbol.text, Slot.renderSlice, String.append_empty]

/-- **A tuple is written as its symbols**, one after the other. -/
theorem renderPieces_eq_join (parts : List Piece) :
    renderPieces parts = String.join ((tupleSymbols parts).map symbolText) := by
  induction parts with
  | nil => rfl
  | cons part rest ih =>
    cases rest with
    | nil =>
      show "+".intercalate [part.render] = _
      rw [String.intercalate_singleton, render_eq_join_symbols, tupleSymbols]
    | cons next rest =>
      have hcons : renderPieces (part :: next :: rest) =
          part.render ++ "+" ++ renderPieces (next :: rest) := String.intercalate_cons_cons
      rw [hcons, ih, tupleSymbols, List.map_append, String.join_append, List.map_cons,
        String.join_cons, render_eq_join_symbols, String.append_assoc]
      rfl

/-! ## Meaning -/

section Meaning

variable {V : Type} {m : Interpretation V} {arguments : List (List V)} {store : Store V}

/-- Observed arguments are a tuple, and so is a slice of them. -/
def Slot.slice? (arguments : List (List V)) (slot : Slot) : Option (Slice V) :=
  (fun observed => .tuple (observed.drop slot.arg)) <$> arguments[slot.effect]?

theorem contents?_symbols (part : Piece) :
    contents? (Term.value? m arguments store) (Slot.slice? arguments) part.symbols =
      part.values? m arguments := by
  cases part with
  | item slot =>
    rw [Piece.symbols, contents?_cons_sign rfl, contents?_cons, Piece.values?,
      TupleSymbol.values?, Term.value?]
    cases slot.value? arguments <;> rfl
  | constant => rfl
  | tail slot =>
    rw [Piece.symbols, contents?_cons, TupleSymbol.values?, Slot.slice?, Piece.values?]
    cases arguments[slot.effect]? with
    | none => rfl
    | some observed => exact congrArg some (List.append_nil _)

theorem contents?_tupleSymbols (parts : List Piece) :
    contents? (Term.value? m arguments store) (Slot.slice? arguments) (tupleSymbols parts) =
      tuple? m arguments parts := by
  induction parts with
  | nil => rfl
  | cons part rest ih =>
    cases rest with
    | nil =>
      rw [tupleSymbols, contents?_symbols, tuple?_cons]
      cases part.values? m arguments with
      | none => rfl
      | some values => exact congrArg some (List.append_nil values).symm
    | cons next rest =>
      rw [tupleSymbols, contents?_append, contents?_cons_sign rfl, contents?_symbols, ih,
        ← tuple?_cons]

/-- A single value is a tuple of one because of its comma. -/
theorem readsTuple_symbols {part : Piece} {values : List V}
    (h : part.values? m arguments = some values) :
    ReadsTuple (Term.value? m arguments store) (Slot.slice? arguments) part.symbols values := by
  cases part with
  | item slot =>
    obtain ⟨value, hvalue, rfl⟩ := Option.map_eq_some_iff.mp h
    have hitem : Term.value? m arguments store (.item slot) = some value := hvalue
    exact .comma (.one hitem)
  | constant value =>
    obtain rfl := Option.some.inj h
    have hconstant : Term.value? m arguments store (.constant value) = some (m.constant value) := rfl
    exact .comma (.one hconstant)
  | tail slot =>
    obtain ⟨observed, hobserved, rfl⟩ := Option.map_eq_some_iff.mp h
    refine .slice ?_
    rw [Slot.slice?, hobserved]
    rfl

/-- **What is read from a written tuple is what its parts hold.** -/
theorem readsTuple_iff {parts : List Piece} {values : List V} :
    ReadsTuple (Term.value? m arguments store) (Slot.slice? arguments) (tupleSymbols parts) values ↔
      tuple? m arguments parts = some values := by
  constructor
  · intro h
    have hcontents : contents? (Term.value? m arguments store) (Slot.slice? arguments)
        (tupleSymbols parts) = some values := h.contents?
    rwa [contents?_tupleSymbols] at hcontents
  · intro h
    induction parts generalizing values with
    | nil =>
      obtain rfl := Option.some.inj h
      exact .empty
    | cons part rest ih =>
      rw [tuple?_cons] at h
      obtain ⟨first, hfirst, h⟩ := Option.bind_eq_some_iff.mp h
      obtain ⟨others, hothers, h⟩ := Option.bind_eq_some_iff.mp h
      obtain rfl := Option.some.inj h
      cases rest with
      | nil =>
        have hnil : others = [] := (Option.some.inj hothers).symm
        rw [hnil, List.append_nil]
        exact readsTuple_symbols hfirst
      | cons next rest => exact .plus (readsTuple_symbols hfirst) (ih hothers)

end Meaning

end CausalRules.Facility
