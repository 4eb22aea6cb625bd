import CausalRules.Proofs.Meaning

/-!
# How tuples are written

A script puts tuples together from values in parentheses and from slices. A comma makes the tuple:
parentheses around one value without a comma do nothing. A slice of a tuple is a tuple; one of a
list is a list, which is joined with a tuple only after it has been made one.

- `TupleSymbol`, `TupleSymbol.text`: what the text of a tuple consists of.
- `ReadsTuple`: the grammar, with the values of each tuple.
- `contents?`, `ReadsTuple.contents?`: a tuple has the values that stand in it, in their order.
-/

namespace CausalRules.Script

/-- The kinds of slices, with their values. -/
inductive Slice (V : Type)
  | tuple (values : List V)
  | list (values : List V)

/-- The values of a slice. -/
def Slice.values {V : Type} : Slice V → List V
  | tuple values | list values => values

/-- What a written tuple consists of. -/
inductive TupleSymbol (α β : Type)
  /-- An expression for one value. -/
  | item (expression : α)
  /-- An expression for a slice of a sequence. -/
  | slice (expression : β)
  /-- The function that makes a tuple of a list. -/
  | tuple
  | opening
  | closing
  | comma
  | plus

/-- How a symbol is written. Blanks may stand after a comma. -/
def TupleSymbol.text {α β : Type} (item : α → String) (slice : β → String) (comma : String) :
    TupleSymbol α β → String
  | .item a => item a
  | .slice b => slice b
  | .tuple => "tuple"
  | .opening => "("
  | .closing => ")"
  | .comma => comma
  | .plus => "+"

variable {α β V : Type}

/-! ## The grammar -/

section Grammar

variable (item? : α → Option V) (slice? : β → Option (Slice V))

/-- Values with commas between them. -/
inductive ReadsItems : List (TupleSymbol α β) → List V → Prop
  | one {a v} (h : item? a = some v) : ReadsItems [.item a] [v]
  | more {a v s vs} (h : item? a = some v) (rest : ReadsItems s vs) :
      ReadsItems (.item a :: .comma :: s) (v :: vs)

/-- The grammar of tuples, with their values. -/
inductive ReadsTuple : List (TupleSymbol α β) → List V → Prop
  | empty : ReadsTuple [.opening, .closing] []
  | several {s v w vs} (items : ReadsItems item? s (v :: w :: vs)) :
      ReadsTuple (.opening :: (s ++ [.closing])) (v :: w :: vs)
  | comma {s vs} (items : ReadsItems item? s vs) :
      ReadsTuple (.opening :: (s ++ [.comma, .closing])) vs
  | slice {b vs} (h : slice? b = some (.tuple vs)) : ReadsTuple [.slice b] vs
  | made {b vs} (h : slice? b = some (.list vs)) :
      ReadsTuple [.tuple, .opening, .slice b, .closing] vs
  | plus {s t vs ws} (left : ReadsTuple s vs) (right : ReadsTuple t ws) :
      ReadsTuple (s ++ .plus :: t) (vs ++ ws)

/-- The values that a symbol holds. -/
def TupleSymbol.values? : TupleSymbol α β → Option (List V)
  | .item a => ([·]) <$> item? a
  | .slice b => Slice.values <$> slice? b
  | _ => some []

/-- The values that stand among symbols, in their order. -/
def contents? (symbols : List (TupleSymbol α β)) : Option (List V) :=
  List.flatten <$> symbols.mapM (TupleSymbol.values? item? slice?)

end Grammar

/-! ## One reading -/

section Reading

variable {item? : α → Option V} {slice? : β → Option (Slice V)} {s t : List (TupleSymbol α β)}
  {vs ws : List V}

theorem contents?_cons (symbol : TupleSymbol α β) (s : List (TupleSymbol α β)) :
    contents? item? slice? (symbol :: s) = do
      return (← symbol.values? item? slice?) ++ (← contents? item? slice? s) := by
  unfold contents?
  rw [List.mapM_cons]
  cases symbol.values? item? slice? with
  | none => rfl
  | some first => cases s.mapM (TupleSymbol.values? item? slice?) <;> rfl

theorem contents?_append (s t : List (TupleSymbol α β)) :
    contents? item? slice? (s ++ t) = do
      return (← contents? item? slice? s) ++ (← contents? item? slice? t) := by
  unfold contents?
  rw [List.mapM_append]
  cases s.mapM (TupleSymbol.values? item? slice?) with
  | none => rfl
  | some first => cases t.mapM (TupleSymbol.values? item? slice?) <;> simp

/-- Signs hold no values. -/
theorem contents?_cons_sign {sign : TupleSymbol α β} (h : sign.values? item? slice? = some [])
    (s : List (TupleSymbol α β)) :
    contents? item? slice? (sign :: s) = contents? item? slice? s := by
  rw [contents?_cons, h]
  cases contents? item? slice? s <;> rfl

theorem ReadsItems.contents? (h : ReadsItems item? s vs) :
    contents? item? slice? s = some vs := by
  induction h with
  | one h =>
    rw [contents?_cons, TupleSymbol.values?, h]
    rfl
  | more h _ ih =>
    rw [contents?_cons, contents?_cons_sign rfl, TupleSymbol.values?, h, ih]
    rfl

/-- **A tuple has the values that stand in it.** -/
theorem ReadsTuple.contents? (h : ReadsTuple item? slice? s vs) :
    contents? item? slice? s = some vs := by
  have closed : ∀ {s : List (TupleSymbol α β)} {vs : List V} (t : List (TupleSymbol α β)),
      ReadsItems item? s vs → Script.contents? item? slice? t = some [] →
      Script.contents? item? slice? (.opening :: (s ++ t)) = some vs := by
    intro s vs t hs ht
    rw [contents?_cons_sign rfl, contents?_append, hs.contents?, ht]
    exact congrArg some (List.append_nil vs)
  induction h with
  | empty => rfl
  | several items => exact closed _ items rfl
  | comma items => exact closed _ items rfl
  | slice h =>
    rw [contents?_cons, TupleSymbol.values?, h]
    exact congrArg some (List.append_nil _)
  | made h =>
    rw [contents?_cons_sign rfl, contents?_cons_sign rfl, contents?_cons, TupleSymbol.values?, h]
    exact congrArg some (List.append_nil _)
  | plus _ _ ihl ihr =>
    rw [contents?_append, contents?_cons_sign rfl, ihl, ihr]
    rfl

/-- Values that follow a value, each after a comma. -/
theorem readsItems_flatMap {a : α} {v : V} {as : List α} (h : item? a = some v)
    (has : as.mapM item? = some vs) :
    ReadsItems item? (.item a :: as.flatMap fun a => [.comma, .item a] : List (TupleSymbol α β))
      (v :: vs) := by
  induction as generalizing a v vs with
  | nil =>
    obtain rfl := Option.some.inj has
    exact .one h
  | cons b as ih =>
    obtain ⟨w, hw, has⟩ := Option.bind_eq_some_iff.mp (List.mapM_cons.symm.trans has)
    obtain ⟨ws, hws, has⟩ := Option.bind_eq_some_iff.mp has
    obtain rfl := Option.some.inj has
    exact .more h (ih hw hws)

theorem contents?_flatMap (as : List α) :
    contents? item? slice? (as.flatMap fun a => [.comma, .item a]) = as.mapM item? := by
  induction as with
  | nil => rfl
  | cons a as ih =>
    rw [List.flatMap_cons, List.cons_append, contents?_cons_sign rfl, List.cons_append,
      contents?_cons, List.nil_append, ih, List.mapM_cons, TupleSymbol.values?]
    cases item? a <;> rfl

/-- **A tuple is read in one way.** -/
theorem ReadsTuple.unique (h : ReadsTuple item? slice? s vs) (h' : ReadsTuple item? slice? s ws) :
    vs = ws :=
  Option.some.inj (h.contents?.symm.trans h'.contents?)

end Reading

end CausalRules.Script
