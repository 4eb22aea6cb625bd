import CausalRules.Imitation.Text
import CausalRules.Proofs.Imitation.Run
import CausalRules.Proofs.Script.Tuples

/-!
# Calls are read as what they stand for

A call is written as a tuple of its name and its arguments. A name without arguments, and what
stands before the rest of a sequence, end with a comma; and the rest is made a tuple before it is
joined.

- `Call.symbols`, `Call.render_eq_join`: the text of a call is the text of its symbols.
- `Call.readsTuple_iff`: what is read from it is the name and the arguments of the call.
-/

namespace CausalRules.Imitation

open Script (TupleSymbol Slice ReadsTuple contents? contents?_cons contents?_append
  contents?_cons_sign contents?_flatMap readsItems_flatMap)

/-! ## Text -/

/-- A sequence from an index on, in the script. -/
def renderSlice : String × Nat → String :=
  fun (sequence, start) => s!"{sequence}[{start}:]"

/-- How a symbol of a call is written. -/
abbrev symbolText : TupleSymbol Term (String × Nat) → String :=
  TupleSymbol.text Term.render renderSlice ","

namespace Call

/-- The name of a call as a value. -/
def head (call : Call) : Term :=
  .value (.constant (.text call.name))

/-- What ends a call: what closes its tuple, and the rest of a sequence. -/
def ending (call : Call) : List (TupleSymbol Term (String × Nat)) :=
  match call.tail with
  | some rest => [.comma, .closing, .plus, .tuple, .opening, .slice rest, .closing]
  | none => if call.args.isEmpty then [.comma, .closing] else [.closing]

/-- What a call is written with. -/
def symbols (call : Call) : List (TupleSymbol Term (String × Nat)) :=
  .opening :: (.item call.head :: call.args.flatMap fun arg => [.comma, .item arg]) ++ call.ending

/-- **A call is written as its symbols**, one after the other. -/
theorem render_eq_join (call : Call) :
    call.render = String.join (call.symbols.map symbolText) := by
  have hargs : ∀ args : List Term, String.join (args.map fun arg => "," ++ arg.render) =
      String.join ((args.flatMap fun arg => [.comma, .item arg]).map symbolText) := by
    intro args
    induction args with
    | nil => rfl
    | cons arg args ih =>
      rw [List.map_cons, String.join_cons, ih, List.flatMap_cons, List.map_append,
        String.join_append]
      rfl
  obtain ⟨name, args, tail⟩ := call
  unfold render symbols ending
  rw [hargs, List.map_append, String.join_append, List.map_cons, List.map_cons, String.join_cons,
    String.join_cons]
  simp only [toString, String.append_assoc]
  cases tail with
  | some rest =>
    simp only [TupleSymbol.text, List.map_cons, List.map_nil, String.join_cons, String.join_nil,
      renderSlice, toString, String.append_assoc]
    rfl
  | none =>
    cases args with
    | nil => rfl
    | cons arg rest => rfl

/-! ## Meaning -/

section Meaning

variable {V : Type} {m : Interpretation V} {scene : Scene V} {frame : Frame V} {call : Call}

/-- The sequences of a method are lists, and so are slices of them. -/
def slice? (frame : Frame V) (slice : String × Nat) : Option (Slice V) :=
  (fun values => .list (values.drop slice.2)) <$> frame.all? slice.1

/-- The rest of a sequence as it is added to a call. -/
def rest? (frame : Frame V) (call : Call) : Option (List V) :=
  match call.tail with
  | none => some []
  | some (sequence, start) => (·.drop start) <$> frame.all? sequence

theorem value?_eq (call : Call) : call.value? m scene frame = do
    let args ← call.args.mapM (Term.value? m scene frame)
    return (call.name, args ++ (← call.rest? frame)) := by
  unfold value? rest?
  cases call.args.mapM (Term.value? m scene frame) with
  | none => rfl
  | some args =>
    cases call.tail with
    | none => exact congrArg (fun all => some (call.name, all)) (List.append_nil args).symm
    | some rest => cases hall : frame.all? rest.1 <;> simp [hall]

theorem contents?_ending :
    contents? (Term.value? m scene frame) (slice? frame) call.ending = call.rest? frame := by
  unfold ending rest?
  cases call.tail with
  | none =>
    cases call.args.isEmpty <;> rfl
  | some rest =>
    dsimp only
    rw [contents?_cons_sign rfl, contents?_cons_sign rfl, contents?_cons_sign rfl,
      contents?_cons_sign rfl, contents?_cons_sign rfl, contents?_cons, TupleSymbol.values?, slice?]
    cases frame.all? rest.1 with
    | none => rfl
    | some values => exact congrArg some (List.append_nil _)

/-- The values that stand in the tuple of a call. -/
theorem contents?_symbols :
    contents? (Term.value? m scene frame) (slice? frame) call.symbols =
      (fun value => m.constant (.text call.name) :: value.2) <$> call.value? m scene frame := by
  have hhead : (TupleSymbol.item call.head).values? (Term.value? m scene frame) (slice? frame) =
      some [m.constant (.text call.name)] := rfl
  rw [symbols, contents?_append, contents?_cons_sign rfl, contents?_cons, contents?_flatMap, hhead,
    contents?_ending, value?_eq]
  cases call.args.mapM (Term.value? m scene frame) with
  | none => rfl
  | some args => cases call.rest? frame <;> rfl

/-- What is before the rest of a sequence ends with a comma, so it is a tuple. -/
theorem readsTuple_symbols {args rest : List V}
    (hargs : call.args.mapM (Term.value? m scene frame) = some args)
    (hrest : call.rest? frame = some rest) :
    ReadsTuple (Term.value? m scene frame) (slice? frame) call.symbols
      (m.constant (.text call.name) :: args ++ rest) := by
  have hhead : Term.value? m scene frame call.head = some (m.constant (.text call.name)) := rfl
  have hitems : Script.ReadsItems (Term.value? m scene frame) (β := String × Nat)
      (.item call.head :: call.args.flatMap fun arg => [.comma, .item arg])
      (m.constant (.text call.name) :: args) := readsItems_flatMap hhead hargs
  unfold symbols ending
  unfold rest? at hrest
  cases htail : call.tail with
  | some tail =>
    rw [htail] at hrest
    obtain ⟨values, hvalues, rfl⟩ := Option.map_eq_some_iff.mp hrest
    have hslice : slice? frame tail = some (.list (values.drop tail.2)) := by
      rw [slice?, hvalues]
      rfl
    have hplus := ReadsTuple.plus (.comma hitems) (.made hslice)
    simpa using hplus
  | none =>
    rw [htail] at hrest
    obtain rfl := Option.some.inj hrest
    rw [List.append_nil]
    cases hempty : call.args with
    | nil =>
      rw [hempty] at hitems
      exact .comma hitems
    | cons arg others =>
      -- with an argument behind the name there is a comma already
      rw [hempty] at hitems hargs
      obtain ⟨value, -, hargs⟩ := Option.bind_eq_some_iff.mp (List.mapM_cons.symm.trans hargs)
      obtain ⟨values, -, hargs⟩ := Option.bind_eq_some_iff.mp hargs
      obtain rfl := Option.some.inj hargs
      exact .several hitems

/-- **What is read from a written call is its name with its arguments.** -/
theorem readsTuple_iff {values : List V} :
    ReadsTuple (Term.value? m scene frame) (slice? frame) call.symbols values ↔
      ∃ args, call.value? m scene frame = some (call.name, args) ∧
        values = m.constant (.text call.name) :: args := by
  constructor
  · intro h
    have hcontents := h.contents?
    rw [contents?_symbols] at hcontents
    obtain ⟨value, hvalue, rfl⟩ := Option.map_eq_some_iff.mp hcontents
    refine ⟨value.2, ?_, rfl⟩
    rw [hvalue]
    rw [value?_eq] at hvalue
    obtain ⟨args, -, hvalue⟩ := Option.bind_eq_some_iff.mp hvalue
    obtain ⟨rest, -, hvalue⟩ := Option.bind_eq_some_iff.mp hvalue
    obtain rfl := Option.some.inj hvalue
    rfl
  · rintro ⟨all, hvalue, rfl⟩
    rw [value?_eq] at hvalue
    obtain ⟨args, hargs, hvalue⟩ := Option.bind_eq_some_iff.mp hvalue
    obtain ⟨rest, hrest, hvalue⟩ := Option.bind_eq_some_iff.mp hvalue
    obtain rfl := (Prod.mk.inj (Option.some.inj hvalue)).2
    exact readsTuple_symbols hargs hrest

end Meaning

end Call

end CausalRules.Imitation
