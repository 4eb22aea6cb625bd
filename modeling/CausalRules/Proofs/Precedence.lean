import CausalRules.Script.Sign

/-!
# How a written chain of tests is read

A condition is written as one flat chain, `a or b and (c or d)`, although its tree nests to the
right without precedence. What the chain means is decided by the grammar that reads it: `and` binds
tighter than `or`, and parentheses make one operand.

- `Symbol`, `Formula.symbols`: what a written formula consists of; `Formula.render_eq_join_symbols`
  says that the text of a formula is the text of its symbols.
- `Reads`: the grammar, with the value that each phrase has.
- `Formula.value`: the value of a formula, computed from left to right;
  `Formula.reads_symbols_iff` says that it is the one reading of the symbols.
- `Formula.value?`: the same when a test may fail to have a value. A test whose outcome cannot
  matter any more is not asked for.
- `Formula.ReadsAs`: the value by the grammar, when every test has one.
-/

namespace CausalRules

variable {α β : Type}

/-- What a written formula consists of. -/
inductive Symbol (α : Type)
  | test (test : α)
  | word (op : Connective)
  | opening
  | closing

/-- How a symbol is written: blanks stand around a connective only. -/
def Symbol.text (test : α → String) (connective : Connective → String) : Symbol α → String
  | .test a => test a
  | .word op => " " ++ connective op ++ " "
  | .opening => "("
  | .closing => ")"

namespace Formula

/-- The symbols of a written formula from left to right. -/
def symbols : Formula α → List (Symbol α)
  | atom test => [.test test]
  | group inner => .opening :: (inner.symbols ++ [.closing])
  | chain left op right => left.symbols ++ .word op :: right.symbols

/-- A formula is written as its symbols, one after the other. -/
theorem render_eq_join_symbols (test : α → String) (connective : Connective → String)
    (f : Formula α) :
    f.render test connective = String.join (f.symbols.map (Symbol.text test connective)) := by
  induction f with
  | atom a => simp [render, symbols, Symbol.text]
  | group inner ih => simp [render, symbols, Symbol.text, ih, String.append_assoc]
  | chain left op right ihl ihr =>
    simp [render, symbols, Symbol.text, ihl, ihr, String.append_assoc]

end Formula

/-! ## The grammar -/

/-- The phrases of a chain, the tightest first. -/
inductive Phrase
  | operand
  | conjunction
  | disjunction

/-- The grammar of chains, with the value of each phrase when `holds` gives those of the tests. -/
inductive Reads (holds : α → Bool) : Phrase → List (Symbol α) → Bool → Prop
  | test (a : α) : Reads holds .operand [.test a] (holds a)
  | group {s b} (inner : Reads holds .disjunction s b) :
      Reads holds .operand (.opening :: (s ++ [.closing])) b
  | operand {s b} (only : Reads holds .operand s b) : Reads holds .conjunction s b
  | and {s t b c} (left : Reads holds .conjunction s b) (right : Reads holds .operand t c) :
      Reads holds .conjunction (s ++ .word .and :: t) (b && c)
  | conjunction {s b} (only : Reads holds .conjunction s b) : Reads holds .disjunction s b
  | or {s t b c} (left : Reads holds .disjunction s b) (right : Reads holds .conjunction t c) :
      Reads holds .disjunction (s ++ .word .or :: t) (b || c)

/-! ## Reading from left to right -/

/-- How far the value of a chain is known while it is read. -/
structure Progress where
  /-- Whether an alternative before the last `or` held. -/
  settled : Bool
  /-- Whether all tests since then held. -/
  running : Bool
  deriving DecidableEq

namespace Progress

/-- Nothing has been read. -/
def start : Progress := ⟨false, true⟩

/-- The value of what has been read. -/
def value (p : Progress) : Bool :=
  p.settled || p.running

/-- Whether the next operand cannot matter. -/
def decided (p : Progress) : Bool :=
  p.settled || !p.running

/-- The progress after an operand. -/
def operand (p : Progress) (b : Bool) : Progress :=
  if p.decided then p else ⟨p.settled, b⟩

/-- The progress after a connective. -/
def join (p : Progress) : Connective → Progress
  | .and => p
  | .or => ⟨p.value, true⟩

@[simp] theorem value_start_operand (b : Bool) : (start.operand b).value = b := by
  cases b <;> rfl

@[simp] theorem operand_true (p : Progress) : p.operand true = p := by
  rcases p with ⟨_ | _, _ | _⟩ <;> rfl

@[simp] theorem operand_operand (p : Progress) (b c : Bool) :
    (p.operand b).operand c = p.operand (b && c) := by
  rcases p with ⟨_ | _, _ | _⟩ <;> cases b <;> cases c <;> rfl

/-- After an `or`, an operand adds an alternative. -/
theorem value_join_or_operand (p : Progress) (b : Bool) :
    ((p.join .or).operand b).value = (p.value || b) := by
  rcases p with ⟨_ | _, _ | _⟩ <;> cases b <;> rfl

end Progress

namespace Formula

/-- The progress after a formula. -/
def advance (holds : α → Bool) : Formula α → Progress → Progress
  | atom test, p => p.operand (holds test)
  | group inner, p => p.operand (inner.advance holds .start).value
  | chain left op right, p => right.advance holds ((left.advance holds p).join op)

/-- The value of a formula, read as it is written. -/
def value (holds : α → Bool) (f : Formula α) : Bool :=
  (f.advance holds .start).value

@[simp] theorem value_atom (holds : α → Bool) (a : α) : (atom a).value holds = holds a :=
  Progress.value_start_operand _

/-- The progress depends on the tests of the formula only. -/
theorem advance_congr {holds holds' : α → Bool} {f : Formula α}
    (h : ∀ a ∈ f.atoms, holds a = holds' a) (p : Progress) :
    f.advance holds p = f.advance holds' p := by
  induction f generalizing p with
  | atom a => rw [advance, advance, h a (List.mem_singleton_self a)]
  | group inner ih => rw [advance, advance, ih h]
  | chain left op right ihl ihr =>
    have hl := ihl (fun a ha => h a (List.mem_append_left _ ha)) p
    have hr := ihr (fun a ha => h a (List.mem_append_right _ ha))
    rw [advance, advance, hl, hr]

/-- The value depends on the tests of the formula only. -/
theorem value_congr {holds holds' : α → Bool} {f : Formula α}
    (h : ∀ a ∈ f.atoms, holds a = holds' a) : f.value holds = f.value holds' :=
  congrArg Progress.value (advance_congr h .start)

end Formula

/-! ## The two agree

The symbols of a group are read on their own, above what was read before, so reading symbols from
left to right keeps a stack of progresses. -/

/-- The stack of progresses after a symbol. -/
def Symbol.advance (holds : α → Bool) : Symbol α → List Progress → List Progress
  | .test a, p :: rest => p.operand (holds a) :: rest
  | .word op, p :: rest => p.join op :: rest
  | .opening, stack => .start :: stack
  | .closing, p :: q :: rest => q.operand p.value :: rest
  | _, stack => stack

/-- The stack of progresses after symbols. -/
def advanceAll (holds : α → Bool) (symbols : List (Symbol α)) (stack : List Progress) :
    List Progress :=
  symbols.foldl (fun stack symbol => symbol.advance holds stack) stack

theorem advanceAll_append (holds : α → Bool) (s t : List (Symbol α)) (stack : List Progress) :
    advanceAll holds (s ++ t) stack = advanceAll holds t (advanceAll holds s stack) :=
  List.foldl_append

theorem advanceAll_cons (holds : α → Bool) (a : Symbol α) (s : List (Symbol α))
    (stack : List Progress) :
    advanceAll holds (a :: s) stack = advanceAll holds s (a.advance holds stack) := rfl

/-- Reading the symbols of a formula is reading the formula. -/
theorem Formula.advanceAll_symbols (holds : α → Bool) (f : Formula α) (p : Progress)
    (rest : List Progress) :
    advanceAll holds f.symbols (p :: rest) = f.advance holds p :: rest := by
  induction f generalizing p rest with
  | atom a => rfl
  | group inner ih =>
    rw [symbols, advanceAll_cons, advanceAll_append, Symbol.advance, ih]
    rfl
  | chain left op right ihl ihr =>
    rw [symbols, advanceAll_append, ihl, advanceAll_cons]
    exact ihr _ rest

/-- What reading the symbols of a phrase does to the progress on top of the stack. -/
def Phrase.Advances (holds : α → Bool) (s : List (Symbol α)) (b : Bool) : Phrase → Prop
  | .operand | .conjunction =>
    ∀ p rest, advanceAll holds s (p :: rest) = p.operand b :: rest
  | .disjunction =>
    ∀ rest, ∃ p : Progress, advanceAll holds s (.start :: rest) = p :: rest ∧ p.value = b

/-- A phrase of the grammar has the value that reading from left to right gives it. -/
theorem Reads.advances {holds : α → Bool} {phrase : Phrase} {s : List (Symbol α)} {b : Bool}
    (h : Reads holds phrase s b) : phrase.Advances holds s b := by
  induction h with
  | test a => intro p rest; rfl
  | group _ ih =>
    intro p rest
    obtain ⟨q, hq, rfl⟩ := ih (p :: rest)
    rw [advanceAll_cons, advanceAll_append, Symbol.advance, hq]
    rfl
  | operand _ ih => exact ih
  | and _ _ ihl ihr =>
    intro p rest
    rw [advanceAll_append, ihl, advanceAll_cons, Symbol.advance, Progress.join, ihr,
      Progress.operand_operand]
  | conjunction _ ih =>
    intro rest
    exact ⟨_, ih .start rest, Progress.value_start_operand _⟩
  | or _ _ ihl ihr =>
    intro rest
    obtain ⟨p, hp, rfl⟩ := ihl rest
    refine ⟨_, ?_, Progress.value_join_or_operand p _⟩
    rw [advanceAll_append, hp, advanceAll_cons, Symbol.advance, ihr]

namespace Reads

variable {holds : α → Bool} {s t : List (Symbol α)} {b c : Bool}

/-- Two conjunctions joined by `and` are one. -/
theorem and_conjunction (hs : Reads holds .conjunction s b) (ht : Reads holds .conjunction t c) :
    ∃ d, Reads holds .conjunction (s ++ .word .and :: t) d := by
  generalize hphrase : Phrase.conjunction = phrase at ht
  induction ht with
  | test | group | conjunction | or => cases hphrase
  | operand only => exact ⟨_, .and hs only⟩
  | and left right ih =>
    obtain ⟨d, hd⟩ := ih rfl
    exact ⟨_, by simpa using Reads.and hd right⟩

/-- In `s and t`, the last alternative of `s` and the first of `t` grow together. -/
theorem and_disjunction (hs : Reads holds .disjunction s b) (ht : Reads holds .disjunction t c) :
    ∃ d, Reads holds .disjunction (s ++ .word .and :: t) d := by
  generalize hphrase : Phrase.disjunction = phrase at ht
  induction ht with
  | test | group | operand | and => cases hphrase
  | conjunction only =>
    -- only the last alternative of `s` takes part
    cases hs with
    | conjunction first =>
      obtain ⟨d, hd⟩ := and_conjunction first only
      exact ⟨d, .conjunction hd⟩
    | or before last =>
      obtain ⟨d, hd⟩ := and_conjunction last only
      exact ⟨_, by simpa using Reads.or before hd⟩
  | or left right ih =>
    obtain ⟨d, hd⟩ := ih rfl
    exact ⟨_, by simpa using Reads.or hd right⟩

/-- Two disjunctions joined by `or` are one. -/
theorem or_disjunction (hs : Reads holds .disjunction s b) (ht : Reads holds .disjunction t c) :
    ∃ d, Reads holds .disjunction (s ++ .word .or :: t) d := by
  generalize hphrase : Phrase.disjunction = phrase at ht
  induction ht with
  | test | group | operand | and => cases hphrase
  | conjunction only => exact ⟨_, .or hs only⟩
  | or left right ih =>
    obtain ⟨d, hd⟩ := ih rfl
    exact ⟨_, by simpa using Reads.or hd right⟩

end Reads

namespace Formula

/-- Every written formula can be read. -/
theorem exists_reads_symbols (holds : α → Bool) (f : Formula α) :
    ∃ b, Reads holds .disjunction f.symbols b := by
  induction f with
  | atom a => exact ⟨_, .conjunction (.operand (.test a))⟩
  | group inner ih =>
    obtain ⟨b, hb⟩ := ih
    exact ⟨b, .conjunction (.operand (.group hb))⟩
  | chain left op right ihl ihr =>
    obtain ⟨b, hb⟩ := ihl
    obtain ⟨c, hc⟩ := ihr
    cases op with
    | and => exact hb.and_disjunction hc
    | or => exact hb.or_disjunction hc

/-- **The grammar reads a written formula in one way**, and its value is the one computed from
left to right. -/
theorem reads_symbols_iff {holds : α → Bool} {f : Formula α} {b : Bool} :
    Reads holds .disjunction f.symbols b ↔ f.value holds = b := by
  have sound : ∀ c, Reads holds .disjunction f.symbols c → f.value holds = c := by
    intro c hc
    obtain ⟨p, hp, rfl⟩ := hc.advances []
    rw [f.advanceAll_symbols] at hp
    obtain ⟨rfl, -⟩ := List.cons.inj hp
    rfl
  constructor
  · exact sound b
  · -- the symbols can be read, and then only as the value that was computed
    rintro rfl
    obtain ⟨c, hc⟩ := f.exists_reads_symbols holds
    rw [sound c hc]
    exact hc

/-! ## Tests that may have no value -/

/-- The progress after a formula when a test may have no value. -/
def advance? (holds? : α → Option Bool) : Formula α → Progress → Option Progress
  | atom test, p => if p.decided then some p else p.operand <$> holds? test
  | group inner, p =>
    if p.decided then some p
    else do return p.operand (← inner.advance? holds? .start).value
  | chain left op right, p => do right.advance? holds? ((← left.advance? holds? p).join op)

/-- The value of a formula, read as it is written, when a test may have no value. -/
def value? (holds? : α → Option Bool) (f : Formula α) : Option Bool :=
  Progress.value <$> f.advance? holds? .start

/-- Nothing is skipped that matters. -/
theorem advance?_eq_some {holds? : α → Option Bool} {holds : α → Bool} {f : Formula α}
    (h : ∀ a ∈ f.atoms, holds? a = some (holds a)) (p : Progress) :
    f.advance? holds? p = some (f.advance holds p) := by
  -- an operand that is not asked for would not have changed anything
  have skip : ∀ (p : Progress) b, p.decided = true → p.operand b = p := by
    intro p b hp
    rw [Progress.operand, if_pos hp]
  induction f generalizing p with
  | atom a =>
    rw [advance?, advance]
    split
    · rename_i hp
      rw [skip p _ hp]
    · rw [h a (List.mem_singleton_self a)]
      rfl
  | group inner ih =>
    rw [advance?, advance, ih h]
    split
    · rename_i hp
      rw [skip p _ hp]
    · rfl
  | chain left op right ihl ihr =>
    have hl := ihl (fun a ha => h a (List.mem_append_left _ ha)) p
    have hr := ihr (fun a ha => h a (List.mem_append_right _ ha))
    rw [advance?, advance, hl]
    exact hr _

/-- When every test has a value, so has the formula. -/
theorem value?_eq_some {holds? : α → Option Bool} {holds : α → Bool} {f : Formula α}
    (h : ∀ a ∈ f.atoms, holds? a = some (holds a)) : f.value? holds? = some (f.value holds) := by
  rw [value?, advance?_eq_some h]
  rfl

/-- Every test of a formula has a value, and with these the grammar reads it as `b`. -/
def ReadsAs (holds? : α → Option Bool) (f : Formula α) (b : Bool) : Prop :=
  ∃ holds : α → Bool,
    (∀ a ∈ f.atoms, holds? a = some (holds a)) ∧ Reads holds .disjunction f.symbols b

section ReadsAs

variable {holds? holds?' : α → Option Bool} {f : Formula α} {b : Bool}

/-- A formula that is read as `b` is found to be `b` when it is computed. -/
theorem ReadsAs.value? (h : f.ReadsAs holds? b) : f.value? holds? = some b := by
  obtain ⟨holds, hholds, hreads⟩ := h
  rw [value?_eq_some hholds, reads_symbols_iff.mp hreads]

/-- The values of the tests that a formula does not have may be chosen. -/
theorem readsAs_iff :
    f.ReadsAs holds? b ↔
      (∀ a ∈ f.atoms, ∃ c, holds? a = some c) ∧ f.value (fun a => (holds? a).getD false) = b := by
  constructor
  · rintro ⟨holds, hholds, hreads⟩
    refine ⟨fun a ha => ⟨_, hholds a ha⟩, ?_⟩
    rw [← reads_symbols_iff.mp hreads]
    exact value_congr fun a ha => by rw [hholds a ha]; rfl
  · rintro ⟨hsome, hvalue⟩
    refine ⟨_, fun a ha => ?_, reads_symbols_iff.mpr hvalue⟩
    obtain ⟨c, hc⟩ := hsome a ha
    rw [hc]
    rfl

theorem readsAs_congr (h : ∀ a ∈ f.atoms, holds? a = holds?' a) :
    f.ReadsAs holds? b ↔ f.ReadsAs holds?' b := by
  unfold ReadsAs
  constructor
  · rintro ⟨holds, hholds, hreads⟩
    exact ⟨holds, fun a ha => (h a ha).symm.trans (hholds a ha), hreads⟩
  · rintro ⟨holds, hholds, hreads⟩
    exact ⟨holds, fun a ha => (h a ha).trans (hholds a ha), hreads⟩

end ReadsAs

end Formula

end CausalRules
