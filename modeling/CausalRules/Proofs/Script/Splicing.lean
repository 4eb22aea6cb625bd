import CausalRules.Proofs.Precedence

/-!
# Code that is put into a chain

Inline code is put into a chain of tests as it is written, without parentheses around it. Then it is
not read by itself: the connectives inside the code are connectives of the whole chain, and an `and`
next to the code takes only as much of it as binds as tightly.

- `Lexeme`, `Parses`: what is read in a script, and the grammar by which it is read.
- `Parses.unique`: what is read has one value.
- `Formula.lexemes`: what is read where a formula is written; `Formula.render_eq_join_lexemes` says
  that it is the text of the formula.
- `Reads.spliced`: what each phrase of a formula is read as, given how its tests are read.
- `Formula.parses_lexemes_iff`: when the tests of a formula are disjunctions, and those next to an
  `and` are conjunctions, the formula is read as if each test stood by itself.
-/

namespace CausalRules

/-! ## The grammar of a script -/

/-- What is read in a test of a script, with its spelling: a unit is anything between connectives
and parentheses. -/
inductive Lexeme
  | unit (code : String)
  | not (spelled : String)
  | word (op : Connective) (spelled : String)
  | opening (spelled : String)
  | closing (spelled : String)
  deriving DecidableEq, Repr

/-- How a lexeme is written. -/
def Lexeme.text : Lexeme → String
  | unit text | not text | word _ text | opening text | closing text => text

/-- The levels of precedence, the tightest first. -/
inductive Level
  | inversion
  | conjunction
  | disjunction

/-- The grammar of tests in a script, with the value of each phrase when `holds` gives those of the
units. -/
inductive Parses (holds : String → Bool) : Level → List Lexeme → Bool → Prop
  | unit (code : String) : Parses holds .inversion [.unit code] (holds code)
  | group {s b} (left right : String) (inner : Parses holds .disjunction s b) :
      Parses holds .inversion (.opening left :: (s ++ [.closing right])) b
  | not {s b} (spelled : String) (inner : Parses holds .inversion s b) :
      Parses holds .inversion (.not spelled :: s) !b
  | inversion {s b} (only : Parses holds .inversion s b) : Parses holds .conjunction s b
  | and {s t b c} (spelled : String) (left : Parses holds .conjunction s b)
      (right : Parses holds .inversion t c) :
      Parses holds .conjunction (s ++ .word .and spelled :: t) (b && c)
  | conjunction {s b} (only : Parses holds .conjunction s b) : Parses holds .disjunction s b
  | or {s t b c} (spelled : String) (left : Parses holds .disjunction s b)
      (right : Parses holds .conjunction t c) :
      Parses holds .disjunction (s ++ .word .or spelled :: t) (b || c)

/-! ## One value

As for the symbols of a formula, a stack keeps how far each open disjunction has been read, here
with the negations that wait for an operand. -/

/-- How far a disjunction has been read. -/
structure Reading where
  progress : Progress
  /-- Whether the next operand is negated. -/
  negated : Bool

namespace Reading

/-- Nothing has been read. -/
def start : Reading := ⟨.start, false⟩

/-- What has been read after an operand. -/
def operand (r : Reading) (b : Bool) : Reading :=
  ⟨r.progress.operand (r.negated ^^ b), false⟩

end Reading

/-- The stack of readings after a lexeme. -/
def Lexeme.advance (holds : String → Bool) : Lexeme → List Reading → List Reading
  | .unit code, r :: rest => r.operand (holds code) :: rest
  | .not _, r :: rest => ⟨r.progress, !r.negated⟩ :: rest
  | .word op _, r :: rest => ⟨r.progress.join op, r.negated⟩ :: rest
  | .opening _, stack => .start :: stack
  | .closing _, r :: outer :: rest => outer.operand r.progress.value :: rest
  | _, stack => stack

/-- The stack of readings after lexemes. -/
def readAll (holds : String → Bool) (s : List Lexeme) (stack : List Reading) : List Reading :=
  s.foldl (fun stack lexeme => lexeme.advance holds stack) stack

section Unique

variable {holds : String → Bool} {s t : List Lexeme} {b c : Bool}

theorem readAll_append (stack : List Reading) :
    readAll holds (s ++ t) stack = readAll holds t (readAll holds s stack) :=
  List.foldl_append

theorem readAll_cons (a : Lexeme) (stack : List Reading) :
    readAll holds (a :: s) stack = readAll holds s (a.advance holds stack) :=
  rfl

/-- What reading a phrase does to the reading on top of the stack. -/
def Level.Advances (holds : String → Bool) (s : List Lexeme) (b : Bool) : Level → Prop
  | .inversion => ∀ r rest, readAll holds s (r :: rest) = r.operand b :: rest
  | .conjunction => ∀ p rest, readAll holds s (⟨p, false⟩ :: rest) = ⟨p.operand b, false⟩ :: rest
  | .disjunction => ∀ rest, ∃ p : Progress,
      readAll holds s (.start :: rest) = ⟨p, false⟩ :: rest ∧ p.value = b

/-- A phrase of the grammar has the value that reading from left to right gives it. -/
theorem Parses.advances {level : Level} (h : Parses holds level s b) :
    level.Advances holds s b := by
  induction h with
  | unit code => intro r rest; rfl
  | group left right _ ih =>
    intro r rest
    obtain ⟨p, hp, rfl⟩ := ih (r :: rest)
    rw [readAll_cons, readAll_append, Lexeme.advance, hp]
    rfl
  | @not s b spelled _ ih =>
    intro r rest
    rw [readAll_cons, Lexeme.advance, ih]
    simp [Reading.operand]
  | inversion _ ih =>
    intro p rest
    rw [ih]
    simp [Reading.operand]
  | and spelled _ _ ihl ihr =>
    intro p rest
    rw [readAll_append, ihl, readAll_cons, Lexeme.advance, Progress.join, ihr]
    simp [Reading.operand]
  | conjunction _ ih =>
    intro rest
    exact ⟨_, ih .start rest, Progress.value_start_operand _⟩
  | or spelled _ _ ihl ihr =>
    intro rest
    obtain ⟨p, hp, rfl⟩ := ihl rest
    refine ⟨_, ?_, Progress.value_join_or_operand p _⟩
    rw [readAll_append, hp, readAll_cons, Lexeme.advance, ihr]

/-- **What is read has one value.** -/
theorem Parses.unique (hb : Parses holds .disjunction s b) (hc : Parses holds .disjunction s c) :
    b = c := by
  obtain ⟨p, hp, rfl⟩ := hb.advances []
  obtain ⟨q, hq, rfl⟩ := hc.advances []
  have hpq : p = q := congrArg Reading.progress (List.cons.inj (hp.symm.trans hq)).1
  rw [hpq]

/-- A conjunction has its value as a disjunction. -/
theorem Parses.conjunction_of_exists (hb : Parses holds .disjunction s b)
    (hc : ∃ c, Parses holds .conjunction s c) : Parses holds .conjunction s b := by
  obtain ⟨c, hc⟩ := hc
  rw [hb.unique (.conjunction hc)]
  exact hc

/-- Two conjunctions joined by `and` are one. -/
theorem Parses.and_conjunction (spelled : String) (hs : Parses holds .conjunction s b)
    (ht : Parses holds .conjunction t c) :
    Parses holds .conjunction (s ++ .word .and spelled :: t) (b && c) := by
  generalize hlevel : Level.conjunction = level at ht
  induction ht with
  | unit | group | not | conjunction | or => cases hlevel
  | inversion only => exact .and spelled hs only
  | and spelled' left right ih =>
    simpa [Bool.and_assoc] using Parses.and spelled' (ih rfl) right

/-- Two disjunctions joined by `or` are one. -/
theorem Parses.or_disjunction (spelled : String) (hs : Parses holds .disjunction s b)
    (ht : Parses holds .disjunction t c) :
    Parses holds .disjunction (s ++ .word .or spelled :: t) (b || c) := by
  generalize hlevel : Level.disjunction = level at ht
  induction ht with
  | unit | group | not | inversion | and => cases hlevel
  | conjunction only => exact .or spelled hs only
  | or spelled' left right ih =>
    simpa [Bool.or_assoc] using Parses.or spelled' (ih rfl) right

theorem Parses.ne_nil {level : Level} (h : Parses holds level s b) : s ≠ [] := by
  induction h with
  | unit | group | not | and | or => simp
  | inversion _ ih | conjunction _ ih => exact ih

/-- Units with an `and` between each two. -/
def allOf : List String → List Lexeme
  | [] => []
  | [code] => [.unit code]
  | code :: next :: rest => .unit code :: .word .and " and " :: allOf (next :: rest)

theorem join_allOf (codes : List String) :
    String.join ((allOf codes).map Lexeme.text) = " and ".intercalate codes := by
  fun_induction allOf codes with
  | case1 => rfl
  | case2 code => simp [Lexeme.text]
  | case3 code next rest ih =>
    simp [Lexeme.text, ih, String.intercalate_cons_cons, String.append_assoc]

/-- At least one unit, with an `and` between each two, is a conjunction. -/
theorem exists_parses_allOf {codes : List String} (h : codes ≠ []) :
    ∃ b, Parses holds .conjunction (allOf codes) b := by
  fun_induction allOf codes with
  | case1 => exact absurd rfl h
  | case2 code => exact ⟨_, .inversion (.unit code)⟩
  | case3 code next rest ih =>
    obtain ⟨b, hb⟩ := ih (List.cons_ne_nil _ _)
    exact ⟨_, Parses.and_conjunction " and " (.inversion (.unit code)) hb⟩

end Unique

/-! ## Tests inside a formula -/

variable {α : Type}

/-- What is read where a symbol of a formula is written. -/
def Symbol.lexemes (lexemes : α → List Lexeme) : Symbol α → List Lexeme
  | .test a => lexemes a
  | .word op => [.word op (" " ++ op.scriptWord ++ " ")]
  | .opening => [.opening "("]
  | .closing => [.closing ")"]

/-- An `and` stands right before or after a test. -/
def NextToAnd (s : List (Symbol α)) (a : α) : Prop :=
  [.test a, .word .and] <:+: s ∨ [.word .and, .test a] <:+: s

theorem NextToAnd.mono {s t : List (Symbol α)} {a : α} (h : NextToAnd s a) (hst : s <:+: t) :
    NextToAnd t a :=
  h.imp (·.trans hst) (·.trans hst)

theorem NextToAnd.mem_and {s : List (Symbol α)} {a : α} (h : NextToAnd s a) :
    .word .and ∈ s := by
  rcases h with h | h
  · exact h.subset (by simp)
  · exact h.subset (by simp)

namespace Formula

/-- What is read where a formula is written. -/
def lexemes (lexemes : α → List Lexeme) (f : Formula α) : List Lexeme :=
  f.symbols.flatMap (Symbol.lexemes lexemes)

/-- The text of a formula is that of its lexemes, when this is so for each test. -/
theorem render_eq_join_lexemes {lexemes : α → List Lexeme} {test : α → String} {f : Formula α}
    (h : ∀ a ∈ f.atoms, test a = String.join ((lexemes a).map Lexeme.text)) :
    f.render test Connective.scriptWord = String.join ((f.lexemes lexemes).map Lexeme.text) := by
  unfold Formula.lexemes
  induction f with
  | atom a => simp [render, symbols, Symbol.lexemes, h a (List.mem_singleton_self a)]
  | group inner ih =>
    simp [render, symbols, Symbol.lexemes, Lexeme.text, ih h, String.append_assoc]
  | chain left op right ihl ihr =>
    have hl := ihl fun a ha => h a (List.mem_append_left _ ha)
    have hr := ihr fun a ha => h a (List.mem_append_right _ ha)
    simp [render, symbols, Symbol.lexemes, Lexeme.text, hl, hr, String.append_assoc]

theorem mem_symbols_iff {f : Formula α} {a : α} : .test a ∈ f.symbols ↔ a ∈ f.atoms := by
  induction f with
  | atom b => simp [symbols, atoms]
  | group inner ih => simp [symbols, atoms, ih]
  | chain left op right ihl ihr => simp [symbols, atoms, ihl, ihr]

end Formula

theorem NextToAnd.mem_atoms {f : Formula α} {a : α} (h : NextToAnd f.symbols a) : a ∈ f.atoms := by
  rw [← Formula.mem_symbols_iff]
  rcases h with h | h
  · exact h.subset (by simp)
  · exact h.subset (by simp)

section Splice

variable {holds : String → Bool} {lexemes : α → List Lexeme} {value : α → Bool}

/-- Every test among the symbols is a disjunction with its value, and a conjunction when it stands
next to an `and`. -/
structure TestsParse (holds : String → Bool) (lexemes : α → List Lexeme) (value : α → Bool)
    (s : List (Symbol α)) : Prop where
  disjunction : ∀ a, .test a ∈ s → Parses holds .disjunction (lexemes a) (value a)
  conjunction : ∀ a, NextToAnd s a → Parses holds .conjunction (lexemes a) (value a)

theorem TestsParse.mono {s t : List (Symbol α)} (h : TestsParse holds lexemes value t)
    (hst : s <:+: t) : TestsParse holds lexemes value s where
  disjunction a ha := h.disjunction a (hst.subset ha)
  conjunction a ha := h.conjunction a (ha.mono hst)

/-- What is read is a phrase of the script at a level, or one test that has the value. -/
def ParsesOrTest (holds : String → Bool) (lexemes : α → List Lexeme) (value : α → Bool)
    (level : Level) (s : List (Symbol α)) (b : Bool) : Prop :=
  Parses holds level (s.flatMap (Symbol.lexemes lexemes)) b ∨ ∃ a, s = [.test a] ∧ b = value a

/-- It is a phrase of any level at which phrases of the first are phrases, and the test is one. -/
theorem ParsesOrTest.parses {level level' : Level} {s : List (Symbol α)} {b : Bool}
    (h : ParsesOrTest holds lexemes value level s b)
    (hlevel : ∀ {u c}, Parses holds level u c → Parses holds level' u c)
    (htest : ∀ a, s = [.test a] → Parses holds level' (lexemes a) (value a)) :
    Parses holds level' (s.flatMap (Symbol.lexemes lexemes)) b := by
  rcases h with h | ⟨a, rfl, rfl⟩
  · exact hlevel h
  · simpa [Symbol.lexemes] using htest a rfl

/-- What a phrase of a formula is read as. A test by itself may hold an `or`. -/
def Phrase.Spliced (holds : String → Bool) (lexemes : α → List Lexeme) (value : α → Bool)
    (s : List (Symbol α)) (b : Bool) : Phrase → Prop
  | .operand | .conjunction => ParsesOrTest holds lexemes value .conjunction s b
  | .disjunction => Parses holds .disjunction (s.flatMap (Symbol.lexemes lexemes)) b

/-- The phrases of a formula are phrases of the script. -/
theorem Reads.spliced {phrase : Phrase} {s : List (Symbol α)} {b : Bool}
    (h : Reads value phrase s b) (htests : TestsParse holds lexemes value s) :
    phrase.Spliced holds lexemes value s b := by
  induction h with
  | test a => exact .inr ⟨a, rfl, rfl⟩
  | @group s b _ ih =>
    have hinner : s <:+: Symbol.opening :: (s ++ [Symbol.closing]) := ⟨[.opening], [.closing], by simp⟩
    left
    simpa [Symbol.lexemes] using
      Parses.inversion (Parses.group "(" ")" (ih (htests.mono hinner)))
  | operand _ ih => exact ih htests
  | @and s t b c _ _ ihl ihr =>
    have hleft : s <:+: s ++ Symbol.word .and :: t := (List.prefix_append _ _).isInfix
    have hright : t <:+: s ++ Symbol.word .and :: t := ⟨s ++ [.word .and], [], by simp⟩
    -- a test by itself stands next to this `and`
    have hs : Parses holds .conjunction (s.flatMap (Symbol.lexemes lexemes)) b := by
      refine (ihl (htests.mono hleft)).parses id ?_
      rintro a rfl
      exact htests.conjunction a (.inl ⟨[], t, by simp⟩)
    have ht : Parses holds .conjunction (t.flatMap (Symbol.lexemes lexemes)) c := by
      refine (ihr (htests.mono hright)).parses id ?_
      rintro a rfl
      exact htests.conjunction a (.inr ⟨s, [], by simp⟩)
    left
    simpa [Symbol.lexemes] using hs.and_conjunction _ ht
  | @conjunction s b _ ih =>
    refine (ih htests).parses .conjunction ?_
    rintro a rfl
    exact htests.disjunction a (List.mem_singleton_self _)
  | @or s t b c _ _ ihl ihr =>
    have hleft : s <:+: s ++ Symbol.word .or :: t := (List.prefix_append _ _).isInfix
    have hright : t <:+: s ++ Symbol.word .or :: t := ⟨s ++ [.word .or], [], by simp⟩
    have hs := ihl (htests.mono hleft)
    have ht : Parses holds .disjunction (t.flatMap (Symbol.lexemes lexemes)) c := by
      refine (ihr (htests.mono hright)).parses .conjunction ?_
      rintro a rfl
      exact htests.disjunction a (by simp)
    simpa [Phrase.Spliced, Symbol.lexemes] using hs.or_disjunction _ ht

/-- **When the tests of a formula may be put into it as they are written.** -/
theorem Formula.parses_lexemes_iff {f : Formula α}
    (hdisjunction : ∀ a ∈ f.atoms, Parses holds .disjunction (lexemes a) (value a))
    (hconjunction : ∀ a, NextToAnd f.symbols a → ∃ b, Parses holds .conjunction (lexemes a) b)
    {b : Bool} :
    Parses holds .disjunction (f.lexemes lexemes) b ↔ Reads value .disjunction f.symbols b := by
  have hspliced : ∀ c, Reads value .disjunction f.symbols c →
      Parses holds .disjunction (f.lexemes lexemes) c := by
    intro c hc
    refine hc.spliced ⟨fun a ha => hdisjunction a (mem_symbols_iff.mp ha), fun a ha => ?_⟩
    exact (hdisjunction a ha.mem_atoms).conjunction_of_exists (hconjunction a ha)
  constructor
  · -- the formula can be read, and what is read has one value
    intro hb
    obtain ⟨c, hc⟩ := f.exists_reads_symbols value
    rw [hb.unique (hspliced c hc)]
    exact hc
  · exact hspliced b

end Splice

end CausalRules
