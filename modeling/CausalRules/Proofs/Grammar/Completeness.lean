import CausalRules.Proofs.Grammar.Soundness

/-!
# What is spelled is read

Tokens that spell something are taken whole by the reader for its line of the grammar, whatever
follows them, as long as the next token cannot be mistaken for more of the same: a number is not
followed by a point, an item not by a connective. The number of constructs that may still be opened
bounds the length of what is spelled, so no limit on nesting is met.

- `Takes`: a reader takes given tokens before any fit continuation.
- `takes_separated`, `takes_readChain`: from items to lists and chains of them.
- `returns_readProgram`: a program that is spelled is the one that is read.
- `Program.read_eq_ok_iff_spells`: exactly the programs of the grammar are read.
-/

namespace CausalRules

open Reader

/-- A reader takes the tokens `s` and returns `a`, if only the token after them is a fit one. -/
def Takes {α : Type} (r : Reader α) (s : List Located) (a : α) (Next : Token → Prop) : Prop :=
  ∀ rest, Next (ahead rest).token → Returns r (s ++ rest) a rest

section Steps

variable {s rest : List Located} {t : Located} {token : Token} {p : Nat}

theorem returns_current_cons : Returns current (t :: rest) t (t :: rest) :=
  returns_current.mpr ⟨rfl, rfl⟩

theorem returns_skip_cons : Returns skip (t :: rest) () rest :=
  returns_skip.mpr rfl

theorem returns_accept_cons : Returns (accept token) (⟨token, p⟩ :: rest) true rest :=
  returns_accept.mpr ⟨(decide_eq_true rfl).symm, rfl⟩

theorem returns_accept_of_ne (h : (ahead s).token ≠ token) : Returns (accept token) s false s :=
  returns_accept.mpr ⟨(decide_eq_false h).symm, rfl⟩

theorem returns_expect_cons {expected : Expected} :
    Returns (expect token expected) (⟨token, p⟩ :: rest) () rest :=
  returns_bind.mpr ⟨true, rest, returns_accept_cons, returns_pure.mpr ⟨rfl, rfl⟩⟩

/-- A token that is passed over for a value. -/
theorem returns_skip_pure {α : Type} {a : α} :
    Returns (do skip; return a) (t :: rest) a rest :=
  returns_bind.mpr ⟨(), rest, returns_skip_cons, returns_pure.mpr ⟨rfl, rfl⟩⟩

end Steps

/-! ## Lists of items -/

section Items

variable {α : Type} {Item : List Located → α → Prop} {separator : Token} {item : Reader α}
  {Next : Token → Prop} {n : Nat}

theorem returns_moreItems_end {bound : List Located} {found : List α} {rest : List Located}
    (h : (ahead rest).token ≠ separator) :
    Returns (moreItems separator item bound found) rest found.reverse rest := by
  cases bound with
  | nil => exact returns_pure.mpr ⟨rfl, rfl⟩
  | cons _ bound =>
    exact returns_bind.mpr ⟨false, rest, returns_accept_of_ne h, returns_pure.mpr ⟨rfl, rfl⟩⟩

/-- Reading on from a separator, when enough items may be read. -/
theorem returns_moreItems
    (hitem : ∀ {s a}, Item s a → s.length ≤ n → Takes item s a Next) (hnext : Next separator)
    {s : List Located} {as : List α} (h : Separated separator Item s as) (hs : s.length ≤ n)
    {bound : List Located} (hbound : s.length < bound.length) {found : List α} {p : Nat}
    {rest : List Located} (hrest : Next (ahead rest).token)
    (hend : (ahead rest).token ≠ separator) :
    Returns (moreItems separator item bound found) (⟨separator, p⟩ :: (s ++ rest))
      (found.reverse ++ as) rest := by
  induction h generalizing bound found p with
  | @last s a ha =>
    cases bound with
    | nil => exact (Nat.not_lt_zero _ hbound).elim
    | cons _ bound =>
      rw [← List.reverse_cons]
      exact returns_bind.mpr ⟨true, _, returns_accept_cons,
        returns_bind.mpr ⟨a, rest, hitem ha hs rest hrest, returns_moreItems_end hend⟩⟩
  | @more s u a as q ha _ ih =>
    rw [List.length_append, List.length_cons] at hs hbound
    cases bound with
    | nil => exact (Nat.not_lt_zero _ hbound).elim
    | cons _ bound =>
      rw [List.length_cons] at hbound
      rw [List.append_assoc, List.cons_append, List.append_cons found.reverse, ← List.reverse_cons]
      have htake := hitem ha (by omega) (⟨separator, q⟩ :: (u ++ rest)) hnext
      exact returns_bind.mpr ⟨true, _, returns_accept_cons,
        returns_bind.mpr ⟨a, _, htake, ih (by omega) (by omega)⟩⟩

/-- Items between separators are taken when each of them is. -/
theorem takes_separated
    (hitem : ∀ {s a}, Item s a → s.length ≤ n → Takes item s a Next) (hnext : Next separator)
    {s : List Located} {as : List α} (h : Separated separator Item s as) (hs : s.length ≤ n) :
    Takes (separated separator item) s as fun t => Next t ∧ t ≠ separator := by
  rintro rest ⟨hrest, hend⟩
  cases h with
  | last ha =>
    exact returns_bind.mpr ⟨_, _, hitem ha hs rest hrest,
      returns_bind.mpr ⟨_, _, returns_get.mpr ⟨rfl, rfl⟩, returns_moreItems_end hend⟩⟩
  | @more s u a as p ha hmore =>
    rw [List.length_append, List.length_cons] at hs
    rw [List.append_assoc, List.cons_append]
    have hbound : u.length < (⟨separator, p⟩ :: (u ++ rest) : List Located).length := by
      rw [List.length_cons, List.length_append]
      omega
    exact returns_bind.mpr ⟨a, _, hitem ha (by omega) _ hnext,
      returns_bind.mpr ⟨_, _, returns_get.mpr ⟨rfl, rfl⟩,
        returns_moreItems hitem hnext hmore (by omega) hbound hrest hend⟩⟩

/-- Items that may be spelled as something else as well. -/
theorem Separated.exists_map {β : Type} {Item' : List Located → β → Prop} {f : β → α}
    (himp : ∀ s a, Item s a → ∃ b, f b = a ∧ Item' s b) {s : List Located} {as : List α}
    (h : Separated separator Item s as) :
    ∃ bs, bs.map f = as ∧ Separated separator Item' s bs := by
  induction h with
  | last ha =>
    obtain ⟨b, rfl, hb⟩ := himp _ _ ha
    exact ⟨[b], rfl, .last hb⟩
  | more ha _ ih =>
    obtain ⟨b, rfl, hb⟩ := himp _ _ ha
    obtain ⟨bs, rfl, hbs⟩ := ih
    exact ⟨b :: bs, rfl, .more hb hbs⟩

end Items

/-! ## Arguments -/

section Arguments

variable {s rest : List Located}

/-- The tokens with which an argument may begin. -/
def Token.startsArg : Token → Bool
  | .quote | .stateWord | .digits _ | .dot | .minus | .ident _ | .continuation _ | .python _ => true
  | _ => false

/-- The tokens with which a number may begin. -/
def Token.startsNumber : Token → Bool
  | .digits _ | .dot | .minus => true
  | _ => false

theorem SpellsNumber.exists_cons {n : Number} (h : SpellsNumber s n) :
    ∃ t u, s = t :: u ∧ t.token.startsNumber = true := by
  cases h with
  | _ => exact ⟨_, _, rfl, rfl⟩

theorem Token.startsArg_of_startsNumber {t : Token} (h : t.startsNumber = true) :
    t.startsArg = true := by
  cases t <;> trivial

theorem SpellsArg.exists_cons {arg : Arg} (h : SpellsArg s arg) :
    ∃ t u, s = t :: u ∧ t.token.startsArg = true := by
  cases h with
  | number h =>
    obtain ⟨t, u, rfl, ht⟩ := h.exists_cons
    exact ⟨t, u, rfl, Token.startsArg_of_startsNumber ht⟩
  | _ => exact ⟨_, _, rfl, rfl⟩

theorem SpellsArgs.exists_cons {args : List Arg} (h : SpellsArgs s args) :
    ∃ t u, s = t :: u ∧ t.token.startsArg = true := by
  cases h.1 with
  | last harg => exact harg.exists_cons
  | more harg _ =>
    obtain ⟨t, u, rfl, ht⟩ := harg.exists_cons
    exact ⟨t, _, rfl, ht⟩

theorem returns_readFraction_none (h : (ahead rest).token ≠ .dot) :
    Returns readFraction rest none rest :=
  returns_bind.mpr ⟨false, rest, returns_accept_of_ne h, returns_pure.mpr ⟨rfl, rfl⟩⟩

theorem returns_readFraction_some {p q : Nat} {run : String} :
    Returns readFraction (⟨.dot, p⟩ :: ⟨.digits run, q⟩ :: rest) (some run) rest :=
  returns_bind.mpr ⟨true, _, returns_accept_cons,
    returns_bind.mpr ⟨_, _, returns_current_cons, returns_skip_pure⟩⟩

theorem returns_readWhole {p : Nat} {run : String} :
    Returns readWhole (⟨.digits run, p⟩ :: rest) run rest :=
  returns_bind.mpr ⟨_, _, returns_current_cons, returns_skip_pure⟩

theorem returns_readWhole_point {p : Nat} :
    Returns readWhole (⟨.dot, p⟩ :: rest) "" (⟨.dot, p⟩ :: rest) :=
  returns_bind.mpr ⟨_, _, returns_current_cons, returns_pure.mpr ⟨rfl, rfl⟩⟩

/-- The parts of a number without a sign. -/
theorem returns_magnitude {whole : String} {fraction : Option String}
    (h : SpellsNumber s ⟨false, whole, fraction⟩) (hrest : (ahead rest).token ≠ .dot) :
    (ahead (s ++ rest)).token ≠ .minus ∧
      ∃ m, Returns readWhole (s ++ rest) whole m ∧ Returns readFraction m fraction rest := by
  cases h with
  | whole => exact ⟨nofun, _, returns_readWhole, returns_readFraction_none hrest⟩
  | decimal => exact ⟨nofun, _, returns_readWhole, returns_readFraction_some⟩
  | point => exact ⟨nofun, _, returns_readWhole_point, returns_readFraction_some⟩

theorem takes_readNumber {n : Number} (h : SpellsNumber s n) :
    Takes readNumber s n (· ≠ .dot) := by
  intro rest hrest
  obtain ⟨negative, whole, fraction⟩ := n
  cases negative with
  | false =>
    obtain ⟨hne, m, hwhole, hfraction⟩ := returns_magnitude h hrest
    exact returns_bind.mpr ⟨false, _, returns_accept_of_ne hne, returns_bind.mpr ⟨whole, m, hwhole,
      returns_bind.mpr ⟨fraction, rest, hfraction, returns_pure.mpr ⟨rfl, rfl⟩⟩⟩⟩
  | true =>
    cases h with
    | negative h =>
      obtain ⟨-, m, hwhole, hfraction⟩ := returns_magnitude h hrest
      exact returns_bind.mpr ⟨true, _, returns_accept_cons, returns_bind.mpr ⟨whole, m, hwhole,
        returns_bind.mpr ⟨fraction, rest, hfraction, returns_pure.mpr ⟨rfl, rfl⟩⟩⟩⟩

/-- Arguments up to a closing sign, when each argument is taken. -/
theorem returns_readArgs {arg : Reader Arg} {closing : Token} {expected : Expected} {n p : Nat}
    {args : List Arg} (hdot : closing ≠ .dot) (hcomma : closing ≠ .comma)
    (harg : ∀ {s a}, SpellsArg s a → s.length ≤ n → Takes arg s a (· ≠ .dot))
    (h : SpellsArgs s args) (hs : s.length ≤ n) :
    Returns (readArgs arg closing expected) (s ++ ⟨closing, p⟩ :: rest) args rest := by
  -- the reader notes where each argument begins
  have located : ∀ s a, SpellsArg s a →
      ∃ b : Nat × Arg, Prod.snd b = a ∧ (SpellsArg s b.2 ∧ b.1 = (ahead s).position) :=
    fun s a ha => ⟨((ahead s).position, a), rfl, ha, rfl⟩
  obtain ⟨located, rfl, hlocated⟩ := h.1.exists_map located
  have hitems : Takes (separated .comma do
      let position := (← current).position
      return (position, ← arg)) s located fun t => t ≠ .dot ∧ t ≠ .comma := by
    refine takes_separated (fun {s a} ha hs rest hrest => ?_) nofun hlocated hs
    obtain ⟨t, u, rfl, -⟩ := ha.1.exists_cons
    obtain ⟨position, a⟩ := a
    obtain ⟨ha, rfl⟩ := ha
    exact returns_bind.mpr ⟨t, _, returns_current_cons,
      returns_bind.mpr ⟨a, rest, harg ha hs rest hrest, returns_pure.mpr ⟨rfl, rfl⟩⟩⟩
  have hcheck := checkContinuation_zero_eq_ok_iff.mpr h.2
  exact returns_bind.mpr ⟨located, _, hitems _ ⟨hdot, hcomma⟩,
    returns_bind.mpr ⟨(), rest, returns_expect_cons,
      returns_bind.mpr ⟨(), rest, returns_lift.mpr ⟨hcheck, rfl⟩, returns_pure.mpr ⟨rfl, rfl⟩⟩⟩⟩

theorem returns_readLiteral_name {p q : Nat} {name : String} :
    Returns readLiteral (⟨.ident name, p⟩ :: ⟨.quote, q⟩ :: rest) (.literal (literalText name))
      rest := by
  have htext : Returns readLiteralText (⟨.ident name, p⟩ :: ⟨.quote, q⟩ :: rest)
      (literalText name) (⟨.quote, q⟩ :: rest) :=
    returns_bind.mpr ⟨_, _, returns_current_cons, returns_skip_pure⟩
  exact returns_bind.mpr ⟨_, _, htext,
    returns_bind.mpr ⟨(), rest, returns_expect_cons, returns_pure.mpr ⟨rfl, rfl⟩⟩⟩

theorem returns_readLiteral_number {n : Number} {q : Nat} (h : SpellsNumber s n) :
    Returns readLiteral (s ++ ⟨.quote, q⟩ :: rest) (.literal n.text) rest := by
  have hn := takes_readNumber h (⟨.quote, q⟩ :: rest) nofun
  have htext : Returns readLiteralText (s ++ ⟨.quote, q⟩ :: rest) n.text (⟨.quote, q⟩ :: rest) := by
    cases h with
    | _ =>
      exact returns_bind.mpr ⟨_, _, returns_current_cons, returns_map.mpr ⟨_, hn, rfl⟩⟩
  exact returns_bind.mpr ⟨_, _, htext,
    returns_bind.mpr ⟨(), rest, returns_expect_cons, returns_pure.mpr ⟨rfl, rfl⟩⟩⟩

theorem returns_readPlainArg_number {n : Number} (h : SpellsNumber s n)
    (hrest : (ahead rest).token ≠ .dot) : Returns readPlainArg (s ++ rest) (.number n) rest := by
  have hn := takes_readNumber h rest hrest
  cases h with
  | _ => exact returns_bind.mpr ⟨_, _, returns_current_cons, returns_map.mpr ⟨_, hn, rfl⟩⟩

theorem returns_readPlainArg_continuation {suffix : String} {offset p : Nat}
    (h : Denotes suffix offset) :
    Returns readPlainArg (⟨.continuation suffix, p⟩ :: rest) (.continuation offset) rest := by
  refine returns_bind.mpr ⟨_, _, returns_current_cons, ?_⟩
  dsimp only
  rw [continuationOffset_eq_ok_iff.mpr h]
  exact returns_skip_pure

/-- An argument is taken when the arguments of a state inside it are read. -/
theorem takes_readArgWith {stateArgs : Nat → Reader (List Arg)} {arg : Arg} {depth : Nat}
    (hstate : ∀ {position s args p rest}, SpellsArgs s args → s.length + 3 ≤ depth →
      Returns (stateArgs position) (s ++ ⟨.closeParen, p⟩ :: rest) args rest)
    (h : SpellsArg s arg) (hs : s.length ≤ depth) :
    Takes (readArgWith stateArgs) s arg (· ≠ .dot) := by
  intro rest hrest
  cases h with
  | name name =>
    exact returns_bind.mpr ⟨_, _, returns_current_cons,
      returns_bind.mpr ⟨(), _, returns_skip_cons, returns_readLiteral_name⟩⟩
  | quoted h =>
    rw [List.cons_append, List.append_assoc]
    exact returns_bind.mpr ⟨_, _, returns_current_cons,
      returns_bind.mpr ⟨(), _, returns_skip_cons, returns_readLiteral_number h⟩⟩
  | state hitems hplaced =>
    simp only [List.length_cons, List.length_append, List.length_nil] at hs
    rw [List.cons_append, List.cons_append, List.append_assoc]
    exact returns_bind.mpr ⟨_, _, returns_current_cons,
      returns_bind.mpr ⟨(), _, returns_skip_cons,
        returns_bind.mpr ⟨(), _, returns_expect_cons,
          returns_map.mpr ⟨_, hstate ⟨hitems, hplaced⟩ (by omega), rfl⟩⟩⟩⟩
  | number h =>
    have hn := returns_readPlainArg_number h hrest
    cases h with
    | _ => exact returns_bind.mpr ⟨_, _, returns_current_cons, hn⟩
  | «variable» name =>
    exact returns_bind.mpr ⟨_, _, returns_current_cons,
      returns_bind.mpr ⟨_, _, returns_current_cons, returns_skip_pure⟩⟩
  | continuation h =>
    exact returns_bind.mpr ⟨_, _, returns_current_cons, returns_readPlainArg_continuation h⟩
  | python code =>
    exact returns_bind.mpr ⟨_, _, returns_current_cons,
      returns_bind.mpr ⟨_, _, returns_current_cons, returns_skip_pure⟩⟩

/-- States are nested less deep than an argument is long. -/
theorem takes_readArg {limit : Nat} (depth : Nat) :
    ∀ {s arg}, SpellsArg s arg → s.length ≤ depth →
      Takes (readArg limit depth) s arg (· ≠ .dot) := by
  induction depth with
  | zero =>
    intro s arg h hs
    exact takes_readArgWith (fun _ hlength => by omega) h hs
  | succ depth ih =>
    intro s arg h hs
    refine takes_readArgWith (fun hargs hlength => ?_) h hs
    exact returns_readArgs nofun nofun ih hargs (by omega)

end Arguments

/-! ## Conditions -/

section Conditions

variable {limit depth : Nat} {s rest : List Located}

theorem returns_readCallName {expected : Expected} {name : String} {p q r : Nat} :
    Returns (readCallName expected)
      (⟨.openParen, p⟩ :: ⟨.ident name, q⟩ :: ⟨.closeParen, r⟩ :: rest) name rest :=
  returns_bind.mpr ⟨(), _, returns_expect_cons,
    returns_bind.mpr ⟨_, _, returns_current_cons,
      returns_bind.mpr ⟨(), _, returns_skip_cons,
        returns_bind.mpr ⟨(), rest, returns_expect_cons, returns_pure.mpr ⟨rfl, rfl⟩⟩⟩⟩⟩

theorem returns_readListItems {arg : Reader Arg} {n p : Nat} {items : List Arg}
    (harg : ∀ {s a}, SpellsArg s a → s.length ≤ n → Takes arg s a (· ≠ .dot))
    (h : SpellsArgs s items) (hs : s.length ≤ n) :
    Returns (readListItems arg) (s ++ ⟨.closeBracket, p⟩ :: rest) items rest := by
  have hargs : Returns (readArgs arg .closeBracket .listClosing) (s ++ ⟨.closeBracket, p⟩ :: rest)
      items rest := returns_readArgs nofun nofun harg h hs
  obtain ⟨t, u, rfl, hstarts⟩ := h.exists_cons
  have hne : t.token ≠ .closeBracket := by
    intro heq
    rw [heq] at hstarts
    cases hstarts
  exact returns_bind.mpr ⟨false, _, returns_accept_of_ne hne, hargs⟩

theorem takes_readOperand {operand : Operand} (h : SpellsOperand s operand)
    (hs : s.length ≤ depth) : Takes (readOperand limit depth) s operand (· ≠ .dot) := by
  intro rest hrest
  cases h with
  | all name =>
    exact returns_bind.mpr ⟨_, _, returns_current_cons,
      returns_bind.mpr ⟨(), _, returns_skip_cons,
        returns_map.mpr ⟨name, returns_readCallName, rfl⟩⟩⟩
  | type name =>
    exact returns_bind.mpr ⟨_, _, returns_current_cons,
      returns_bind.mpr ⟨(), _, returns_skip_cons,
        returns_map.mpr ⟨name, returns_readCallName, rfl⟩⟩⟩
  | empty =>
    cases depth with
    | zero => nomatch hs
    | succ depth =>
      exact returns_bind.mpr ⟨_, _, returns_current_cons,
        returns_bind.mpr ⟨(), _, returns_skip_cons,
          returns_map.mpr ⟨[], returns_bind.mpr ⟨true, rest, returns_accept_cons,
            returns_pure.mpr ⟨rfl, rfl⟩⟩, rfl⟩⟩⟩
  | list h =>
    simp only [List.length_cons, List.length_append, List.length_nil] at hs
    rw [List.cons_append, List.append_assoc]
    cases depth with
    | zero => omega
    | succ depth =>
      exact returns_bind.mpr ⟨_, _, returns_current_cons,
        returns_bind.mpr ⟨(), _, returns_skip_cons,
          returns_map.mpr ⟨_, returns_readListItems (takes_readArg depth) h (by omega), rfl⟩⟩⟩
  | @value _ arg h hplain =>
    have harg : Takes (readArg limit depth) s arg (· ≠ .dot) := takes_readArg depth h hs
    obtain ⟨t, u, rfl, hstarts⟩ := h.exists_cons
    refine returns_bind.mpr ⟨t, _, returns_current_cons, ?_⟩
    split
    case h_4 =>
      refine returns_bind.mpr ⟨arg, rest, harg rest hrest, ?_⟩
      rw [hplain]
      exact returns_pure.mpr ⟨rfl, rfl⟩
    -- no other operand begins with a token with which an argument begins
    all_goals
      rename_i heq
      rw [heq] at hstarts
      cases hstarts

/-- What may follow a predicate: neither a point nor a comparison. -/
def EndsPredicate (token : Token) : Prop :=
  token ≠ .dot ∧ Comparison.ofToken? token = none

theorem takes_readPredicate {test : Predicate} (h : SpellsPredicate s test)
    (hs : s.length ≤ depth) : Takes (readPredicate limit depth) s test EndsPredicate := by
  rintro rest ⟨hdot, hcomparison⟩
  cases h with
  | bare hoperand =>
    refine returns_bind.mpr ⟨_, _, returns_current_cons,
      returns_bind.mpr ⟨_, rest, takes_readOperand hoperand hs rest hdot,
        returns_bind.mpr ⟨ahead rest, rest, returns_current.mpr ⟨rfl, rfl⟩, ?_⟩⟩⟩
    rw [hcomparison]
    exact returns_pure.mpr ⟨rfl, rfl⟩
  | @compare t s u left right p op hleft hright =>
    simp only [List.length_cons, List.length_append] at hs
    rw [← List.cons_append, List.append_assoc]
    have hsign : op.token ≠ .dot := by cases op <;> nofun
    have htakes : Takes (readOperand limit depth) (t :: s) left (· ≠ .dot) :=
      takes_readOperand hleft (by simp only [List.length_cons]; omega)
    refine returns_bind.mpr ⟨_, _, returns_current_cons,
      returns_bind.mpr ⟨left, _, htakes _ hsign,
        returns_bind.mpr ⟨⟨op.token, p⟩, _, returns_current_cons, ?_⟩⟩⟩
    rw [Comparison.ofToken?_eq_some_iff.mpr rfl]
    exact returns_bind.mpr ⟨(), _, returns_skip_cons,
      returns_bind.mpr ⟨right, rest, takes_readOperand hright (by omega) rest hdot,
        returns_pure.mpr ⟨rfl, rfl⟩⟩⟩

/-- The tokens with which an operand may begin. -/
theorem SpellsOperand.ne_openParen {t : Located} {operand : Operand}
    (h : SpellsOperand (t :: s) operand) : t.token ≠ .openParen := by
  cases h with
  | value h =>
    obtain ⟨t, u, heq, hstarts⟩ := h.exists_cons
    obtain ⟨rfl, rfl⟩ := List.cons.inj heq
    intro heq
    rw [heq] at hstarts
    cases hstarts
  | _ => exact nofun

/-- A part of a condition is taken when what stands inside a group is. -/
theorem takes_readItem {inside : Nat → Reader Condition} {c : Condition}
    (hinside : ∀ {position s c}, SpellsCondition s c → s.length + 2 ≤ depth →
      Takes (inside position) s c (· = .closeParen))
    (h : SpellsItem s c) (hs : s.length ≤ depth) :
    Takes (readItem limit depth inside) s c EndsPredicate := by
  intro rest hrest
  cases h with
  | group h =>
    simp only [List.length_cons, List.length_append, List.length_nil] at hs
    rw [List.cons_append, List.append_assoc]
    exact returns_bind.mpr ⟨_, _, returns_current_cons,
      returns_bind.mpr ⟨true, _, returns_accept_cons,
        returns_bind.mpr ⟨_, _, hinside h (by omega) _ rfl,
          returns_bind.mpr ⟨(), rest, returns_expect_cons, returns_pure.mpr ⟨rfl, rfl⟩⟩⟩⟩⟩
  | test h =>
    have htest : Takes (readPredicate limit depth) s _ EndsPredicate := takes_readPredicate h hs
    have hne : (ahead (s ++ rest)).token ≠ .openParen := by
      cases h with
      | bare h => exact h.ne_openParen
      | compare _ h _ => exact h.ne_openParen
    exact returns_bind.mpr ⟨_, _, returns_current.mpr ⟨rfl, rfl⟩,
      returns_bind.mpr ⟨false, _, returns_accept_of_ne hne,
        returns_bind.mpr ⟨_, rest, htest rest hrest, returns_pure.mpr ⟨rfl, rfl⟩⟩⟩⟩

section Chains

variable {Item : List Located → Condition → Prop} {item : Reader Condition} {n : Nat}

theorem endsPredicate_connective (op : Connective) : EndsPredicate op.token := by
  cases op <;> exact ⟨nofun, rfl⟩

theorem endsPredicate_closeParen : EndsPredicate .closeParen :=
  ⟨nofun, rfl⟩

theorem returns_moreChain_end {bound : List Located} {last : Condition}
    {before : List (Condition × Connective)} (h : (ahead rest).token = .closeParen) :
    Returns (moreChain item bound last before) rest (nestRight last before) rest := by
  cases bound with
  | nil => exact returns_pure.mpr ⟨rfl, rfl⟩
  | cons _ bound =>
    refine returns_bind.mpr ⟨ahead rest, rest, returns_current.mpr ⟨rfl, rfl⟩, ?_⟩
    rw [h]
    exact returns_pure.mpr ⟨rfl, rfl⟩

/-- Reading on from a connective, when enough parts may be read. -/
theorem returns_moreChain
    (hitem : ∀ {s c}, Item s c → s.length ≤ n → Takes item s c EndsPredicate)
    {c : Condition} (h : Chained Item s c) (hs : s.length ≤ n) {bound : List Located}
    (hbound : s.length < bound.length) {last : Condition} {op : Connective}
    {before : List (Condition × Connective)} {p : Nat}
    (hrest : (ahead rest).token = .closeParen) :
    Returns (moreChain item bound last before) (⟨op.token, p⟩ :: (s ++ rest))
      (nestRight (.chain last op c) before) rest := by
  induction h generalizing bound last op before p with
  | @last s c hc =>
    cases bound with
    | nil => exact (Nat.not_lt_zero _ hbound).elim
    | cons _ bound =>
      refine returns_bind.mpr ⟨_, _, returns_current_cons, ?_⟩
      rw [Connective.ofToken?_eq_some_iff.mpr rfl]
      exact returns_bind.mpr ⟨(), _, returns_skip_cons,
        returns_bind.mpr ⟨c, rest, hitem hc hs rest (hrest ▸ endsPredicate_closeParen),
          returns_moreChain_end hrest⟩⟩
  | @more s u left right q op' hleft _ ih =>
    rw [List.length_append, List.length_cons] at hs hbound
    cases bound with
    | nil => exact (Nat.not_lt_zero _ hbound).elim
    | cons _ bound =>
      rw [List.length_cons] at hbound
      rw [List.append_assoc, List.cons_append]
      refine returns_bind.mpr ⟨_, _, returns_current_cons, ?_⟩
      rw [Connective.ofToken?_eq_some_iff.mpr rfl]
      exact returns_bind.mpr ⟨(), _, returns_skip_cons,
        returns_bind.mpr ⟨left, _, hitem hleft (by omega) _ (endsPredicate_connective op'),
          ih (by omega) (by omega)⟩⟩

/-- Parts joined by connectives are taken when each of them is. -/
theorem takes_readChain
    (hitem : ∀ {s c}, Item s c → s.length ≤ n → Takes item s c EndsPredicate)
    {c : Condition} (h : Chained Item s c) (hs : s.length ≤ n) :
    Takes (readChain item) s c (· = .closeParen) := by
  intro rest hrest
  cases h with
  | last hc =>
    exact returns_bind.mpr ⟨c, rest, hitem hc hs rest (hrest ▸ endsPredicate_closeParen),
      returns_bind.mpr ⟨_, _, returns_get.mpr ⟨rfl, rfl⟩, returns_moreChain_end hrest⟩⟩
  | @more s u left right p op hleft hmore =>
    rw [List.length_append, List.length_cons] at hs
    rw [List.append_assoc, List.cons_append]
    have hbound : u.length < (⟨op.token, p⟩ :: (u ++ rest) : List Located).length := by
      rw [List.length_cons, List.length_append]
      omega
    exact returns_bind.mpr ⟨left, _, hitem hleft (by omega) _ (endsPredicate_connective op),
      returns_bind.mpr ⟨_, _, returns_get.mpr ⟨rfl, rfl⟩,
        returns_moreChain hitem hmore (by omega) hbound hrest⟩⟩

end Chains

/-- Groups are nested less deep than a condition is long. -/
theorem takes_readCondition (depth : Nat) :
    ∀ {s c}, SpellsCondition s c → s.length ≤ depth →
      Takes (readCondition limit depth) s c (· = .closeParen) := by
  induction depth with
  | zero =>
    intro s c h hs
    exact takes_readChain (takes_readItem fun _ hlength => by omega) h hs
  | succ depth ih =>
    intro s c h hs
    exact takes_readChain (takes_readItem fun hc hlength => ih hc (by omega)) h hs

end Conditions

/-! ## Programs -/

section Programs

variable {limit : Nat} {s rest : List Located}

theorem takes_readAction {action : Action} (h : SpellsAction s action) (hs : s.length ≤ limit) :
    Takes (readAction limit) s action fun _ => True := by
  intro rest _
  cases h with
  | plain name =>
    exact returns_bind.mpr ⟨_, _, returns_current_cons,
      returns_bind.mpr ⟨(), _, returns_skip_cons,
        returns_bind.mpr ⟨(), _, returns_expect_cons,
          returns_bind.mpr ⟨true, rest, returns_accept_cons, returns_pure.mpr ⟨rfl, rfl⟩⟩⟩⟩⟩
  | @applied s args p q r name h =>
    simp only [List.length_cons, List.length_append, List.length_nil] at hs
    rw [List.cons_append, List.cons_append, List.append_assoc]
    have hargs : Returns (readArgs (readArg limit limit) .closeParen .actionClosing)
        (s ++ ⟨.closeParen, r⟩ :: rest) args rest :=
      returns_readArgs nofun nofun (takes_readArg limit) h (by omega)
    have hne : (ahead (s ++ ⟨.closeParen, r⟩ :: rest)).token ≠ .closeParen := by
      obtain ⟨t, u, rfl, hstarts⟩ := h.exists_cons
      intro heq
      rw [show t.token = .closeParen from heq] at hstarts
      cases hstarts
    exact returns_bind.mpr ⟨_, _, returns_current_cons,
      returns_bind.mpr ⟨(), _, returns_skip_cons,
        returns_bind.mpr ⟨(), _, returns_expect_cons,
          returns_bind.mpr ⟨false, _, returns_accept_of_ne hne,
            returns_bind.mpr ⟨args, rest, hargs, returns_pure.mpr ⟨rfl, rfl⟩⟩⟩⟩⟩⟩

theorem takes_effects {effects : List Action} (h : Separated .comma SpellsAction s effects)
    (hs : s.length ≤ limit) :
    Takes (separated .comma (readAction limit)) s effects (· ≠ .comma) := fun rest hrest =>
  takes_separated takes_readAction trivial h hs rest ⟨trivial, hrest⟩

theorem takes_readRule {rule : Rule} (h : SpellsRule s rule) (hs : s.length ≤ limit) :
    Takes (readRule limit) s rule (· ≠ .comma) := by
  intro rest hrest
  cases h with
  | @always s u intention effects p hintention heffects =>
    rw [List.length_append, List.length_cons] at hs
    rw [List.append_assoc, List.cons_append]
    have hne : (ahead (s ++ ⟨.causes, p⟩ :: (u ++ rest))).token ≠ .ifWord := by
      cases hintention with
      | _ => exact nofun
    rw [hintention.position_eq]
    exact returns_bind.mpr ⟨_, _, returns_current.mpr ⟨rfl, rfl⟩,
      returns_bind.mpr ⟨none, _, returns_bind.mpr
          ⟨false, _, returns_accept_of_ne hne, returns_pure.mpr ⟨rfl, rfl⟩⟩,
        returns_bind.mpr ⟨intention, _, takes_readAction hintention (by omega) _ trivial,
          returns_bind.mpr ⟨(), _, returns_expect_cons,
            returns_bind.mpr ⟨effects, rest, takes_effects heffects (by omega) rest hrest,
              returns_pure.mpr ⟨rfl, rfl⟩⟩⟩⟩⟩⟩
  | @guarded c s u condition intention effects p q r o n hcondition hintention heffects =>
    simp only [List.length_cons, List.length_append] at hs
    simp only [List.cons_append, List.append_assoc]
    have hguard : Returns (readGuard limit)
        (⟨.ifWord, p⟩ :: ⟨.openParen, q⟩ :: (c ++ ⟨.closeParen, r⟩ :: ⟨.colon, o⟩ ::
          (s ++ ⟨.causes, n⟩ :: (u ++ rest))))
        (some condition) (s ++ ⟨.causes, n⟩ :: (u ++ rest)) :=
      returns_bind.mpr ⟨true, _, returns_accept_cons,
        returns_bind.mpr ⟨(), _, returns_expect_cons,
          returns_bind.mpr ⟨condition, _, takes_readCondition limit hcondition (by omega) _ rfl,
            returns_bind.mpr ⟨(), _, returns_expect_cons,
              returns_bind.mpr ⟨(), _, returns_expect_cons, returns_pure.mpr ⟨rfl, rfl⟩⟩⟩⟩⟩⟩
    exact returns_bind.mpr ⟨_, _, returns_current_cons,
      returns_bind.mpr ⟨some condition, _, hguard,
        returns_bind.mpr ⟨intention, _, takes_readAction hintention (by omega) _ trivial,
          returns_bind.mpr ⟨(), _, returns_expect_cons,
            returns_bind.mpr ⟨effects, rest, takes_effects heffects (by omega) rest hrest,
              returns_pure.mpr ⟨rfl, rfl⟩⟩⟩⟩⟩⟩

/-- The rules are over where a brace closes them, after a semicolon or not. -/
theorem returns_moreRules_end {bound : List Located} {found : List Rule} {p : Nat}
    (h : TrailingSemicolon s) (hbound : s.length ≤ bound.length) :
    Returns (moreRules limit bound found) (s ++ ⟨.closeBrace, p⟩ :: rest) found.reverse
      (⟨.closeBrace, p⟩ :: rest) := by
  obtain rfl | ⟨q, rfl⟩ := h
  · cases bound with
    | nil => exact returns_pure.mpr ⟨rfl, rfl⟩
    | cons _ bound =>
      exact returns_bind.mpr ⟨false, _, returns_accept_of_ne nofun, returns_pure.mpr ⟨rfl, rfl⟩⟩
  · cases bound with
    | nil => exact (Nat.not_lt_zero _ hbound).elim
    | cons _ bound =>
      exact returns_bind.mpr ⟨true, _, returns_accept_cons,
        returns_bind.mpr ⟨_, _, returns_current_cons, returns_pure.mpr ⟨rfl, rfl⟩⟩⟩

theorem SpellsRule.ne_closeBrace {rule : Rule} (h : SpellsRule s rule) :
    (ahead (s ++ rest)).token ≠ .closeBrace := by
  cases h with
  | always h _ =>
    cases h with
    | _ => exact nofun
  | guarded _ _ _ => exact nofun

/-- Neither a semicolon nor a brace continues a rule. -/
theorem TrailingSemicolon.ne_comma {p : Nat} (h : TrailingSemicolon s) :
    (ahead (s ++ ⟨.closeBrace, p⟩ :: rest)).token ≠ .comma := by
  obtain rfl | ⟨q, rfl⟩ := h
  · exact nofun
  · exact nofun

/-- Reading on from a semicolon that a rule follows, when enough rules may be read. -/
theorem returns_moreRules {rules : List Rule} {u : List Located}
    (h : Separated .semicolon SpellsRule s rules) (hs : s.length ≤ limit)
    (hu : TrailingSemicolon u) {bound : List Located} (hbound : s.length + u.length < bound.length)
    {found : List Rule} {p r : Nat} :
    Returns (moreRules limit bound found)
      (⟨.semicolon, p⟩ :: (s ++ (u ++ ⟨.closeBrace, r⟩ :: rest))) (found.reverse ++ rules)
      (⟨.closeBrace, r⟩ :: rest) := by
  induction h generalizing bound found p with
  | @last s rule hrule =>
    cases bound with
    | nil => exact (Nat.not_lt_zero _ hbound).elim
    | cons _ bound =>
      rw [List.length_cons] at hbound
      rw [← List.reverse_cons]
      refine returns_bind.mpr ⟨true, _, returns_accept_cons,
        returns_bind.mpr ⟨_, _, returns_current.mpr ⟨rfl, rfl⟩, ?_⟩⟩
      rw [if_neg hrule.ne_closeBrace]
      exact returns_bind.mpr ⟨rule, _, takes_readRule hrule hs _ hu.ne_comma,
        returns_moreRules_end hu (by omega)⟩
  | @more s v rule rules q hrule _ ih =>
    rw [List.length_append, List.length_cons] at hs hbound
    cases bound with
    | nil => exact (Nat.not_lt_zero _ hbound).elim
    | cons _ bound =>
      rw [List.length_cons] at hbound
      rw [List.append_assoc, List.cons_append, List.append_cons found.reverse, ← List.reverse_cons]
      refine returns_bind.mpr ⟨true, _, returns_accept_cons,
        returns_bind.mpr ⟨_, _, returns_current.mpr ⟨rfl, rfl⟩, ?_⟩⟩
      rw [if_neg hrule.ne_closeBrace]
      exact returns_bind.mpr ⟨rule, _, takes_readRule hrule (by omega) _ nofun,
        ih (by omega) (by omega)⟩

/-- Rules that are spelled between braces are read. -/
theorem returns_readRules {rules : List Rule} {u : List Located} {p q r : Nat}
    (h : Separated .semicolon SpellsRule s rules) (hs : s.length ≤ limit)
    (hu : TrailingSemicolon u) :
    Returns (readRules limit)
      (⟨.rulesWord, p⟩ :: ⟨.openBrace, q⟩ :: (s ++ (u ++ ⟨.closeBrace, r⟩ :: rest))) rules rest := by
  refine returns_bind.mpr ⟨(), _, returns_expect_cons,
    returns_bind.mpr ⟨(), _, returns_expect_cons,
      returns_bind.mpr ⟨_, _, returns_current.mpr ⟨rfl, rfl⟩, ?_⟩⟩⟩
  cases h with
  | @last _ rule hrule =>
    rw [if_neg hrule.ne_closeBrace]
    refine returns_bind.mpr ⟨rule, _, takes_readRule hrule hs _ hu.ne_comma,
      returns_bind.mpr ⟨_, _, returns_get.mpr ⟨rfl, rfl⟩,
        returns_bind.mpr ⟨[rule], _, returns_moreRules_end hu ?_,
          returns_bind.mpr ⟨(), rest, returns_expect_cons, returns_pure.mpr ⟨rfl, rfl⟩⟩⟩⟩⟩
    rw [List.length_append]
    omega
  | @more s v rule rules o hrule hmore =>
    rw [List.length_append, List.length_cons] at hs
    rw [List.append_assoc, List.cons_append, if_neg hrule.ne_closeBrace]
    refine returns_bind.mpr ⟨rule, _, takes_readRule hrule (by omega) _ nofun,
      returns_bind.mpr ⟨_, _, returns_get.mpr ⟨rfl, rfl⟩,
        returns_bind.mpr ⟨rule :: rules, _, returns_moreRules hmore (by omega) hu ?_,
          returns_bind.mpr ⟨(), rest, returns_expect_cons, returns_pure.mpr ⟨rfl, rfl⟩⟩⟩⟩⟩
    simp only [List.length_cons, List.length_append]
    omega

/-- **A program that is spelled is read, unless it is longer than nesting may be deep.** -/
theorem returns_readProgram {program : Program} (h : SpellsProgram s program)
    (hs : s.length ≤ limit + 1) : ∃ rest, Returns (readProgram limit) s program rest := by
  cases h with
  | @rules s u rules p q r e hrules hu =>
    simp only [List.length_cons, List.length_append, List.length_nil] at hs
    exact ⟨_, returns_bind.mpr ⟨rules, _, returns_readRules hrules (by omega) hu,
      returns_bind.mpr ⟨_, _, returns_current_cons, returns_pure.mpr ⟨rfl, rfl⟩⟩⟩⟩

end Programs

/-! ## Texts -/

/-- A program that the tokens of a text spell is read, when the limits leave room. -/
theorem Program.read_of_spells {limits : Limits} {text : String} {tokens : List Located}
    {program : Program} (hsize : text.utf8ByteSize ≤ limits.maxInputBytes)
    (htokens : tokenize text = .ok tokens) (hnesting : text.length ≤ limits.maxNesting)
    (h : SpellsProgram tokens program) : Program.read limits text = .ok program := by
  have hlimit : tokens.length ≤ limits.maxNesting + 1 := by
    obtain ⟨body, e, rfl, -, hlength⟩ := tokenize_ends htokens
    rw [List.length_append, List.length_singleton]
    omega
  obtain ⟨rest, hreturns⟩ := returns_readProgram h hlimit
  rw [Program.read, if_neg (Nat.not_lt_of_le hsize), htokens]
  exact run'_of_returns hreturns

/-- **Exactly the programs of the grammar are read.** A text within the limits on its size, whose
length nesting may reach, is read as a program when its tokens spell that program, which is then the
only one that they spell. -/
theorem Program.read_eq_ok_iff_spells {limits : Limits} {text : String} {tokens : List Located}
    (hsize : text.utf8ByteSize ≤ limits.maxInputBytes) (htokens : tokenize text = .ok tokens)
    (hnesting : text.length ≤ limits.maxNesting) (program : Program) :
    (Program.read limits text = .ok program ↔ SpellsProgram tokens program) ∧
      (SpellsProgram tokens program → ∀ other, SpellsProgram tokens other → other = program) := by
  have complete : ∀ p, SpellsProgram tokens p → Program.read limits text = .ok p :=
    fun _ => Program.read_of_spells hsize htokens hnesting
  refine ⟨⟨fun h => ?_, complete program⟩, fun h other hother => ?_⟩
  · obtain ⟨tokens', htokens', hspells⟩ := Program.spells_of_read h
    obtain rfl := Except.ok.inj (htokens.symm.trans htokens')
    exact hspells
  · -- both are what is read
    exact Except.ok.inj ((complete other hother).symm.trans (complete program h))

/-- A rule with a list, a group, a state and continuations. -/
def gatheringText : String :=
  "RULES \x7b if (ALL(b) = [x, CONT] && (-.5 < x || x)): m(x, STATE(x, CONT)) := f(x), g(); \x7d"

/-- The tokens of `gatheringText` spell the program that is read. -/
theorem gathering_spelled : ∃ tokens program, tokenize gatheringText = .ok tokens ∧
    Program.read ⟨100, 100⟩ gatheringText = .ok program ∧ SpellsProgram tokens program := by
  obtain ⟨program, hprogram⟩ : ∃ program, Program.read ⟨100, 100⟩ gatheringText = .ok program :=
    exists_of_isOk (by decide +kernel)
  obtain ⟨tokens, htokens⟩ : ∃ tokens, tokenize gatheringText = .ok tokens :=
    exists_of_isOk (by decide +kernel)
  have hspells : Program.read ⟨100, 100⟩ gatheringText = .ok program ↔
      SpellsProgram tokens program :=
    (Program.read_eq_ok_iff_spells (by decide +kernel) htokens (by decide +kernel) program).1
  exact ⟨tokens, program, htokens, hprogram, hspells.mp hprogram⟩

end CausalRules
