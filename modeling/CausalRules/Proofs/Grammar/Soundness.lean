import CausalRules.Proofs.Grammar
import CausalRules.Proofs.Reading.Tokens

/-!
# What is read is spelled

When a reader returns, the tokens that it took spell what it returned, by the relation for its line
of the grammar. There is one lemma for each reader, and those for nested constructs are by induction
on the number of constructs that may still be opened.

- `Took`: the tokens that were taken spell what was returned.
- `took_of_separated`, `took_of_readChain`: from items to lists and chains of them.
- `Program.spells_of_read`: the tokens of a text spell the program that is read.
- `Program.placed_of_read`: continuations are placed well in the rules of a text.
-/

namespace CausalRules

open Reader

/-- The tokens taken from `s`, which are those before `rest`, spell a value. -/
def Took {α : Type} (Spells : List Located → α → Prop) (s : List Located) (a : α)
    (rest : List Located) : Prop :=
  ∃ used, s = used ++ rest ∧ Spells used a

/-- A token that is not the end of the input stands there. -/
theorem exists_cons_of_ahead {s : List Located} {token : Token} (h : (ahead s).token = token)
    (hend : token ≠ .endOfInput) : ∃ p, s = ⟨token, p⟩ :: s.tail := by
  cases s with
  | nil => exact (hend h.symm).elim
  | cons t s =>
    obtain rfl : t.token = token := h
    exact ⟨t.position, rfl⟩

theorem exists_cons_of_expect {s rest : List Located} {token : Token} {expected : Expected}
    {u : Unit} (h : Returns (expect token expected) s u rest) (hend : token ≠ .endOfInput) :
    ∃ p, s = ⟨token, p⟩ :: rest := by
  obtain ⟨htoken, rfl⟩ := returns_expect h
  exact exists_cons_of_ahead htoken hend

theorem exists_cons_of_accept {s rest : List Located} {token : Token}
    (h : Returns (accept token) s true rest) (hend : token ≠ .endOfInput) :
    ∃ p, s = ⟨token, p⟩ :: rest := by
  obtain ⟨htoken, rfl⟩ := returns_accept.mp h
  exact exists_cons_of_ahead (of_decide_eq_true htoken.symm) hend

theorem exists_cons_of_skip {α : Type} {s rest : List Located} {token : Token} {k : Reader α}
    {a : α} (h : Returns (skip >>= fun _ => k) s a rest) (htoken : (ahead s).token = token)
    (hend : token ≠ .endOfInput) : ∃ p m, s = ⟨token, p⟩ :: m ∧ Returns k m a rest := by
  obtain ⟨u, m, hskip, hk⟩ := returns_bind.mp h
  obtain rfl := returns_skip.mp hskip
  obtain ⟨p, hp⟩ := exists_cons_of_ahead htoken hend
  exact ⟨p, s.tail, hp, hk⟩

/-- A token that was not accepted is still there. -/
theorem eq_of_not_accept {s rest : List Located} {token : Token}
    (h : Returns (accept token) s false rest) : rest = s :=
  (returns_accept.mp h).2

/-! ## Lists of items -/

section Items

variable {α : Type} {Item : List Located → α → Prop} {separator : Token} {item : Reader α}
  {s rest : List Located}

/-- What may follow the first of some items: nothing, or a separator and more items. -/
def SeparatedTail (separator : Token) (Item : List Located → α → Prop) (s : List Located)
    (as : List α) : Prop :=
  (s = [] ∧ as = []) ∨ ∃ p u, s = ⟨separator, p⟩ :: u ∧ Separated separator Item u as

theorem SeparatedTail.cons {u : List Located} {a : α} {as : List α} (ha : Item s a)
    (h : SeparatedTail separator Item u as) : Separated separator Item (s ++ u) (a :: as) := by
  obtain ⟨rfl, rfl⟩ | ⟨p, u, rfl, h⟩ := h
  · rw [List.append_nil]
    exact .last ha
  · exact .more ha h

theorem took_of_moreItems (hseparator : separator ≠ .endOfInput)
    (hitem : ∀ {s a rest}, Returns item s a rest → Took Item s a rest) :
    ∀ (bound : List Located) {found as : List α} {s rest : List Located},
      Returns (moreItems separator item bound found) s as rest →
        ∃ more, as = found.reverse ++ more ∧ Took (SeparatedTail separator Item) s more rest
  | [], found, as, s, rest, h => by
    obtain ⟨rfl, rfl⟩ := returns_pure.mp h
    exact ⟨[], (List.append_nil _).symm, [], rfl, .inl ⟨rfl, rfl⟩⟩
  | _ :: bound, found, as, s, rest, h => by
    obtain ⟨taken, m, haccept, hif⟩ := returns_bind.mp h
    cases taken with
    | false =>
      obtain rfl := eq_of_not_accept haccept
      obtain ⟨rfl, rfl⟩ := returns_pure.mp hif
      exact ⟨[], (List.append_nil _).symm, [], rfl, .inl ⟨rfl, rfl⟩⟩
    | true =>
      obtain ⟨p, rfl⟩ := exists_cons_of_accept haccept hseparator
      obtain ⟨next, m₁, hnext, hmore⟩ := returns_bind.mp hif
      obtain ⟨used, rfl, hused⟩ := hitem hnext
      obtain ⟨more, rfl, used', rfl, htail⟩ := took_of_moreItems hseparator hitem bound hmore
      refine ⟨next :: more, by rw [List.reverse_cons, List.append_assoc, List.singleton_append], ?_⟩
      exact ⟨⟨separator, p⟩ :: (used ++ used'), by simp, .inr ⟨p, _, rfl, htail.cons hused⟩⟩

/-- Items between separators spell a list when each of them spells its element. -/
theorem took_of_separated (hseparator : separator ≠ .endOfInput)
    (hitem : ∀ {s a rest}, Returns item s a rest → Took Item s a rest) {as : List α}
    (h : Returns (separated separator item) s as rest) :
    Took (Separated separator Item) s as rest := by
  obtain ⟨first, m, hfirst, hmore⟩ := returns_bind.mp h
  obtain ⟨used, rfl, hused⟩ := hitem hfirst
  obtain ⟨more, rfl, used', rfl, htail⟩ :=
    took_of_moreItems hseparator hitem m (returns_get_bind.mp hmore)
  exact ⟨used ++ used', (List.append_assoc ..).symm, htail.cons hused⟩

theorem Separated.map {β : Type} {Item' : List Located → β → Prop} {f : α → β}
    (himp : ∀ {s a}, Item s a → Item' s (f a)) {as : List α} (h : Separated separator Item s as) :
    Separated separator Item' s (as.map f) := by
  induction h with
  | last ha => exact .last (himp ha)
  | more ha _ ih => exact .more (himp ha) ih

theorem Separated.exists_of_mem {as : List α} (h : Separated separator Item s as) {a : α}
    (ha : a ∈ as) : ∃ u, Item u a := by
  induction h with
  | last hitem =>
    obtain rfl := List.mem_singleton.mp ha
    exact ⟨_, hitem⟩
  | more hitem _ ih =>
    rcases List.mem_cons.mp ha with rfl | ha
    · exact ⟨_, hitem⟩
    · exact ih ha

end Items

/-! ## Arguments -/

section Arguments

variable {s rest : List Located}

/-- Digits stand there, or a point that is left. -/
theorem took_of_readWhole {whole : String} (h : Returns readWhole s whole rest) :
    (∃ p, s = ⟨.digits whole, p⟩ :: rest) ∨
      whole = "" ∧ rest = s ∧ (ahead s).token = .dot := by
  replace h := returns_current_bind.mp h
  split at h
  · rename_i run htoken
    obtain ⟨p, m, rfl, hpure⟩ := exists_cons_of_skip h htoken nofun
    obtain ⟨rfl, rfl⟩ := returns_pure.mp hpure
    exact .inl ⟨p, rfl⟩
  · rename_i htoken
    obtain ⟨rfl, rfl⟩ := returns_pure.mp h
    exact .inr ⟨rfl, rfl, htoken⟩
  · exact (not_returns_unexpected h).elim

/-- A point and digits stand there, or no point does. -/
theorem took_of_readFraction {fraction : Option String}
    (h : Returns readFraction s fraction rest) :
    (∃ p q run, s = ⟨.dot, p⟩ :: ⟨.digits run, q⟩ :: rest ∧ fraction = some run) ∨
      fraction = none ∧ rest = s ∧ (ahead s).token ≠ .dot := by
  obtain ⟨taken, m, hdot, hif⟩ := returns_bind.mp h
  cases taken with
  | false =>
    obtain ⟨hne, rfl⟩ := returns_accept.mp hdot
    obtain ⟨rfl, rfl⟩ := returns_pure.mp hif
    exact .inr ⟨rfl, rfl, of_decide_eq_false hne.symm⟩
  | true =>
    obtain ⟨p, rfl⟩ := exists_cons_of_accept hdot nofun
    replace hif := returns_current_bind.mp hif
    split at hif
    · rename_i run htoken
      obtain ⟨q, m₁, rfl, hpure⟩ := exists_cons_of_skip hif htoken nofun
      obtain ⟨rfl, rfl⟩ := returns_pure.mp hpure
      exact .inl ⟨p, q, run, rfl, rfl⟩
    · exact (not_returns_unexpected hif).elim

theorem took_of_readNumber {n : Number} (h : Returns readNumber s n rest) :
    Took SpellsNumber s n rest := by
  obtain ⟨negative, m, hminus, h⟩ := returns_bind.mp h
  obtain ⟨whole, m₁, hwhole, h⟩ := returns_bind.mp h
  obtain ⟨fraction, m₂, hfraction, hpure⟩ := returns_bind.mp h
  obtain ⟨rfl, rfl⟩ := returns_pure.mp hpure
  have magnitude : Took SpellsNumber m ⟨false, whole, fraction⟩ rest := by
    obtain ⟨p, rfl⟩ | ⟨rfl, rfl, hdot⟩ := took_of_readWhole hwhole
    · obtain ⟨q, r, run, rfl, rfl⟩ | ⟨rfl, rfl, -⟩ := took_of_readFraction hfraction
      · exact ⟨_, rfl, .decimal whole run⟩
      · exact ⟨_, rfl, .whole whole⟩
    · obtain ⟨q, r, run, rfl, rfl⟩ | ⟨-, -, hne⟩ := took_of_readFraction hfraction
      · exact ⟨_, rfl, .point run⟩
      · exact (hne hdot).elim
  cases negative with
  | false =>
    obtain rfl := eq_of_not_accept hminus
    exact magnitude
  | true =>
    obtain ⟨p, rfl⟩ := exists_cons_of_accept hminus nofun
    obtain ⟨used, rfl, hused⟩ := magnitude
    exact ⟨_, rfl, .negative hused⟩

/-- A quoted name or number, after its opening quote. -/
theorem took_of_readLiteral {p : Nat} {arg : Arg} (h : Returns readLiteral s arg rest) :
    Took SpellsArg (⟨.quote, p⟩ :: s) arg rest := by
  obtain ⟨text, m, htext, h⟩ := returns_bind.mp h
  obtain ⟨u, m₁, hquote, hpure⟩ := returns_bind.mp h
  obtain ⟨rfl, rfl⟩ := returns_pure.mp hpure
  obtain ⟨q, rfl⟩ := exists_cons_of_expect hquote nofun
  replace htext := returns_current_bind.mp htext
  have number : Returns (Number.text <$> readNumber) s text (⟨.quote, q⟩ :: rest) →
      Took SpellsArg (⟨.quote, p⟩ :: s) (.literal text) rest := by
    intro h
    obtain ⟨n, hn, rfl⟩ := returns_map.mp h
    obtain ⟨used, rfl, hused⟩ := took_of_readNumber hn
    exact ⟨⟨.quote, p⟩ :: (used ++ [⟨.quote, q⟩]), by simp, .quoted hused⟩
  split at htext
  · rename_i name htoken
    obtain ⟨r, m₁, rfl, hpure⟩ := exists_cons_of_skip htext htoken nofun
    obtain ⟨rfl, rfl⟩ := returns_pure.mp hpure
    exact ⟨_, rfl, .name name⟩
  · exact number htext
  · exact number htext
  · exact number htext
  · exact (not_returns_unexpected htext).elim

theorem took_of_readPlainArg {arg : Arg} (h : Returns readPlainArg s arg rest) :
    Took SpellsArg s arg rest := by
  replace h := returns_current_bind.mp h
  have number : Returns (Arg.number <$> readNumber) s arg rest → Took SpellsArg s arg rest := by
    intro h
    obtain ⟨n, hn, rfl⟩ := returns_map.mp h
    obtain ⟨used, hs, hused⟩ := took_of_readNumber hn
    exact ⟨used, hs, .number hused⟩
  -- a token that is an argument by itself
  have single : ∀ {token : Token} {a : Arg}, (ahead s).token = token → token ≠ .endOfInput →
      (∀ {p}, SpellsArg [⟨token, p⟩] a) → Returns (do skip; return a) s arg rest →
      Took SpellsArg s arg rest := by
    intro token a htoken hend hspells h
    obtain ⟨p, m, rfl, hpure⟩ := exists_cons_of_skip h htoken hend
    obtain ⟨rfl, rfl⟩ := returns_pure.mp hpure
    exact ⟨_, rfl, hspells⟩
  split at h
  · exact number h
  · exact number h
  · exact number h
  · rename_i name htoken
    exact single htoken nofun (.variable name) h
  · rename_i suffix htoken
    split at h
    · rename_i offset hoffset
      exact single htoken nofun (.continuation (continuationOffset_eq_ok_iff.mp hoffset)) h
    · exact (not_returns_throw h).elim
  · rename_i code htoken
    exact single htoken nofun (.python code) h
  · exact (not_returns_unexpected h).elim

/-- Arguments and the sign that closes them. -/
theorem took_of_readArgs {arg : Reader Arg} {closing : Token} {expected : Expected}
    {args : List Arg} (hclosing : closing ≠ .endOfInput)
    (harg : ∀ {s a rest}, Returns arg s a rest → Took SpellsArg s a rest)
    (h : Returns (readArgs arg closing expected) s args rest) :
    ∃ used p, s = used ++ ⟨closing, p⟩ :: rest ∧ SpellsArgs used args := by
  obtain ⟨located, m, hlocated, h⟩ := returns_bind.mp h
  obtain ⟨u, m₁, hclose, h⟩ := returns_bind.mp h
  obtain ⟨u', m₂, hcheck, hpure⟩ := returns_bind.mp h
  obtain ⟨rfl, rfl⟩ := returns_pure.mp hpure
  have hitems : Took (Separated .comma fun s a => SpellsArg s a.2) s located m := by
    refine took_of_separated (by nofun) (fun h => ?_) hlocated
    obtain ⟨a, m, ha, hpure⟩ := returns_bind.mp (returns_current_bind.mp h)
    obtain ⟨rfl, rfl⟩ := returns_pure.mp hpure
    exact harg ha
  obtain ⟨p, rfl⟩ := exists_cons_of_expect hclose hclosing
  obtain ⟨hok, rfl⟩ := returns_lift.mp hcheck
  obtain ⟨used, rfl, hused⟩ := hitems
  exact ⟨used, p, rfl, hused.map (f := Prod.snd) fun h => h, checkContinuation_zero_eq_ok_iff.mp hok⟩

theorem took_of_readArgWith {stateArgs : Nat → Reader (List Arg)} {arg : Arg}
    (hstate : ∀ {position s args rest}, Returns (stateArgs position) s args rest →
      ∃ used p, s = used ++ ⟨.closeParen, p⟩ :: rest ∧ SpellsArgs used args)
    (h : Returns (readArgWith stateArgs) s arg rest) : Took SpellsArg s arg rest := by
  replace h := returns_current_bind.mp h
  split at h
  · rename_i htoken
    obtain ⟨p, m, rfl, hliteral⟩ := exists_cons_of_skip h htoken nofun
    exact took_of_readLiteral hliteral
  · rename_i htoken
    obtain ⟨p, m, rfl, hmore⟩ := exists_cons_of_skip h htoken nofun
    obtain ⟨u, m₁, hopen, hmap⟩ := returns_bind.mp hmore
    obtain ⟨args, hargs, rfl⟩ := returns_map.mp hmap
    obtain ⟨q, rfl⟩ := exists_cons_of_expect hopen nofun
    obtain ⟨used, r, rfl, hseparated, hplaced⟩ := hstate hargs
    exact ⟨⟨.stateWord, p⟩ :: ⟨.openParen, q⟩ :: (used ++ [⟨.closeParen, r⟩]), by simp,
      .state hseparated hplaced⟩
  · exact took_of_readPlainArg h

theorem took_of_readArg {limit : Nat} (depth : Nat) :
    ∀ {s arg rest}, Returns (readArg limit depth) s arg rest → Took SpellsArg s arg rest := by
  induction depth with
  | zero =>
    intro s arg rest h
    exact took_of_readArgWith (fun h => (not_returns_throw h).elim) h
  | succ depth ih =>
    intro s arg rest h
    exact took_of_readArgWith (took_of_readArgs nofun ih) h

end Arguments

/-! ## Conditions -/

section Conditions

variable {limit depth : Nat} {s rest : List Located}

theorem took_of_readCallName {expected : Expected} {name : String}
    (h : Returns (readCallName expected) s name rest) :
    ∃ p q r, s = ⟨.openParen, p⟩ :: ⟨.ident name, q⟩ :: ⟨.closeParen, r⟩ :: rest := by
  obtain ⟨u, m, hopen, hname⟩ := returns_bind.mp h
  obtain ⟨p, rfl⟩ := exists_cons_of_expect hopen nofun
  replace hname := returns_current_bind.mp hname
  split at hname
  · rename_i name' htoken
    obtain ⟨q, m₁, rfl, hrest⟩ := exists_cons_of_skip hname htoken nofun
    obtain ⟨u', m₂, hclose, hpure⟩ := returns_bind.mp hrest
    obtain ⟨rfl, rfl⟩ := returns_pure.mp hpure
    obtain ⟨r, rfl⟩ := exists_cons_of_expect hclose nofun
    exact ⟨p, q, r, rfl⟩
  · exact (not_returns_unexpected hname).elim

theorem took_of_readOperand {operand : Operand}
    (h : Returns (readOperand limit depth) s operand rest) :
    Took SpellsOperand s operand rest := by
  replace h := returns_current_bind.mp h
  split at h
  · rename_i htoken
    obtain ⟨p, m, rfl, hcall⟩ := exists_cons_of_skip h htoken nofun
    obtain ⟨name, hname, rfl⟩ := returns_map.mp hcall
    obtain ⟨q, r, o, rfl⟩ := took_of_readCallName hname
    exact ⟨_, rfl, .all name⟩
  · rename_i htoken
    obtain ⟨p, m, rfl, hcall⟩ := exists_cons_of_skip h htoken nofun
    obtain ⟨name, hname, rfl⟩ := returns_map.mp hcall
    obtain ⟨q, r, o, rfl⟩ := took_of_readCallName hname
    exact ⟨_, rfl, .type name⟩
  · rename_i htoken
    obtain ⟨p, m, rfl, hlist⟩ := exists_cons_of_skip h htoken nofun
    cases depth with
    | zero => exact (not_returns_throw hlist).elim
    | succ depth =>
      obtain ⟨items, hitems, rfl⟩ := returns_map.mp hlist
      obtain ⟨taken, m₁, haccept, hif⟩ := returns_bind.mp hitems
      cases taken with
      | true =>
        obtain ⟨q, rfl⟩ := exists_cons_of_accept haccept nofun
        obtain ⟨rfl, rfl⟩ := returns_pure.mp hif
        exact ⟨_, rfl, .empty⟩
      | false =>
        obtain rfl := eq_of_not_accept haccept
        obtain ⟨used, q, rfl, hargs⟩ := took_of_readArgs (by nofun) (took_of_readArg depth) hif
        exact ⟨⟨.openBracket, p⟩ :: (used ++ [⟨.closeBracket, q⟩]), by simp, .list hargs⟩
  · obtain ⟨arg, m, harg, h⟩ := returns_bind.mp h
    obtain ⟨used, hs, hused⟩ := took_of_readArg depth harg
    split at h
    · obtain ⟨u, m₁, hthrow, -⟩ := returns_bind.mp h
      exact (not_returns_throw hthrow).elim
    · rename_i hplain
      obtain ⟨rfl, rfl⟩ := returns_pure.mp h
      exact ⟨used, hs, .value hused (Option.not_isSome_iff_eq_none.mp hplain)⟩

/-- An operand takes at least one token. -/
theorem exists_cons_of_readOperand {operand : Operand}
    (h : Returns (readOperand limit depth) s operand rest) :
    ∃ used, s = ahead s :: (used ++ rest) ∧ SpellsOperand (ahead s :: used) operand := by
  obtain ⟨used, rfl, hused⟩ := took_of_readOperand h
  cases used with
  | nil =>
    -- more than nothing is left out of the rest, which is all there is
    obtain ⟨hne, hsuffix⟩ := (fits_of_readOperand h).1
    have hlength := hsuffix.length_le
    have hpos := List.length_pos_iff.mpr hne
    rw [List.length_tail] at hlength
    simp only [List.nil_append] at hlength hpos
    omega
  | cons t used => exact ⟨used, rfl, hused⟩

theorem took_of_readPredicate {test : Predicate}
    (h : Returns (readPredicate limit depth) s test rest) :
    Took SpellsPredicate s test rest := by
  obtain ⟨left, m, hleft, h⟩ := returns_bind.mp (returns_current_bind.mp h)
  obtain ⟨used, hs, hspelled⟩ := exists_cons_of_readOperand hleft
  replace h := returns_current_bind.mp h
  split at h
  · rename_i op hop
    obtain ⟨p, m₁, rfl, hmore⟩ := exists_cons_of_skip h (Comparison.ofToken?_eq_some_iff.mp hop)
      (by cases op <;> nofun)
    obtain ⟨right, m₂, hright, hpure⟩ := returns_bind.mp hmore
    obtain ⟨rfl, rfl⟩ := returns_pure.mp hpure
    obtain ⟨used', rfl, hspelled'⟩ := took_of_readOperand hright
    refine ⟨ahead s :: (used ++ ⟨op.token, p⟩ :: used'), ?_, .compare op hspelled hspelled'⟩
    simpa using hs
  · obtain ⟨rfl, rfl⟩ := returns_pure.mp h
    exact ⟨ahead s :: used, hs, .bare hspelled⟩

/-- A group or a predicate, when what stands inside a group is read as a condition. -/
theorem took_of_readItem {inside : Nat → Reader Condition} {c : Condition}
    (hinside : ∀ {position s c rest}, Returns (inside position) s c rest →
      Took SpellsCondition s c rest)
    (h : Returns (readItem limit depth inside) s c rest) : Took SpellsItem s c rest := by
  obtain ⟨taken, m, haccept, h⟩ := returns_bind.mp (returns_current_bind.mp h)
  cases taken with
  | true =>
    obtain ⟨p, rfl⟩ := exists_cons_of_accept haccept nofun
    obtain ⟨inner, m₁, hinner, h⟩ := returns_bind.mp h
    obtain ⟨u, m₂, hclose, hpure⟩ := returns_bind.mp h
    obtain ⟨rfl, rfl⟩ := returns_pure.mp hpure
    obtain ⟨q, rfl⟩ := exists_cons_of_expect hclose nofun
    obtain ⟨used, rfl, hused⟩ := hinside hinner
    exact ⟨⟨.openParen, p⟩ :: (used ++ [⟨.closeParen, q⟩]), by simp, .group hused⟩
  | false =>
    obtain rfl := eq_of_not_accept haccept
    obtain ⟨test, m₁, htest, hpure⟩ := returns_bind.mp h
    obtain ⟨rfl, rfl⟩ := returns_pure.mp hpure
    obtain ⟨used, hm, hused⟩ := took_of_readPredicate htest
    exact ⟨used, hm, .test hused⟩

section Chains

variable {Item : List Located → Condition → Prop} {item : Reader Condition}

/-- The parts of a chain before its last one, from right to left, each with its connective. -/
inductive ChainedBefore (Item : List Located → Condition → Prop) :
    List Located → List (Condition × Connective) → Prop
  | nil : ChainedBefore Item [] []
  | cons {s u : List Located} {part : Condition} {before : List (Condition × Connective)} {p : Nat}
      (op : Connective) : ChainedBefore Item s before → Item u part →
      ChainedBefore Item (s ++ (u ++ [⟨op.token, p⟩])) ((part, op) :: before)

/-- Joining the parts before with what follows them. -/
theorem ChainedBefore.nestRight {u : List Located} {last : Condition}
    {before : List (Condition × Connective)} (h : ChainedBefore Item s before)
    (hlast : Chained Item u last) : Chained Item (s ++ u) (nestRight last before) := by
  induction h generalizing u last with
  | nil => exact hlast
  | @cons s u' part before p op _ hpart ih =>
    rw [List.append_assoc, List.append_assoc, List.singleton_append]
    exact ih (.more op hpart hlast)

theorem took_of_moreChain (hitem : ∀ {s c rest}, Returns item s c rest → Took Item s c rest) :
    ∀ (bound : List Located) {last c : Condition} {before : List (Condition × Connective)}
      {s u m rest : List Located}, ChainedBefore Item s before → Item u last →
      Returns (moreChain item bound last before) m c rest →
      Took (Chained Item) (s ++ (u ++ m)) c rest
  | [], last, c, before, s, u, m, rest, hbefore, hlast, h => by
    obtain ⟨rfl, rfl⟩ := returns_pure.mp h
    exact ⟨s ++ u, (List.append_assoc ..).symm, hbefore.nestRight (.last hlast)⟩
  | _ :: bound, last, c, before, s, u, m, rest, hbefore, hlast, h => by
    replace h := returns_current_bind.mp h
    split at h
    · -- a connective follows, so `last` joins the parts before and the next one becomes the last
      rename_i op hop
      obtain ⟨p, m₁, rfl, hpart⟩ := exists_cons_of_skip h (Connective.ofToken?_eq_some_iff.mp hop)
        (by cases op <;> nofun)
      obtain ⟨next, m₂, hnext, hmore⟩ := returns_bind.mp hpart
      obtain ⟨used, rfl, hused⟩ := hitem hnext
      have htook := took_of_moreChain hitem bound (.cons op hbefore hlast (p := p)) hused hmore
      simpa using htook
    · obtain ⟨rfl, rfl⟩ := returns_pure.mp h
      exact ⟨s ++ u, (List.append_assoc ..).symm, hbefore.nestRight (.last hlast)⟩

/-- Parts joined by connectives spell a chain when each of them spells its part. -/
theorem took_of_readChain {c : Condition}
    (hitem : ∀ {s c rest}, Returns item s c rest → Took Item s c rest)
    (h : Returns (readChain item) s c rest) : Took (Chained Item) s c rest := by
  obtain ⟨first, m, hfirst, hmore⟩ := returns_bind.mp h
  obtain ⟨used, rfl, hused⟩ := hitem hfirst
  exact took_of_moreChain hitem m .nil hused (returns_get_bind.mp hmore)

end Chains

theorem took_of_readCondition (depth : Nat) :
    ∀ {s c rest}, Returns (readCondition limit depth) s c rest →
      Took SpellsCondition s c rest := by
  induction depth with
  | zero =>
    intro s c rest h
    exact took_of_readChain (took_of_readItem fun h => (not_returns_throw h).elim) h
  | succ depth ih =>
    intro s c rest h
    exact took_of_readChain (took_of_readItem ih) h

end Conditions

/-! ## Programs -/

section Programs

variable {limit : Nat} {s rest : List Located}

theorem took_of_readAction {action : Action} (h : Returns (readAction limit) s action rest) :
    Took SpellsAction s action rest := by
  replace h := returns_current_bind.mp h
  split at h
  · rename_i name htoken
    obtain ⟨p, m, rfl, hmore⟩ := exists_cons_of_skip h htoken nofun
    obtain ⟨u, m₁, hopen, hmore⟩ := returns_bind.mp hmore
    obtain ⟨q, rfl⟩ := exists_cons_of_expect hopen nofun
    obtain ⟨taken, m₂, haccept, hif⟩ := returns_bind.mp hmore
    cases taken with
    | true =>
      obtain ⟨r, rfl⟩ := exists_cons_of_accept haccept nofun
      obtain ⟨rfl, rfl⟩ := returns_pure.mp hif
      exact ⟨_, rfl, .plain name⟩
    | false =>
      obtain rfl := eq_of_not_accept haccept
      obtain ⟨args, m₃, hargs, hpure⟩ := returns_bind.mp hif
      obtain ⟨rfl, rfl⟩ := returns_pure.mp hpure
      obtain ⟨used, r, rfl, hused⟩ :=
        took_of_readArgs (by nofun) (took_of_readArg limit) hargs
      exact ⟨⟨.ident name, p⟩ :: ⟨.openParen, q⟩ :: (used ++ [⟨.closeParen, r⟩]), by simp,
        .applied name hused⟩
  · exact (not_returns_unexpected h).elim

/-- The offset of an action is that of its first token. -/
theorem SpellsAction.position_eq {action : Action} (h : SpellsAction s action) :
    action.position = (ahead (s ++ rest)).position := by
  cases h with
  | plain name => rfl
  | applied name args => rfl

/-- There is a condition before a rule, or none. -/
theorem took_of_readGuard {condition : Option Condition}
    (h : Returns (readGuard limit) s condition rest) :
    condition = none ∧ rest = s ∨
      ∃ c used p q r o, condition = some c ∧ SpellsCondition used c ∧
        s = ⟨.ifWord, p⟩ :: ⟨.openParen, q⟩ ::
          (used ++ ⟨.closeParen, r⟩ :: ⟨.colon, o⟩ :: rest) := by
  obtain ⟨taken, m, haccept, hif⟩ := returns_bind.mp h
  cases taken with
  | true =>
    obtain ⟨u, m₁, hopen, h⟩ := returns_bind.mp hif
    obtain ⟨c, m₂, hc, h⟩ := returns_bind.mp h
    obtain ⟨u, m₃, hclose, h⟩ := returns_bind.mp h
    obtain ⟨u, m₄, hcolon, hpure⟩ := returns_bind.mp h
    obtain ⟨rfl, rfl⟩ := returns_pure.mp hpure
    obtain ⟨p, rfl⟩ := exists_cons_of_accept haccept nofun
    obtain ⟨q, rfl⟩ := exists_cons_of_expect hopen nofun
    obtain ⟨o, rfl⟩ := exists_cons_of_expect hcolon nofun
    obtain ⟨r, rfl⟩ := exists_cons_of_expect hclose nofun
    obtain ⟨used, rfl, hused⟩ := took_of_readCondition limit hc
    exact .inr ⟨c, used, p, q, r, o, rfl, hused, rfl⟩
  | false =>
    obtain rfl := eq_of_not_accept haccept
    obtain ⟨rfl, rfl⟩ := returns_pure.mp hif
    exact .inl ⟨rfl, rfl⟩

theorem took_of_readRule {rule : Rule} (h : Returns (readRule limit) s rule rest) :
    Took SpellsRule s rule rest := by
  obtain ⟨condition, m₁, hguard, h⟩ := returns_bind.mp (returns_current_bind.mp h)
  obtain ⟨intention, m₂, hintention, h⟩ := returns_bind.mp h
  obtain ⟨u, m₃, hcauses, h⟩ := returns_bind.mp h
  obtain ⟨effects, m₄, heffects, hpure⟩ := returns_bind.mp h
  obtain ⟨rfl, rfl⟩ := returns_pure.mp hpure
  obtain ⟨n, rfl⟩ := exists_cons_of_expect hcauses nofun
  obtain ⟨used, hm₁, hused⟩ := took_of_readAction hintention
  obtain ⟨used', rfl, hused'⟩ := took_of_separated (by nofun) took_of_readAction heffects
  obtain ⟨rfl, rfl⟩ | ⟨c, used'', p, q, r, o, rfl, hused'', rfl⟩ := took_of_readGuard hguard
  · -- without a condition the rule begins where its intention does
    refine ⟨used ++ ⟨.causes, n⟩ :: used', by rw [hm₁]; simp, ?_⟩
    rw [hm₁, ← hused.position_eq]
    exact .always hused hused'
  · refine ⟨⟨.ifWord, p⟩ :: ⟨.openParen, q⟩ :: (used'' ++ ⟨.closeParen, r⟩ :: ⟨.colon, o⟩ ::
      (used ++ ⟨.causes, n⟩ :: used')), by rw [hm₁]; simp, ?_⟩
    exact .guarded hused'' hused hused'

/-- The rules after the first, up to a closing brace. -/
theorem took_of_moreRules :
    ∀ (bound : List Located) {found rules : List Rule} {s rest : List Located},
      Returns (moreRules limit bound found) s rules rest →
        ∃ more used u, rules = found.reverse ++ more ∧ s = used ++ (u ++ rest) ∧
          SeparatedTail .semicolon SpellsRule used more ∧ TrailingSemicolon u
  | [], found, rules, s, rest, h => by
    obtain ⟨rfl, rfl⟩ := returns_pure.mp h
    exact ⟨[], [], [], (List.append_nil _).symm, rfl, .inl ⟨rfl, rfl⟩, .inl rfl⟩
  | _ :: bound, found, rules, s, rest, h => by
    obtain ⟨taken, m, haccept, hif⟩ := returns_bind.mp h
    cases taken with
    | false =>
      obtain rfl := eq_of_not_accept haccept
      obtain ⟨rfl, rfl⟩ := returns_pure.mp hif
      exact ⟨[], [], [], (List.append_nil _).symm, rfl, .inl ⟨rfl, rfl⟩, .inl rfl⟩
    | true =>
      obtain ⟨p, rfl⟩ := exists_cons_of_accept haccept nofun
      replace hif := returns_current_bind.mp hif
      split at hif
      · -- the semicolon is the last one
        obtain ⟨rfl, rfl⟩ := returns_pure.mp hif
        exact ⟨[], [], [⟨.semicolon, p⟩], (List.append_nil _).symm, rfl, .inl ⟨rfl, rfl⟩,
          .inr ⟨p, rfl⟩⟩
      · obtain ⟨rule, m₂, hrule, hmore⟩ := returns_bind.mp hif
        obtain ⟨used, rfl, hused⟩ := took_of_readRule hrule
        obtain ⟨more, used', u, rfl, rfl, htail, htrailing⟩ := took_of_moreRules bound hmore
        refine ⟨rule :: more, ⟨.semicolon, p⟩ :: (used ++ used'), u,
          by rw [List.reverse_cons, List.append_assoc, List.singleton_append], by simp, ?_,
          htrailing⟩
        exact .inr ⟨p, _, rfl, htail.cons hused⟩

/-- `RULES` and the rules between braces. -/
theorem took_of_readRules {rules : List Rule} (h : Returns (readRules limit) s rules rest) :
    ∃ used u p q r, s = ⟨.rulesWord, p⟩ :: ⟨.openBrace, q⟩ ::
        (used ++ (u ++ ⟨.closeBrace, r⟩ :: rest)) ∧
      Separated .semicolon SpellsRule used rules ∧ TrailingSemicolon u := by
  obtain ⟨v, m, hword, h⟩ := returns_bind.mp h
  obtain ⟨v, m₁, hopen, h⟩ := returns_bind.mp h
  replace h := returns_current_bind.mp h
  split at h
  · obtain ⟨v, m₂, hnone, -⟩ := returns_bind.mp h
    exact (not_returns_unexpected hnone).elim
  · obtain ⟨first, m₂, hfirst, hrest⟩ := returns_bind.mp h
    obtain ⟨found, m₃, hmore, hend⟩ := returns_bind.mp (returns_get_bind.mp hrest)
    obtain ⟨v, m₄, hclose, hpure⟩ := returns_bind.mp hend
    obtain ⟨rfl, rfl⟩ := returns_pure.mp hpure
    obtain ⟨p, rfl⟩ := exists_cons_of_expect hword nofun
    obtain ⟨q, rfl⟩ := exists_cons_of_expect hopen nofun
    obtain ⟨r, rfl⟩ := exists_cons_of_expect hclose nofun
    obtain ⟨used, rfl, hused⟩ := took_of_readRule hfirst
    obtain ⟨more, used', u, rfl, rfl, htail, htrailing⟩ := took_of_moreRules _ hmore
    exact ⟨used ++ used', u, p, q, r, by simp, htail.cons hused, htrailing⟩

/-- What follows a token is the end of the input when it begins with it. -/
theorem eq_end_of_append {used body : List Located} {t : Located} {e : Nat}
    (h : body ++ [⟨.endOfInput, e⟩] = used ++ t :: rest) (ht : t.token ≠ .endOfInput)
    (hbody : ∀ t ∈ body, t.token ≠ .endOfInput) (hrest : (ahead rest).token = .endOfInput) :
    rest = [⟨.endOfInput, e⟩] := by
  obtain rfl | ⟨init, last, rfl⟩ := List.eq_nil_or_concat rest
  · obtain ⟨-, hlast⟩ := List.append_inj' h rfl
    obtain rfl := List.singleton_inj.mp hlast
    exact (ht rfl).elim
  · rw [List.concat_eq_append, ← List.cons_append, ← List.append_assoc] at h
    obtain ⟨rfl, hlast⟩ := List.append_inj' h rfl
    cases init with
    | nil => exact hlast.symm
    | cons first init =>
      refine (hbody first ?_ hrest).elim
      exact List.mem_append_right _ (List.mem_cons_of_mem _ (List.mem_cons_self ..))

/-- **A program that was read is spelled by all tokens up to the end of the input.** -/
theorem spells_of_readProgram {program : Program} {body : List Located} {e : Nat}
    (hbody : ∀ t ∈ body, t.token ≠ .endOfInput)
    (h : Returns (readProgram limit) (body ++ [⟨.endOfInput, e⟩]) program rest) :
    SpellsProgram (body ++ [⟨.endOfInput, e⟩]) program := by
  obtain ⟨rules, m, hrules, hend⟩ := returns_bind.mp h
  have hif := returns_current_bind.mp hend
  split at hif
  · rename_i hahead
    obtain ⟨rfl, rfl⟩ := returns_pure.mp hif
    obtain ⟨used, u, p, q, r, htokens, hused, htrailing⟩ := took_of_readRules hrules
    have hsplit : body ++ [⟨.endOfInput, e⟩] =
        (⟨.rulesWord, p⟩ :: ⟨.openBrace, q⟩ :: (used ++ u)) ++ ⟨.closeBrace, r⟩ :: rest := by
      rw [htokens]
      simp
    rw [htokens, eq_end_of_append hsplit nofun hbody hahead]
    exact .rules hused htrailing
  · exact (not_returns_throw hif).elim

end Programs

/-! ## Texts -/

/-- The tokens of a text that was read spell the program, whatever the limits. -/
theorem Program.spells_of_read {limits : Limits} {text : String} {program : Program}
    (h : Program.read limits text = .ok program) :
    ∃ tokens, tokenize text = .ok tokens ∧ SpellsProgram tokens program := by
  unfold Program.read at h
  split at h
  · cases h
  · obtain ⟨tokens, htokens, hrun⟩ := bind_eq_ok.mp h
    obtain ⟨rest, hreturns⟩ := returns_of_run' hrun
    obtain ⟨body, e, rfl, hbody, -⟩ := tokenize_ends htokens
    exact ⟨_, htokens, spells_of_readProgram hbody hreturns⟩

/-- Continuations are placed well in the intention and the effects of a rule. -/
structure Rule.Placed (rule : Rule) : Prop where
  intention : ContinuationsPlaced rule.intention.args
  effects : ∀ effect ∈ rule.effects, ContinuationsPlaced effect.args

theorem SpellsAction.placed {s : List Located} {action : Action} (h : SpellsAction s action) :
    ContinuationsPlaced action.args := by
  cases h with
  | plain => exact nofun
  | applied _ h => exact h.2

theorem SpellsRule.placed {s : List Located} {rule : Rule} (h : SpellsRule s rule) :
    rule.Placed := by
  have all : ∀ {u effects}, Separated .comma SpellsAction u effects →
      ∀ effect ∈ effects, ContinuationsPlaced effect.args := by
    intro u effects heffects effect heffect
    obtain ⟨_, h⟩ := heffects.exists_of_mem heffect
    exact h.placed
  cases h with
  | always hintention heffects => exact ⟨hintention.placed, all heffects⟩
  | guarded _ hintention heffects => exact ⟨hintention.placed, all heffects⟩

/-- **In the rules of a text continuations are placed well.** -/
theorem Program.placed_of_read {limits : Limits} {text : String} {program : Program}
    (h : Program.read limits text = .ok program) {rule : Rule} (hrule : rule ∈ program.rules) :
    rule.Placed := by
  obtain ⟨tokens, -, hspells⟩ := Program.spells_of_read h
  cases hspells with
  | rules hrules _ =>
    obtain ⟨_, h⟩ := hrules.exists_of_mem hrule
    exact h.placed

end CausalRules
