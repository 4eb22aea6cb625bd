import CausalRules.Proofs.Layout
import CausalRules.Proofs.Reading.Steps
import CausalRules.Proofs.Reading.Tokens
import CausalRules.Rule.Read

/-!
# Reading does not depend on layout

A reader looks at tokens; it hands on their offsets but never compares them. So on two lists of the
same tokens it takes the same steps, and what it returns differs in offsets only.

- `Aligned`: lists of the same tokens at corresponding offsets, up to the end of the input.
- `Agree`: two readers, on two lists, have corresponding outcomes and leave aligned lists. There is
  one rule for each step of a reader, and then one lemma for each reader.
- `Program.read_alike`: two texts with the same tokens are read alike.
-/

namespace CausalRules

open Reader

namespace Reader

variable {R : Nat → Nat → Prop} {α β γ δ : Type} {A : α → β → Prop} {B : γ → δ → Prop}
  {s s' : List Located}

/-! ## Aligned lists -/

variable (R) in
/-- The same tokens at corresponding offsets, of which the last one is the end of the input. -/
inductive Aligned : List Located → List Located → Prop
  | last {p p' : Nat} (h : R p p') : Aligned [⟨.endOfInput, p⟩] [⟨.endOfInput, p'⟩]
  | cons (token : Token) {p p' : Nat} {s s' : List Located} (h : R p p') (rest : Aligned s s') :
      Aligned (⟨token, p⟩ :: s) (⟨token, p'⟩ :: s')

namespace Aligned

theorem ahead (h : Aligned R s s') : (ahead s).Alike R (ahead s') := by
  cases h with
  | last h => exact ⟨rfl, h⟩
  | cons token h => exact ⟨rfl, h⟩

theorem tail (h : Aligned R s s') (hmore : (Reader.ahead s).token ≠ .endOfInput) :
    Aligned R s.tail s'.tail := by
  cases h with
  | last => exact (hmore rfl).elim
  | cons token _ rest => exact rest

theorem length (h : Aligned R s s') : s.length = s'.length := by
  induction h with
  | last => rfl
  | cons token _ _ ih => exact congrArg (· + 1) ih

end Aligned

/-! ## Steps -/

variable (R) in
/-- Two readers, each on its own list, have corresponding outcomes. If they succeed, the tokens left
are aligned. -/
def Agree (A : α → β → Prop) (r : Reader α) (r' : Reader β) (s s' : List Located) : Prop :=
  Matches (ReadError.Alike R) (fun x y => A x.1 y.1 ∧ Aligned R x.2 y.2) (r.run s) (r'.run s')

section Steps

variable {r : Reader α} {r' : Reader β}

theorem agree_pure {a : α} {b : β} (hab : A a b) (h : Aligned R s s') :
    Agree R A (pure a) (pure b) s s' :=
  .ok ⟨hab, h⟩

theorem agree_throw {e e' : ReadError} (h : e.Alike R e') :
    Agree R A (throw e) (throw e') s s' :=
  .error h

theorem agree_bind {k : α → Reader γ} {k' : β → Reader δ} (h : Agree R A r r' s s')
    (hk : ∀ a b t t', A a b → Aligned R t t' → Agree R B (k a) (k' b) t t') :
    Agree R B (r >>= k) (r' >>= k') s s' :=
  Matches.bind h fun x y hxy => hk x.1 y.1 x.2 y.2 hxy.1 hxy.2

/-- A value without offsets is the same for what follows. -/
theorem agree_bind_eq {r r' : Reader α} {k : α → Reader γ} {k' : α → Reader δ}
    (h : Agree R Eq r r' s s')
    (hk : ∀ a t t', Aligned R t t' → Agree R B (k a) (k' a) t t') :
    Agree R B (r >>= k) (r' >>= k') s s' := by
  refine agree_bind h ?_
  rintro a _ t t' rfl ht
  exact hk a t t' ht

theorem agree_map {f : α → γ} {g : β → δ} (h : Agree R A r r' s s')
    (hf : ∀ a b, A a b → B (f a) (g b)) : Agree R B (f <$> r) (g <$> r') s s' := by
  rw [map_eq_pure_bind, map_eq_pure_bind]
  exact agree_bind h fun a b t t' hab ht => agree_pure (hf a b hab) ht

theorem agree_map_eq {r r' : Reader α} (f : α → γ) (h : Agree R Eq r r' s s') :
    Agree R Eq (f <$> r) (f <$> r') s s' :=
  agree_map h fun _ _ => congrArg f

theorem agree_lift {x : Except ReadError α} {y : Except ReadError β}
    (h : Matches (ReadError.Alike R) A x y) (hs : Aligned R s s') :
    Agree R A (liftM x) (liftM y) s s' := by
  cases h with
  | ok h => exact .ok ⟨h, hs⟩
  | error h => exact .error h

/-- The tokens left may be handed on. -/
theorem agree_get {k : List Located → Reader γ} {k' : List Located → Reader δ}
    (h : Agree R B (k s) (k' s') s s') : Agree R B (get >>= k) (get >>= k') s s' :=
  h

/-- Looking at the first token shows the same token at corresponding offsets. -/
theorem agree_current {k : Located → Reader γ} {k' : Located → Reader δ} (h : Aligned R s s')
    (hk : ∀ token p p', (ahead s).token = token → R p p' →
      Agree R B (k ⟨token, p⟩) (k' ⟨token, p'⟩) s s') :
    Agree R B (current >>= k) (current >>= k') s s' := by
  have hahead : ahead s' = ⟨(ahead s).token, (ahead s').position⟩ := by
    rw [h.ahead.token]
  show Matches _ _ ((k (ahead s)).run s) ((k' (ahead s')).run s')
  rw [hahead]
  exact hk _ _ _ rfl h.ahead.position

theorem agree_skip {token : Token} (h : Aligned R s s') (hahead : (ahead s).token = token)
    (hmore : token ≠ .endOfInput) : Agree R Eq skip skip s s' :=
  .ok ⟨rfl, h.tail (hahead ▸ hmore)⟩

/-- The first token is passed over, and a value is returned. -/
theorem agree_take {token : Token} {a : α} {b : β} (h : Aligned R s s')
    (hahead : (ahead s).token = token) (hmore : token ≠ .endOfInput) (hab : A a b) :
    Agree R A (skip >>= fun _ => pure a) (skip >>= fun _ => pure b) s s' :=
  agree_bind_eq (agree_skip h hahead hmore) fun _ _ _ ht => agree_pure hab ht

theorem agree_unexpected {expected : Expected} (h : Aligned R s s') :
    Agree R A (unexpected expected) (unexpected expected) s s' :=
  agree_current h fun token _ _ _ hp => agree_throw (.unexpectedToken expected token.text hp)

theorem agree_accept {token : Token} (h : Aligned R s s') (hmore : token ≠ .endOfInput) :
    Agree R Eq (accept token) (accept token) s s' := by
  refine agree_current h fun first p p' hahead hp => ?_
  by_cases htoken : first = token
  · simp only [htoken, if_true]
    exact agree_take h (hahead.trans htoken) hmore rfl
  · simp only [htoken, if_false]
    exact agree_pure rfl h

theorem agree_expect {token : Token} {expected : Expected} (h : Aligned R s s')
    (hmore : token ≠ .endOfInput) :
    Agree R Eq (expect token expected) (expect token expected) s s' := by
  refine agree_bind_eq (agree_accept h hmore) fun taken t t' ht => ?_
  cases taken with
  | true => exact agree_pure rfl ht
  | false => exact agree_unexpected ht

/-- Items are read until a separator is missing, which is in both lists at the same place. -/
theorem agree_moreItems {separator : Token} (hmore : separator ≠ .endOfInput)
    (hitem : ∀ s s', Aligned R s s' → Agree R A r r' s s') {bound bound' : List Located}
    (hbound : bound.length = bound'.length) {found : List α} {found' : List β}
    (hfound : List.Forall₂ A found found') (h : Aligned R s s') :
    Agree R (List.Forall₂ A) (moreItems separator r bound found)
      (moreItems separator r' bound' found') s s' := by
  -- only the lengths of the bounds matter, so that both are used up at once
  induction bound generalizing bound' found found' s s' with
  | nil =>
    obtain rfl := List.length_eq_zero_iff.mp hbound.symm
    exact agree_pure (List.rel_reverse hfound) h
  | cons _ bound ih =>
    cases bound' with
    | nil => cases hbound
    | cons _ bound' =>
      refine agree_bind_eq (agree_accept h hmore) fun taken t t' ht => ?_
      cases taken with
      | false => exact agree_pure (List.rel_reverse hfound) ht
      | true =>
        refine agree_bind (hitem t t' ht) fun a b u u' hab hu => ?_
        exact ih (Nat.succ.inj hbound) (.cons hab hfound) hu

theorem agree_separated {separator : Token} (hmore : separator ≠ .endOfInput)
    (hitem : ∀ s s', Aligned R s s' → Agree R A r r' s s') (h : Aligned R s s') :
    Agree R (List.Forall₂ A) (separated separator r) (separated separator r') s s' :=
  agree_bind (hitem s s' h) fun _ _ _ _ hab ht =>
    agree_get (agree_moreItems hmore hitem ht.length (.cons hab .nil) ht)

end Steps

end Reader

variable {R : Nat → Nat → Prop} {s s' : List Located} {limit depth : Nat}

/-! ## Arguments -/

theorem agree_readWhole (h : Aligned R s s') : Agree R Eq readWhole readWhole s s' := by
  refine agree_current h fun token p p' hahead hp => ?_
  cases token with
  | digits run => exact agree_take h hahead nofun rfl
  | dot => exact agree_pure rfl h
  | _ => exact agree_unexpected h

theorem agree_readFraction (h : Aligned R s s') : Agree R Eq readFraction readFraction s s' := by
  refine agree_bind_eq (agree_accept h nofun) fun taken t t' ht => ?_
  cases taken with
  | false => exact agree_pure rfl ht
  | true =>
    refine agree_current ht fun token p p' hahead hp => ?_
    cases token with
    | digits run => exact agree_take ht hahead nofun rfl
    | _ => exact agree_unexpected ht

theorem agree_readNumber (h : Aligned R s s') : Agree R Eq readNumber readNumber s s' :=
  agree_bind_eq (agree_accept h nofun) fun _ _ _ h =>
    agree_bind_eq (agree_readWhole h) fun _ _ _ h =>
      agree_bind_eq (agree_readFraction h) fun _ _ _ h => agree_pure rfl h

theorem agree_readLiteral (h : Aligned R s s') : Agree R Eq readLiteral readLiteral s s' := by
  have hnumber := agree_map_eq Number.text (agree_readNumber h)
  have htext : Agree R Eq readLiteralText readLiteralText s s' := by
    refine agree_current h fun token p p' hahead hp => ?_
    cases token with
    | ident name => exact agree_take h hahead nofun rfl
    | digits | dot | minus => exact hnumber
    | _ => exact agree_unexpected h
  exact agree_bind_eq htext fun _ _ _ h =>
    agree_bind_eq (agree_expect h nofun) fun _ _ _ h => agree_pure rfl h

theorem agree_readPlainArg (h : Aligned R s s') : Agree R Eq readPlainArg readPlainArg s s' := by
  refine agree_current h fun token p p' hahead hp => ?_
  have hnumber := agree_map_eq Arg.number (agree_readNumber h)
  cases token with
  | digits | dot | minus => exact hnumber
  | ident name => exact agree_take h hahead nofun rfl
  | python code => exact agree_take h hahead nofun rfl
  | continuation suffix =>
    dsimp only
    cases continuationOffset suffix with
    | ok offset => exact agree_take h hahead nofun rfl
    | error fault => exact agree_throw (.invalidContinuation fault hp)
  | _ => exact agree_unexpected h

/-- The same argument, at corresponding offsets. -/
def ArgAlike (R : Nat → Nat → Prop) (x y : Nat × Arg) : Prop :=
  R x.1 y.1 ∧ x.2 = y.2

theorem matches_checkContinuation {before : Nat} {args args' : List (Nat × Arg)}
    (h : List.Forall₂ (ArgAlike R) args args') :
    Matches (ReadError.Alike R) Eq (checkContinuation before args)
      (checkContinuation before args') := by
  induction h generalizing before with
  | nil => exact .ok rfl
  | @cons x y rest rest' hxy hrest ih =>
    obtain ⟨p, arg⟩ := x
    obtain ⟨p', arg'⟩ := y
    obtain ⟨hp, rfl⟩ := hxy
    cases arg with
    | continuation offset =>
      rw [checkContinuation, checkContinuation]
      have hempty : rest.isEmpty = rest'.isEmpty := by
        cases hrest <;> rfl
      rw [hempty]
      split
      · exact .error (.invalidContinuation _ hp)
      · split
        · exact .error (.invalidContinuation _ hp)
        · exact .ok rfl
    | _ => exact ih

theorem agree_readArgs {arg arg' : Reader Arg} {closing : Token} {expected : Expected}
    (hclosing : closing ≠ .endOfInput)
    (harg : ∀ s s', Aligned R s s' → Agree R Eq arg arg' s s') (h : Aligned R s s') :
    Agree R Eq (readArgs arg closing expected) (readArgs arg' closing expected) s s' := by
  refine agree_bind (agree_separated (A := ArgAlike R) nofun (fun s s' h => ?_) h)
    fun args args' s s' hargs h => ?_
  · exact agree_current h fun _ _ _ _ hp =>
      agree_bind_eq (harg s s' h) fun _ _ _ h => agree_pure ⟨hp, rfl⟩ h
  · refine agree_bind_eq (agree_expect h hclosing) fun _ s s' h => ?_
    refine agree_bind_eq (agree_lift (matches_checkContinuation hargs) h) fun _ s s' h => ?_
    exact agree_pure (map_eq_of_forall₂ hargs fun _ _ hxy => hxy.2) h

theorem agree_readArgWith {stateArgs stateArgs' : Nat → Reader (List Arg)}
    (hargs : ∀ p p' s s', R p p' → Aligned R s s' →
      Agree R Eq (stateArgs p) (stateArgs' p') s s') (h : Aligned R s s') :
    Agree R Eq (readArgWith stateArgs) (readArgWith stateArgs') s s' := by
  refine agree_current h fun token p p' hahead hp => ?_
  cases token with
  | quote => exact agree_bind_eq (agree_skip h hahead nofun) fun _ _ _ h => agree_readLiteral h
  | stateWord =>
    exact agree_bind_eq (agree_skip h hahead nofun) fun _ _ _ h =>
      agree_bind_eq (agree_expect h nofun) fun _ s s' h =>
        agree_map_eq Arg.state (hargs p p' s s' hp h)
  | _ => exact agree_readPlainArg h

theorem agree_readArg (h : Aligned R s s') :
    Agree R Eq (readArg limit depth) (readArg limit depth) s s' := by
  induction depth generalizing s s' with
  | zero => exact agree_readArgWith (fun _ _ _ _ hp _ => agree_throw (.nestingTooDeep limit hp)) h
  | succ depth ih =>
    exact agree_readArgWith (fun _ _ _ _ _ h => agree_readArgs nofun (fun _ _ => ih) h) h

theorem agree_readAction (h : Aligned R s s') :
    Agree R (Action.Alike R) (readAction limit) (readAction limit) s s' := by
  refine agree_current h fun token p p' hahead hp => ?_
  cases token with
  | ident name =>
    refine agree_bind_eq (agree_skip h hahead nofun) fun _ s s' h => ?_
    refine agree_bind_eq (agree_expect h nofun) fun _ s s' h => ?_
    refine agree_bind_eq (agree_accept h nofun) fun taken s s' h => ?_
    cases taken with
    | true => exact agree_pure ⟨rfl, rfl, hp⟩ h
    | false =>
      exact agree_bind_eq (agree_readArgs nofun (fun _ _ => agree_readArg) h) fun _ _ _ h =>
        agree_pure ⟨rfl, rfl, hp⟩ h
  | _ => exact agree_unexpected h

/-! ## Conditions -/

theorem agree_readCallName {expected : Expected} (h : Aligned R s s') :
    Agree R Eq (readCallName expected) (readCallName expected) s s' := by
  refine agree_bind_eq (agree_expect h nofun) fun _ s s' h => ?_
  refine agree_current h fun token p p' hahead hp => ?_
  cases token with
  | ident name =>
    exact agree_bind_eq (agree_skip h hahead nofun) fun _ _ _ h =>
      agree_bind_eq (agree_expect h nofun) fun _ _ _ h => agree_pure rfl h
  | _ => exact agree_unexpected h

theorem agree_readListItems {arg : Reader Arg}
    (harg : ∀ s s', Aligned R s s' → Agree R Eq arg arg s s') (h : Aligned R s s') :
    Agree R Eq (readListItems arg) (readListItems arg) s s' := by
  refine agree_bind_eq (agree_accept h nofun) fun taken s s' h => ?_
  cases taken with
  | true => exact agree_pure rfl h
  | false => exact agree_readArgs nofun harg h

theorem agree_readOperand (h : Aligned R s s') :
    Agree R Eq (readOperand limit depth) (readOperand limit depth) s s' := by
  refine agree_current h fun token p p' hahead hp => ?_
  -- what no other operand begins with is read as an argument
  have hvalue : Agree R Eq
      (readArg limit depth >>= fun arg => do
        if arg.continuation?.isSome then throw (.invalidContinuation .outsideList p)
        return Operand.value arg)
      (readArg limit depth >>= fun arg => do
        if arg.continuation?.isSome then throw (.invalidContinuation .outsideList p')
        return Operand.value arg) s s' := by
    refine agree_bind_eq (agree_readArg h) fun arg s s' h => ?_
    split
    · exact agree_throw (.invalidContinuation _ hp)
    · exact agree_pure rfl h
  cases token with
  | allWord =>
    exact agree_bind_eq (agree_skip h hahead nofun) fun _ _ _ h =>
      agree_map_eq Operand.all (agree_readCallName h)
  | typeWord =>
    exact agree_bind_eq (agree_skip h hahead nofun) fun _ _ _ h =>
      agree_map_eq Operand.type (agree_readCallName h)
  | openBracket =>
    refine agree_bind_eq (agree_skip h hahead nofun) fun _ _ _ h => ?_
    cases depth with
    | zero => exact agree_throw (.nestingTooDeep limit hp)
    | succ depth =>
      exact agree_map_eq Operand.list (agree_readListItems (fun _ _ => agree_readArg) h)
  | _ => exact hvalue

theorem agree_readPredicate (h : Aligned R s s') :
    Agree R (Predicate.Alike R) (readPredicate limit depth) (readPredicate limit depth) s s' := by
  refine agree_current h fun _ p p' _ hp => ?_
  refine agree_bind_eq (agree_readOperand h) fun left s s' h => ?_
  refine agree_current h fun token _ _ hahead _ => ?_
  dsimp only
  cases hop : Comparison.ofToken? token with
  | none => exact agree_pure (.bare left hp) h
  | some op =>
    have hmore : token ≠ .endOfInput := by
      rintro rfl
      cases hop
    refine agree_bind_eq (agree_skip h hahead hmore) fun _ s s' h => ?_
    exact agree_bind_eq (agree_readOperand h) fun right _ _ h =>
      agree_pure (.compare left op right hp) h

/-- Parts of a chain with their connectives, from right to left. -/
def PartsAlike (R : Nat → Nat → Prop) :
    List (Condition × Connective) → List (Condition × Connective) → Prop :=
  List.Forall₂ fun x y => Condition.Alike R x.1 y.1 ∧ x.2 = y.2

theorem alike_nestRight {last last' : Condition} {before before' : List (Condition × Connective)}
    (hlast : Condition.Alike R last last') (hbefore : PartsAlike R before before') :
    Condition.Alike R (nestRight last before) (nestRight last' before') := by
  induction hbefore generalizing last last' with
  | nil => exact hlast
  | @cons x y _ _ hxy _ ih =>
    obtain ⟨part, op⟩ := x
    obtain ⟨part', op'⟩ := y
    obtain ⟨hpart, rfl⟩ := hxy
    exact ih (.chain op hpart hlast)

section Chain

variable {item item' : Reader Condition}
  (hitem : ∀ s s', Aligned R s s' → Agree R (Condition.Alike R) item item' s s')

include hitem

theorem agree_moreChain {bound bound' : List Located} (hbound : bound.length = bound'.length)
    {last last' : Condition} (hlast : Condition.Alike R last last')
    {before before' : List (Condition × Connective)} (hbefore : PartsAlike R before before')
    (h : Aligned R s s') :
    Agree R (Condition.Alike R) (moreChain item bound last before)
      (moreChain item' bound' last' before') s s' := by
  induction bound generalizing bound' last last' before before' s s' with
  | nil =>
    obtain rfl := List.length_eq_zero_iff.mp hbound.symm
    exact agree_pure (alike_nestRight hlast hbefore) h
  | cons _ bound ih =>
    cases bound' with
    | nil => cases hbound
    | cons _ bound' =>
      refine agree_current h fun token _ _ hahead _ => ?_
      dsimp only
      cases hop : Connective.ofToken? token with
      | none => exact agree_pure (alike_nestRight hlast hbefore) h
      | some op =>
        have hmore : token ≠ .endOfInput := by
          rintro rfl
          cases hop
        refine agree_bind_eq (agree_skip h hahead hmore) fun _ s s' h => ?_
        refine agree_bind (hitem s s' h) fun next next' s s' hnext h => ?_
        exact ih (Nat.succ.inj hbound) hnext (.cons ⟨hlast, rfl⟩ hbefore) h

theorem agree_readChain (h : Aligned R s s') :
    Agree R (Condition.Alike R) (readChain item) (readChain item') s s' :=
  agree_bind (hitem s s' h) fun _ _ _ _ hfirst h =>
    agree_get (agree_moreChain hitem h.length hfirst .nil h)

end Chain

theorem agree_readItem {inside inside' : Nat → Reader Condition}
    (hinside : ∀ p p' s s', R p p' → Aligned R s s' →
      Agree R (Condition.Alike R) (inside p) (inside' p') s s') (h : Aligned R s s') :
    Agree R (Condition.Alike R) (readItem limit depth inside) (readItem limit depth inside')
      s s' := by
  refine agree_current h fun _ p p' _ hp => ?_
  refine agree_bind_eq (agree_accept h nofun) fun taken s s' h => ?_
  cases taken with
  | true =>
    exact agree_bind (hinside p p' s s' hp h) fun _ _ _ _ hinner h =>
      agree_bind_eq (agree_expect h nofun) fun _ _ _ h => agree_pure (.group hinner) h
  | false =>
    exact agree_bind (agree_readPredicate h) fun _ _ _ _ hpredicate h =>
      agree_pure (.atom hpredicate) h

theorem agree_readCondition (h : Aligned R s s') :
    Agree R (Condition.Alike R) (readCondition limit depth) (readCondition limit depth) s s' := by
  induction depth generalizing s s' with
  | zero =>
    exact agree_readChain (fun _ _ => agree_readItem fun _ _ _ _ hp _ =>
      agree_throw (.nestingTooDeep limit hp)) h
  | succ depth ih =>
    exact agree_readChain (fun _ _ => agree_readItem fun _ _ _ _ _ h => ih h) h

/-! ## Rules -/

theorem agree_readGuard (h : Aligned R s s') :
    Agree R (Option.Rel (Condition.Alike R)) (readGuard limit) (readGuard limit) s s' := by
  refine agree_bind_eq (agree_accept h nofun) fun taken s s' h => ?_
  cases taken with
  | false => exact agree_pure .none h
  | true =>
    exact agree_bind_eq (agree_expect h nofun) fun _ _ _ h =>
      agree_bind (agree_readCondition h) fun _ _ _ _ hcondition h =>
        agree_bind_eq (agree_expect h nofun) fun _ _ _ h =>
          agree_bind_eq (agree_expect h nofun) fun _ _ _ h => agree_pure (.some hcondition) h

theorem agree_readRule (h : Aligned R s s') :
    Agree R (Rule.Alike R) (readRule limit) (readRule limit) s s' :=
  agree_current h fun _ _ _ _ hp =>
    agree_bind (agree_readGuard h) fun _ _ _ _ hcondition h =>
      agree_bind (agree_readAction h) fun _ _ _ _ hintention h =>
        agree_bind_eq (agree_expect h nofun) fun _ _ _ h =>
          agree_bind (agree_separated nofun (fun _ _ => agree_readAction) h)
            fun _ _ _ _ heffects h => agree_pure ⟨hcondition, hintention, heffects, hp⟩ h

theorem agree_moreRules {bound bound' : List Located} (hbound : bound.length = bound'.length)
    {found found' : List Rule} (hfound : List.Forall₂ (Rule.Alike R) found found')
    (h : Aligned R s s') :
    Agree R (List.Forall₂ (Rule.Alike R)) (moreRules limit bound found)
      (moreRules limit bound' found') s s' := by
  induction bound generalizing bound' found found' s s' with
  | nil =>
    obtain rfl := List.length_eq_zero_iff.mp hbound.symm
    exact agree_pure (List.rel_reverse hfound) h
  | cons _ bound ih =>
    cases bound' with
    | nil => cases hbound
    | cons _ bound' =>
      refine agree_bind_eq (agree_accept h nofun) fun taken s s' h => ?_
      cases taken with
      | false => exact agree_pure (List.rel_reverse hfound) h
      | true =>
        refine agree_current h fun token _ _ _ _ => ?_
        dsimp only
        split
        · exact agree_pure (List.rel_reverse hfound) h
        · refine agree_bind (agree_readRule h) fun rule rule' s s' hrule h => ?_
          exact ih (Nat.succ.inj hbound) (.cons hrule hfound) h

theorem agree_readRules (h : Aligned R s s') :
    Agree R (List.Forall₂ (Rule.Alike R)) (readRules limit) (readRules limit) s s' := by
  refine agree_bind_eq (agree_expect h nofun) fun _ s s' h => ?_
  refine agree_bind_eq (agree_expect h nofun) fun _ s s' h => ?_
  refine agree_current h fun token p p' _ _ => ?_
  dsimp only
  split
  · -- both fail here, so nothing is handed on to what follows
    exact agree_bind (A := fun _ _ => False) (agree_unexpected h) fun _ _ _ _ hfalse => hfalse.elim
  · refine agree_bind (agree_readRule h) fun first first' s s' hfirst h => agree_get ?_
    refine agree_bind (agree_moreRules h.length (.cons hfirst .nil) h) fun _ _ _ _ hrules h => ?_
    exact agree_bind_eq (agree_expect h nofun) fun _ _ _ h => agree_pure hrules h

theorem agree_readProgram (h : Aligned R s s') :
    Agree R (Program.Alike R) (readProgram limit) (readProgram limit) s s' := by
  refine agree_bind (agree_readRules h) fun rules rules' s s' hrules h => ?_
  refine agree_current h fun token p p' _ hp => ?_
  dsimp only
  split
  · exact agree_pure ⟨hrules⟩ h
  · exact agree_throw (.trailingInput hp)

/-! ## Texts -/

/-- The same tokens, at offsets of which each corresponds to that of the token with its number. -/
theorem forall₂_sameToken {tokens tokens' : List Located}
    (h : tokens.map Located.token = tokens'.map Located.token) :
    List.Forall₂ (Located.Alike (SameToken tokens tokens')) tokens tokens' := by
  have hlength : tokens.length = tokens'.length := by
    rw [← List.length_map Located.token, h, List.length_map]
  refine List.forall₂_iff_get.mpr ⟨hlength, fun n hn hn' => ⟨?_, n, _, _, ?_, ?_, rfl, rfl⟩⟩
  · have htoken := congrArg (·[n]?) h
    simpa [hn, hn'] using htoken
  · exact List.getElem?_eq_getElem hn
  · exact List.getElem?_eq_getElem hn'

/-- Lists of the same tokens are aligned when they end with the end of the input. -/
theorem aligned_of_forall₂ {body : List Located} {e : Nat}
    (h : List.Forall₂ (Located.Alike R) s s') (hends : s = body ++ [⟨.endOfInput, e⟩]) :
    Aligned R s s' := by
  induction body generalizing s s' with
  | nil =>
    obtain rfl := hends
    cases h with
    | @cons _ t' _ _ ht hrest =>
      cases hrest
      obtain ⟨token', p'⟩ := t'
      obtain rfl : Token.endOfInput = token' := ht.token
      exact .last ht.position
  | cons t body ih =>
    obtain rfl := hends
    cases h with
    | @cons _ t' _ _ ht hrest =>
      obtain ⟨token, p⟩ := t
      obtain ⟨token', p'⟩ := t'
      obtain rfl : token = token' := ht.token
      exact .cons token ht.position (ih hrest rfl)

/-- **Reading does not depend on layout.** Two texts that are small enough and have the same tokens
both spell a program, and the same one but for offsets, or both spell none, and for the same reason
at the same token. -/
theorem Program.read_alike {limits : Limits} {text text' : String}
    (hsize : text.utf8ByteSize ≤ limits.maxInputBytes)
    (hsize' : text'.utf8ByteSize ≤ limits.maxInputBytes) {tokens tokens' : List Located}
    (htokens : tokenize text = .ok tokens) (htokens' : tokenize text' = .ok tokens')
    (hsame : tokens.map Located.token = tokens'.map Located.token) :
    Matches (ReadError.Alike (SameToken tokens tokens'))
      (Program.Alike (SameToken tokens tokens')) (Program.read limits text)
      (Program.read limits text') := by
  obtain ⟨body, e, hends, -, -⟩ := tokenize_ends htokens
  have haligned := aligned_of_forall₂ (forall₂_sameToken hsame) hends
  rw [Program.read, Program.read, if_neg (Nat.not_lt.mpr hsize), if_neg (Nat.not_lt.mpr hsize'),
    htokens, htokens']
  exact Matches.map (agree_readProgram haligned) fun _ _ h => h.1

end CausalRules
