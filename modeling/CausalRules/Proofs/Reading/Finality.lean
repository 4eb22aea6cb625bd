import CausalRules.Proofs.Layout.Reading
import CausalRules.Proofs.Reading.Conditions
import CausalRules.Proofs.Reading.Limits
import CausalRules.Proofs.Rule

/-!
# Syntax errors are final

A reader looks at no token but the first one left. When it refuses that token, no token behind it was
looked at, and it refuses the token whatever comes after.

- `SyntaxFault`: why a token is refused, with the error that says so.
- `Fork`, `Beside`: two lists that share their tokens up to one of them, and how far a reader has come
  in them.
- `Foretells`: what a reader does with the first list it does with the second, until it has passed the
  last token that they share. There is one rule for each step of a reader, and then one lemma for each
  reader.
- `Program.read_final`: a token that is refused is refused in every text that begins like this one.
-/

namespace CausalRules

/-! ## Refused tokens -/

/-- Why a token is refused: another one is expected there, or none. -/
inductive SyntaxFault
  | unexpected (expected : Expected)
  | trailing

/-- The error that a token is refused with. -/
def SyntaxFault.error : SyntaxFault → Located → ReadError
  | .unexpected expected, t => .unexpectedToken expected t.token.text t.position
  | .trailing, t => .trailingInput t.position

/-- A token is refused. -/
def ReadError.IsSyntax : ReadError → Prop
  | .unexpectedToken .. | .trailingInput _ => True
  | _ => False

/-- If a token is refused, it is one of these. -/
def ReadError.StopsIn (tokens : List Located) (e : ReadError) : Prop :=
  e.IsSyntax → ∃ t ∈ tokens, ∃ fault : SyntaxFault, e = fault.error t

theorem SyntaxFault.isSyntax (fault : SyntaxFault) (t : Located) : (fault.error t).IsSyntax := by
  cases fault with
  | unexpected | trailing => trivial

theorem SyntaxFault.position_eq {fault fault' : SyntaxFault} {t t' : Located}
    (h : fault.error t = fault'.error t') : t.position = t'.position := by
  cases fault with
  | unexpected =>
    cases fault' with
    | unexpected => exact (ReadError.unexpectedToken.inj h).2.2
    | trailing => cases h
  | trailing =>
    cases fault' with
    | unexpected => cases h
    | trailing => exact ReadError.trailingInput.inj h

/-- At another offset, the same token is refused for the same reason. -/
theorem SyntaxFault.error_of_alike {R : Nat → Nat → Prop} {fault : SyntaxFault} {t : Located}
    {e : ReadError} (h : e.Alike R (fault.error t)) :
    ∃ p, R p t.position ∧ e = fault.error ⟨t.token, p⟩ := by
  cases fault with
  | unexpected =>
    cases h with
    | unexpectedToken _ _ hp => exact ⟨_, hp, rfl⟩
  | trailing =>
    cases h with
    | trailingInput hp => exact ⟨_, hp, rfl⟩

namespace Reader

/-! ## Lists that begin alike -/

/-- A token after which two lists go on, each in its own way. -/
structure Fork where
  last : Located
  rest : List Located
  other : List Located

/-- The last token is the end of the input. -/
def Ended (s : List Located) : Prop :=
  ∃ body e, s = body ++ [⟨.endOfInput, e⟩]

variable {fork : Fork} {s rest : List Located} {o : Option (List Located)} {α β : Type}

theorem Ended.tail (h : Ended s) (hmore : (ahead s).token ≠ .endOfInput) : Ended s.tail := by
  obtain ⟨body, e, rfl⟩ := h
  cases body with
  | nil => exact (hmore rfl).elim
  | cons first body => exact ⟨body, e, rfl⟩

theorem Ended.ahead_mem (h : Ended s) : ahead s ∈ s := by
  obtain ⟨body, e, rfl⟩ := h
  cases body with
  | nil | cons => exact List.mem_cons_self

variable (fork) in
/-- How far a reader has come. While the last token in common is left, the second list has the same
tokens up to it; once it is passed, the second list does not matter. -/
inductive Beside : List Located → Option (List Located) → Prop
  | shared (front : List Located) (h : Ended (fork.last :: fork.rest)) :
    Beside (front ++ fork.last :: fork.rest) (some (front ++ fork.last :: fork.other))
  | behind {s : List Located} (hs : s <:+ fork.rest) (h : Ended s) : Beside s none

theorem Beside.ahead {s' : List Located} (h : Beside fork s (some s')) :
    ahead s' = Reader.ahead s := by
  cases h with
  | shared front =>
    cases front with
    | nil | cons => rfl

theorem Beside.tail (h : Beside fork s o) (hmore : (Reader.ahead s).token ≠ .endOfInput) :
    (∃ s' ∈ o, Beside fork s.tail (some s'.tail)) ∨ Beside fork s.tail none := by
  cases h with
  | shared front h =>
    cases front with
    | nil => exact .inr (.behind List.suffix_rfl (h.tail hmore))
    | cons first front => exact .inl ⟨_, rfl, .shared front h⟩
  | behind hs h => exact .inr (.behind ((List.tail_suffix s).trans hs) (h.tail hmore))

/-! ## Steps -/

variable (fork) in
/-- What a reader does with the first list it does with the second, unless it passes the last token
that they share. Then it goes on, or stops, behind that token. -/
def Foretells (r : Reader α) (s : List Located) (o : Option (List Located)) : Prop :=
  match r.run s with
  | .ok (a, rest) =>
    (∃ s' ∈ o, ∃ rest', Returns r s' a rest' ∧ Beside fork rest (some rest')) ∨
      Beside fork rest none
  | .error e => (∃ s' ∈ o, r.run s' = .error e) ∨ e.StopsIn fork.rest

section Steps

variable {r : Reader α} {k : α → Reader β}

theorem foretells_pure {a : α} (h : Beside fork s o) : Foretells fork (pure a) s o := by
  cases o with
  | none => exact .inr h
  | some s' => exact .inl ⟨s', rfl, s', rfl, h⟩

/-- An error that refuses no token may come at any time. -/
theorem foretells_throw {e : ReadError} (he : ¬e.IsSyntax) :
    Foretells fork (throw e : Reader α) s o :=
  .inr fun h => (he h).elim

/-- The first token left is refused. -/
theorem foretells_refuse (fault : SyntaxFault) (h : Beside fork s o) :
    Foretells fork (throw (fault.error (ahead s)) : Reader α) s o := by
  cases h with
  | shared => exact .inl ⟨_, rfl, rfl⟩
  | behind hs h => exact .inr fun _ => ⟨_, hs.subset h.ahead_mem, fault, rfl⟩

theorem run_bind_of_returns {a : α} {m : List Located} (h : Returns r s a m) :
    (r >>= k).run s = (k a).run m := by
  show (r.run s >>= fun x => (k x.1).run x.2) = _
  rw [show r.run s = .ok (a, m) from h]
  rfl

theorem run_bind_of_error {e : ReadError} (h : r.run s = .error e) :
    (r >>= k).run s = .error e := by
  show (r.run s >>= fun x => (k x.1).run x.2) = _
  rw [h]
  rfl

theorem foretells_bind (h : Foretells fork r s o)
    (hk : ∀ a m o', Beside fork m o' → Foretells fork (k a) m o') :
    Foretells fork (r >>= k) s o := by
  unfold Foretells at h ⊢
  cases hr : r.run s with
  | error e =>
    rw [run_bind_of_error hr]
    rw [hr] at h
    refine h.imp_left ?_
    rintro ⟨s', hs', he⟩
    exact ⟨s', hs', run_bind_of_error he⟩
  | ok x =>
    obtain ⟨a, m⟩ := x
    rw [run_bind_of_returns hr]
    rw [hr] at h
    rcases h with ⟨s', hs', m', hreturns, hbeside⟩ | hbehind
    · -- the second list is read on where the first one is
      have hnext := hk a m (some m') hbeside
      unfold Foretells at hnext
      split at hnext
      · refine hnext.imp_left ?_
        rintro ⟨_, hm, rest', hreturns', hrest⟩
        obtain rfl := Option.mem_some_iff.mp hm
        exact ⟨s', hs', rest', returns_bind.mpr ⟨a, m', hreturns, hreturns'⟩, hrest⟩
      · refine hnext.imp_left ?_
        rintro ⟨_, hm, he⟩
        obtain rfl := Option.mem_some_iff.mp hm
        exact ⟨s', hs', (run_bind_of_returns hreturns).trans he⟩
    · have hnext := hk a m none hbehind
      unfold Foretells at hnext
      split at hnext
      · exact .inr (hnext.resolve_left fun ⟨_, hnone, _⟩ => nomatch hnone)
      · exact .inr (hnext.resolve_left fun ⟨_, hnone, _⟩ => nomatch hnone)

theorem foretells_map {f : α → β} (h : Foretells fork r s o) : Foretells fork (f <$> r) s o := by
  rw [map_eq_pure_bind]
  exact foretells_bind h fun _ _ _ h => foretells_pure h

theorem foretells_lift {x : Except ReadError α} (herror : ∀ e, x = .error e → ¬e.IsSyntax)
    (h : Beside fork s o) : Foretells fork (liftM x) s o := by
  cases x with
  | ok a => exact foretells_pure h
  | error e => exact foretells_throw (herror e rfl)

/-- A reader that does the same with both lists does what was foretold. -/
theorem Foretells.congr {r' : Reader α} (h : Foretells fork r s o) (hrun : r'.run s = r.run s)
    (hrun' : ∀ s' ∈ o, r'.run s' = r.run s') : Foretells fork r' s o := by
  unfold Foretells at h ⊢
  rw [hrun]
  split at h
  · refine h.imp_left ?_
    rintro ⟨s', hs', rest', hreturns, hrest⟩
    exact ⟨s', hs', rest', (hrun' s' hs').trans hreturns, hrest⟩
  · refine h.imp_left ?_
    rintro ⟨s', hs', he⟩
    exact ⟨s', hs', (hrun' s' hs').trans he⟩

/-- The first token left is the same in both lists. -/
theorem foretells_current {k : Located → Reader β} (h : Beside fork s o)
    (hk : ∀ token p, ahead s = ⟨token, p⟩ → Foretells fork (k ⟨token, p⟩) s o) :
    Foretells fork (current >>= k) s o := by
  have hnext : Foretells fork (k (ahead s)) s o := hk _ _ rfl
  refine hnext.congr rfl fun s' hs' => ?_
  obtain rfl := hs'
  show (k (ahead s')).run s' = _
  rw [h.ahead]

theorem foretells_skip {token : Token} {p : Nat} (h : Beside fork s o)
    (hahead : ahead s = ⟨token, p⟩) (hmore : token ≠ .endOfInput) :
    Foretells fork skip s o := by
  have htoken : (ahead s).token ≠ .endOfInput := by
    rw [hahead]
    exact hmore
  refine (h.tail htoken).imp_left ?_
  rintro ⟨s', hs', hrest⟩
  exact ⟨s', hs', _, rfl, hrest⟩

/-- The first token is passed over, and a value is returned. -/
theorem foretells_take {token : Token} {p : Nat} {a : α} (h : Beside fork s o)
    (hahead : ahead s = ⟨token, p⟩) (hmore : token ≠ .endOfInput) :
    Foretells fork (skip >>= fun _ => pure a) s o :=
  foretells_bind (foretells_skip h hahead hmore) fun _ _ _ h => foretells_pure h

theorem foretells_unexpected {expected : Expected} (h : Beside fork s o) :
    Foretells fork (unexpected expected : Reader α) s o := by
  refine foretells_current h fun token p hahead => ?_
  rw [← hahead]
  exact foretells_refuse (.unexpected expected) h

theorem foretells_accept {token : Token} (h : Beside fork s o) (hmore : token ≠ .endOfInput) :
    Foretells fork (accept token) s o := by
  refine foretells_current h fun first p hahead => ?_
  dsimp only
  split
  · rename_i htoken
    exact foretells_take h hahead (htoken ▸ hmore)
  · exact foretells_pure h

theorem foretells_expect {token : Token} {expected : Expected} (h : Beside fork s o)
    (hmore : token ≠ .endOfInput) : Foretells fork (expect token expected) s o := by
  refine foretells_bind (foretells_accept h hmore) fun taken _ _ h => ?_
  cases taken with
  | true => exact foretells_pure h
  | false => exact foretells_unexpected h

/-- The tokens left may be handed on if only it matters that there are no fewer of them. -/
theorem foretells_get {k : List Located → Reader β} (hk : ∀ bound, Foretells fork (k bound) s o)
    (hbound : ∀ s bound, s.length ≤ bound.length → (k bound).run s = (k s).run s) :
    Foretells fork (get >>= k) s o := by
  -- a bound that is long enough for both lists
  refine (hk (s ++ o.getD [])).congr (hbound s _ ?_).symm fun s' hs' => (hbound s' _ ?_).symm
  · rw [List.length_append]
    exact Nat.le_add_right _ _
  · rw [hs', List.length_append]
    exact Nat.le_add_left _ _

end Steps

/-! ## Repetitions -/

section Steps

variable {r : Reader α} {k k' : α → Reader β}

/-- Readers that go on in the same way do the same. -/
theorem run_bind_congr (h : ∀ a m, Returns r s a m → (k a).run m = (k' a).run m) :
    (r >>= k).run s = (r >>= k').run s := by
  cases hr : r.run s with
  | error e => rw [run_bind_of_error hr, run_bind_of_error hr]
  | ok x => rw [run_bind_of_returns hr, run_bind_of_returns hr, h x.1 x.2 hr]

theorem Passed.length_lt (h : Passed s rest) : rest.length < s.length := by
  have hlength := h.2.length_le
  have hpos := List.length_pos_iff.mpr h.1
  rw [List.length_tail] at hlength
  omega

/-- Without tokens nothing is accepted. -/
theorem returns_accept_nil {token : Token} (hmore : token ≠ .endOfInput) :
    Returns (accept token) [] false [] :=
  returns_accept.mpr ⟨(decide_eq_false fun h => hmore h.symm).symm, rfl⟩

end Steps

section Items

variable {separator : Token} {item : Reader α} (hmore : separator ≠ .endOfInput)

include hmore

theorem run_moreItems_nil (bound : List Located) (found : List α) :
    (moreItems separator item bound found).run [] = .ok (found.reverse, []) := by
  cases bound with
  | nil => rfl
  | cons =>
    rw [moreItems, run_bind_of_returns (returns_accept_nil hmore)]
    rfl

/-- A bound that is long enough does not matter. -/
theorem run_moreItems (hsuffix : ∀ {s a rest}, Returns item s a rest → rest <:+ s)
    {bound bound' : List Located} {found : List α} (h : s.length ≤ bound.length)
    (h' : s.length ≤ bound'.length) :
    (moreItems separator item bound found).run s =
      (moreItems separator item bound' found).run s := by
  induction bound generalizing bound' found s with
  | nil =>
    obtain rfl := List.length_eq_zero_iff.mp (Nat.le_zero.mp h)
    rw [run_moreItems_nil hmore, run_moreItems_nil hmore]
  | cons _ bound ih =>
    cases bound' with
    | nil =>
      obtain rfl := List.length_eq_zero_iff.mp (Nat.le_zero.mp h')
      rw [run_moreItems_nil hmore, run_moreItems_nil hmore]
    | cons _ bound' =>
      rw [moreItems, moreItems]
      refine run_bind_congr fun taken m haccept => ?_
      cases taken with
      | false => rfl
      | true =>
        refine run_bind_congr fun next m' hnext => ?_
        have hpassed := (passed_of_accept haccept hmore).trans (hsuffix hnext)
        have hlength := hpassed.length_lt
        rw [List.length_cons] at h h'
        exact ih (by omega) (by omega)

theorem foretells_moreItems (hitem : ∀ s o, Beside fork s o → Foretells fork item s o)
    {bound : List Located} {found : List α} (h : Beside fork s o) :
    Foretells fork (moreItems separator item bound found) s o := by
  induction bound generalizing found s o with
  | nil => exact foretells_pure h
  | cons _ bound ih =>
    refine foretells_bind (foretells_accept h hmore) fun taken s o h => ?_
    cases taken with
    | false => exact foretells_pure h
    | true => exact foretells_bind (hitem s o h) fun _ _ _ h => ih h

theorem foretells_separated (hitem : ∀ s o, Beside fork s o → Foretells fork item s o)
    (hsuffix : ∀ {s a rest}, Returns item s a rest → rest <:+ s) (h : Beside fork s o) :
    Foretells fork (separated separator item) s o :=
  foretells_bind (hitem s o h) fun _ _ _ h =>
    foretells_get (fun _ => foretells_moreItems hmore hitem h) fun _ _ hbound =>
      run_moreItems hmore hsuffix hbound Nat.le.refl

end Items

end Reader

open Reader

variable {fork : Fork} {s : List Located} {o : Option (List Located)} {limit depth : Nat}

/-! ## Arguments -/

theorem foretells_readWhole (h : Beside fork s o) : Foretells fork readWhole s o := by
  refine foretells_current h fun token p hahead => ?_
  cases token with
  | digits => exact foretells_take h hahead nofun
  | dot => exact foretells_pure h
  | _ => exact foretells_unexpected h

theorem foretells_readFraction (h : Beside fork s o) : Foretells fork readFraction s o := by
  refine foretells_bind (foretells_accept h nofun) fun taken _ _ h => ?_
  cases taken with
  | false => exact foretells_pure h
  | true =>
    refine foretells_current h fun token p hahead => ?_
    cases token with
    | digits => exact foretells_take h hahead nofun
    | _ => exact foretells_unexpected h

theorem foretells_readNumber (h : Beside fork s o) : Foretells fork readNumber s o :=
  foretells_bind (foretells_accept h nofun) fun _ _ _ h =>
    foretells_bind (foretells_readWhole h) fun _ _ _ h =>
      foretells_bind (foretells_readFraction h) fun _ _ _ h => foretells_pure h

theorem foretells_readLiteral (h : Beside fork s o) : Foretells fork readLiteral s o := by
  have hnumber := foretells_map (f := Number.text) (foretells_readNumber h)
  have htext : Foretells fork readLiteralText s o := by
    refine foretells_current h fun token p hahead => ?_
    cases token with
    | ident => exact foretells_take h hahead nofun
    | digits | dot | minus => exact hnumber
    | _ => exact foretells_unexpected h
  exact foretells_bind htext fun _ _ _ h =>
    foretells_bind (foretells_expect h nofun) fun _ _ _ h => foretells_pure h

theorem foretells_readPlainArg (h : Beside fork s o) : Foretells fork readPlainArg s o := by
  refine foretells_current h fun token p hahead => ?_
  have hnumber := foretells_map (f := Arg.number) (foretells_readNumber h)
  cases token with
  | digits | dot | minus => exact hnumber
  | ident | python => exact foretells_take h hahead nofun
  | continuation suffix =>
    dsimp only
    split
    · exact foretells_take h hahead nofun
    · exact foretells_throw id
  | _ => exact foretells_unexpected h

/-- A continuation that is refused is no token that is. -/
theorem not_isSyntax_of_checkContinuation {before : Nat} {args : List (Nat × Arg)} {e : ReadError}
    (h : checkContinuation before args = .error e) : ¬e.IsSyntax := by
  fun_induction checkContinuation before args with
  | case1 | case4 => cases h
  | case2 | case3 =>
    cases h
    exact id
  | case5 _ _ _ _ ih => exact ih h

section Args

variable {arg : Reader Arg} (harg : ∀ s o, Beside fork s o → Foretells fork arg s o)
  (hsuffix : ∀ {s a rest}, Returns arg s a rest → rest <:+ s)

include harg hsuffix

theorem foretells_readArgs {closing : Token} {expected : Expected} (hclosing : closing ≠ .endOfInput)
    (h : Beside fork s o) : Foretells fork (readArgs arg closing expected) s o := by
  refine foretells_bind (foretells_separated nofun (fun s o h => ?_) (fun h => ?_) h)
    fun args s o h => ?_
  · exact foretells_current h fun _ _ _ =>
      foretells_bind (harg s o h) fun _ _ _ h => foretells_pure h
  · obtain ⟨a, m, ha, hpure⟩ := returns_bind.mp (returns_current_bind.mp h)
    obtain ⟨-, rfl⟩ := returns_pure.mp hpure
    exact hsuffix ha
  · exact foretells_bind (foretells_expect h hclosing) fun _ _ _ h =>
      foretells_bind (foretells_lift (fun _ => not_isSyntax_of_checkContinuation) h)
        fun _ _ _ h => foretells_pure h

theorem foretells_readListItems (h : Beside fork s o) :
    Foretells fork (readListItems arg) s o := by
  refine foretells_bind (foretells_accept h nofun) fun taken _ _ h => ?_
  cases taken with
  | true => exact foretells_pure h
  | false => exact foretells_readArgs harg hsuffix nofun h

end Args

theorem foretells_readArgWith {stateArgs : Nat → Reader (List Arg)}
    (hargs : ∀ p s o, Beside fork s o → Foretells fork (stateArgs p) s o) (h : Beside fork s o) :
    Foretells fork (readArgWith stateArgs) s o := by
  refine foretells_current h fun token p hahead => ?_
  cases token with
  | quote =>
    exact foretells_bind (foretells_skip h hahead nofun) fun _ _ _ h => foretells_readLiteral h
  | stateWord =>
    exact foretells_bind (foretells_skip h hahead nofun) fun _ _ _ h =>
      foretells_bind (foretells_expect h nofun) fun _ _ _ h => foretells_map (hargs p _ _ h)
  | _ => exact foretells_readPlainArg h

theorem foretells_readArg (h : Beside fork s o) : Foretells fork (readArg limit depth) s o := by
  induction depth generalizing s o with
  | zero => exact foretells_readArgWith (fun _ _ _ _ => foretells_throw id) h
  | succ depth ih =>
    exact foretells_readArgWith (fun _ _ _ => foretells_readArgs (fun _ _ => ih)
      (fun h => (passed_of_readArg depth h).1.suffix) nofun) h

theorem foretells_readAction (h : Beside fork s o) : Foretells fork (readAction limit) s o := by
  refine foretells_current h fun token p hahead => ?_
  cases token with
  | ident =>
    refine foretells_bind (foretells_skip h hahead nofun) fun _ _ _ h => ?_
    refine foretells_bind (foretells_expect h nofun) fun _ _ _ h => ?_
    refine foretells_bind (foretells_accept h nofun) fun taken _ _ h => ?_
    cases taken with
    | true => exact foretells_pure h
    | false =>
      exact foretells_bind (foretells_readArgs (fun _ _ => foretells_readArg)
        (fun h => (passed_of_readArg limit h).1.suffix) nofun h) fun _ _ _ h => foretells_pure h
  | _ => exact foretells_unexpected h

/-! ## Conditions -/

theorem foretells_readCallName {expected : Expected} (h : Beside fork s o) :
    Foretells fork (readCallName expected) s o := by
  refine foretells_bind (foretells_expect h nofun) fun _ _ _ h => ?_
  refine foretells_current h fun token p hahead => ?_
  cases token with
  | ident =>
    exact foretells_bind (foretells_skip h hahead nofun) fun _ _ _ h =>
      foretells_bind (foretells_expect h nofun) fun _ _ _ h => foretells_pure h
  | _ => exact foretells_unexpected h

theorem foretells_readOperand (h : Beside fork s o) :
    Foretells fork (readOperand limit depth) s o := by
  refine foretells_current h fun token p hahead => ?_
  -- what no other operand begins with is read as an argument
  have hvalue : Foretells fork
      (readArg limit depth >>= fun arg => do
        if arg.continuation?.isSome then throw (.invalidContinuation .outsideList p)
        return Operand.value arg) s o := by
    refine foretells_bind (foretells_readArg h) fun arg _ _ h => ?_
    split
    · exact foretells_throw id
    · exact foretells_pure h
  cases token with
  | allWord | typeWord =>
    exact foretells_bind (foretells_skip h hahead nofun) fun _ _ _ h =>
      foretells_map (foretells_readCallName h)
  | openBracket =>
    refine foretells_bind (foretells_skip h hahead nofun) fun _ _ _ h => ?_
    cases depth with
    | zero => exact foretells_throw id
    | succ depth =>
      exact foretells_map (foretells_readListItems (fun _ _ => foretells_readArg)
        (fun h => (passed_of_readArg depth h).1.suffix) h)
  | _ => exact hvalue

theorem foretells_readPredicate (h : Beside fork s o) :
    Foretells fork (readPredicate limit depth) s o := by
  refine foretells_current h fun _ p _ => ?_
  refine foretells_bind (foretells_readOperand h) fun left _ _ h => ?_
  refine foretells_current h fun token _ hahead => ?_
  dsimp only
  cases hop : Comparison.ofToken? token with
  | none => exact foretells_pure h
  | some op =>
    have hmore : token ≠ .endOfInput := by
      rintro rfl
      cases hop
    exact foretells_bind (foretells_skip h hahead hmore) fun _ _ _ h =>
      foretells_bind (foretells_readOperand h) fun _ _ _ h => foretells_pure h

section Chain

variable {item : Reader Condition}

theorem run_moreChain_nil (bound : List Located) (last : Condition)
    (before : List (Condition × Connective)) :
    (moreChain item bound last before).run [] = .ok (nestRight last before, []) := by
  cases bound with
  | nil | cons => rfl

/-- A bound that is long enough does not matter. -/
theorem run_moreChain (hsuffix : ∀ {s c rest}, Returns item s c rest → rest <:+ s)
    {bound bound' : List Located} {last : Condition} {before : List (Condition × Connective)}
    (h : s.length ≤ bound.length) (h' : s.length ≤ bound'.length) :
    (moreChain item bound last before).run s = (moreChain item bound' last before).run s := by
  induction bound generalizing bound' last before s with
  | nil =>
    obtain rfl := List.length_eq_zero_iff.mp (Nat.le_zero.mp h)
    rw [run_moreChain_nil, run_moreChain_nil]
  | cons _ bound ih =>
    cases bound' with
    | nil =>
      obtain rfl := List.length_eq_zero_iff.mp (Nat.le_zero.mp h')
      rw [run_moreChain_nil, run_moreChain_nil]
    | cons _ bound' =>
      rw [moreChain, moreChain]
      refine run_bind_congr fun first m hcurrent => ?_
      obtain ⟨rfl, rfl⟩ := returns_current.mp hcurrent
      cases hop : Connective.ofToken? (ahead m).token with
      | none => rfl
      | some op =>
        have hmore : (ahead m).token ≠ .endOfInput := by
          intro hend
          rw [hend] at hop
          cases hop
        refine run_bind_congr fun _ m₁ hskip => run_bind_congr fun next m₂ hnext => ?_
        obtain rfl := returns_skip.mp hskip
        have hlength := ((passed_tail rfl hmore).trans (hsuffix hnext)).length_lt
        rw [List.length_cons] at h h'
        exact ih (by omega) (by omega)

theorem foretells_moreChain (hitem : ∀ s o, Beside fork s o → Foretells fork item s o)
    {bound : List Located} {last : Condition} {before : List (Condition × Connective)}
    (h : Beside fork s o) : Foretells fork (moreChain item bound last before) s o := by
  induction bound generalizing last before s o with
  | nil => exact foretells_pure h
  | cons _ bound ih =>
    refine foretells_current h fun token _ hahead => ?_
    dsimp only
    cases hop : Connective.ofToken? token with
    | none => exact foretells_pure h
    | some op =>
      have hmore : token ≠ .endOfInput := by
        rintro rfl
        cases hop
      exact foretells_bind (foretells_skip h hahead hmore) fun _ s o h =>
        foretells_bind (hitem s o h) fun _ _ _ h => ih h

theorem foretells_readChain (hitem : ∀ s o, Beside fork s o → Foretells fork item s o)
    (hsuffix : ∀ {s c rest}, Returns item s c rest → rest <:+ s) (h : Beside fork s o) :
    Foretells fork (readChain item) s o :=
  foretells_bind (hitem s o h) fun _ _ _ h =>
    foretells_get (fun _ => foretells_moreChain hitem h) fun _ _ hbound =>
      run_moreChain hsuffix hbound Nat.le.refl

end Chain

theorem foretells_readItem {inside : Nat → Reader Condition}
    (hinside : ∀ p s o, Beside fork s o → Foretells fork (inside p) s o) (h : Beside fork s o) :
    Foretells fork (readItem limit depth inside) s o := by
  refine foretells_current h fun _ p _ => ?_
  refine foretells_bind (foretells_accept h nofun) fun taken s o h => ?_
  cases taken with
  | true =>
    exact foretells_bind (hinside p s o h) fun _ _ _ h =>
      foretells_bind (foretells_expect h nofun) fun _ _ _ h => foretells_pure h
  | false => exact foretells_bind (foretells_readPredicate h) fun _ _ _ h => foretells_pure h

theorem foretells_readCondition (h : Beside fork s o) :
    Foretells fork (readCondition limit depth) s o := by
  induction depth generalizing s o with
  | zero =>
    exact foretells_readChain (fun _ _ => foretells_readItem fun _ _ _ _ => foretells_throw id)
      (fun h => (partFrom_of_readItem (fun h => (not_returns_throw h).elim) h).1.marks.suffix) h
  | succ depth ih =>
    exact foretells_readChain (fun _ _ => foretells_readItem fun _ _ _ h => ih h)
      (fun h => (partFrom_of_readItem (readFrom_of_readCondition depth) h).1.marks.suffix) h

/-! ## Rules -/

theorem foretells_readGuard (h : Beside fork s o) : Foretells fork (readGuard limit) s o := by
  refine foretells_bind (foretells_accept h nofun) fun taken _ _ h => ?_
  cases taken with
  | false => exact foretells_pure h
  | true =>
    exact foretells_bind (foretells_expect h nofun) fun _ _ _ h =>
      foretells_bind (foretells_readCondition h) fun _ _ _ h =>
        foretells_bind (foretells_expect h nofun) fun _ _ _ h =>
          foretells_bind (foretells_expect h nofun) fun _ _ _ h => foretells_pure h

theorem foretells_readRule (h : Beside fork s o) : Foretells fork (readRule limit) s o :=
  foretells_current h fun _ _ _ =>
    foretells_bind (foretells_readGuard h) fun _ _ _ h =>
      foretells_bind (foretells_readAction h) fun _ _ _ h =>
        foretells_bind (foretells_expect h nofun) fun _ _ _ h =>
          foretells_bind (foretells_separated nofun (fun _ _ => foretells_readAction)
            (fun h => (passed_of_readAction h).suffix) h) fun _ _ _ h => foretells_pure h

theorem run_moreRules_nil (bound : List Located) (found : List Rule) :
    (moreRules limit bound found).run [] = .ok (found.reverse, []) := by
  cases bound with
  | nil => rfl
  | cons =>
    rw [moreRules, run_bind_of_returns (@returns_accept_nil .semicolon (by decide))]
    rfl

/-- A bound that is long enough does not matter. -/
theorem run_moreRules {bound bound' : List Located} {found : List Rule}
    (h : s.length ≤ bound.length) (h' : s.length ≤ bound'.length) :
    (moreRules limit bound found).run s = (moreRules limit bound' found).run s := by
  induction bound generalizing bound' found s with
  | nil =>
    obtain rfl := List.length_eq_zero_iff.mp (Nat.le_zero.mp h)
    rw [run_moreRules_nil, run_moreRules_nil]
  | cons _ bound ih =>
    cases bound' with
    | nil =>
      obtain rfl := List.length_eq_zero_iff.mp (Nat.le_zero.mp h')
      rw [run_moreRules_nil, run_moreRules_nil]
    | cons _ bound' =>
      rw [moreRules, moreRules]
      refine run_bind_congr fun taken m haccept => ?_
      cases taken with
      | false => rfl
      | true =>
        refine run_bind_congr fun first m₁ hcurrent => ?_
        obtain ⟨-, rfl⟩ := returns_current.mp hcurrent
        split
        · rfl
        · refine run_bind_congr fun rule m₂ hrule => ?_
          have hpassed :=
            (passed_of_accept haccept (by decide)).trans (readWithin_of_readRule hrule).1
          have hlength := hpassed.length_lt
          rw [List.length_cons] at h h'
          exact ih (by omega) (by omega)

theorem foretells_moreRules {bound : List Located} {found : List Rule} (h : Beside fork s o) :
    Foretells fork (moreRules limit bound found) s o := by
  induction bound generalizing found s o with
  | nil => exact foretells_pure h
  | cons _ bound ih =>
    refine foretells_bind (foretells_accept h nofun) fun taken _ _ h => ?_
    cases taken with
    | false => exact foretells_pure h
    | true =>
      refine foretells_current h fun token _ _ => ?_
      dsimp only
      split
      · exact foretells_pure h
      · exact foretells_bind (foretells_readRule h) fun _ _ _ h => ih h

theorem foretells_readRules (h : Beside fork s o) : Foretells fork (readRules limit) s o := by
  refine foretells_bind (foretells_expect h nofun) fun _ _ _ h => ?_
  refine foretells_bind (foretells_expect h nofun) fun _ _ _ h => ?_
  refine foretells_current h fun token p _ => ?_
  have hrules : ∀ s o, Beside fork s o → Foretells fork (readRule limit >>= fun first => do
      let rules ← moreRules limit (← get) [first]
      expect .closeBrace .ruleEnd
      return rules) s o := by
    intro s o h
    refine foretells_bind (foretells_readRule h) fun first _ _ h => ?_
    refine foretells_get (fun _ => foretells_bind (foretells_moreRules h) fun _ _ _ h =>
      foretells_bind (foretells_expect h nofun) fun _ _ _ h => foretells_pure h) ?_
    intro s bound hbound
    show ((moreRules limit bound [first]).run s >>= _) =
      ((moreRules limit s [first]).run s >>= _)
    rw [run_moreRules hbound Nat.le.refl]
  dsimp only
  split
  · exact foretells_bind (foretells_unexpected h) fun _ s o h => hrules s o h
  · exact hrules _ _ h

theorem foretells_readProgram (h : Beside fork s o) :
    Foretells fork (readProgram limit) s o := by
  refine foretells_bind (foretells_readRules h) fun rules _ _ h => ?_
  refine foretells_current h fun token p hahead => ?_
  dsimp only
  split
  · exact foretells_pure h
  · have hrefuse : Foretells fork (throw (SyntaxFault.trailing.error _) : Reader Program) _ _ :=
      foretells_refuse .trailing h
    rw [hahead] at hrefuse
    exact hrefuse

/-! ## Texts -/

theorem ended_of_tokenize {text : String} {tokens : List Located}
    (h : tokenize text = .ok tokens) : Ended tokens := by
  obtain ⟨body, e, htokens, -, -⟩ := tokenize_ends h
  exact ⟨body, e, htokens⟩

theorem Reader.Ended.of_append {front : List Located} (h : Ended (front ++ s)) (hs : s ≠ []) :
    Ended s := by
  obtain ⟨body, e, hbody⟩ := h
  obtain rfl | ⟨init, last, rfl⟩ := List.eq_nil_or_concat s
  · exact (hs rfl).elim
  · rw [List.concat_eq_append, ← List.append_assoc] at hbody
    obtain ⟨-, hlast⟩ := List.append_inj' hbody rfl
    rw [List.concat_eq_append, hlast]
    exact ⟨init, e, rfl⟩

/-- The same tokens in the same order, at offsets that correspond whatever they are. -/
theorem forall₂_alike {R : Nat → Nat → Prop} {s s' : List Located}
    (h : s.map Located.token = s'.map Located.token)
    (hpositions : ∀ x ∈ s, ∀ y ∈ s', R x.position y.position) :
    List.Forall₂ (Located.Alike R) s s' := by
  induction s generalizing s' with
  | nil =>
    obtain rfl := List.map_eq_nil_iff.mp h.symm
    exact .nil
  | cons x s ih =>
    obtain ⟨y, s', rfl, hxy, hs⟩ := List.map_eq_cons_iff.mp h.symm
    refine .cons ⟨hxy.symm, hpositions x List.mem_cons_self y List.mem_cons_self⟩ (ih hs.symm ?_)
    exact fun a ha b hb =>
      hpositions a (List.mem_cons_of_mem x ha) b (List.mem_cons_of_mem y hb)

section Texts

variable {limits : Limits} {text text' : String} {tokens tokens' : List Located} {k : Nat}
  {t : Located} {fault : SyntaxFault}

/-- A text with tokens of which one is refused was read, so it is small enough. -/
theorem run_of_read_error {e : ReadError} (htokens : tokenize text = .ok tokens)
    (he : e.IsSyntax) (h : Program.read limits text = .error e) :
    (readProgram limits.maxNesting).run tokens = .error e := by
  by_cases hsize : text.utf8ByteSize ≤ limits.maxInputBytes
  · rw [read_eq_of_tokenize hsize htokens] at h
    cases hrun : (readProgram limits.maxNesting).run tokens with
    | ok x =>
      rw [hrun] at h
      cases h
    | error e' =>
      rw [hrun] at h
      exact congrArg _ (Except.error.inj h)
  · rw [read_of_large (Nat.lt_of_not_le hsize)] at h
    cases h
    exact he.elim

/-- What is refused is a token of the text. -/
theorem exists_refused {e : ReadError} (htokens : tokenize text = .ok tokens) (he : e.IsSyntax)
    (h : Program.read limits text = .error e) :
    ∃ (k : Nat) (t : Located) (fault : SyntaxFault), tokens[k]? = some t ∧ e = fault.error t := by
  -- a list that is behind a token from the start
  have hbehind : Beside ⟨⟨.endOfInput, 0⟩, tokens, []⟩ tokens none :=
    .behind List.suffix_rfl (ended_of_tokenize htokens)
  have hforetells := @foretells_readProgram _ _ _ limits.maxNesting hbehind
  unfold Foretells at hforetells
  rw [run_of_read_error htokens he h] at hforetells
  obtain ⟨t, ht, fault, rfl⟩ :=
    hforetells.resolve_left (fun ⟨_, hnone, _⟩ => nomatch hnone) he
  obtain ⟨k, hk⟩ := List.mem_iff_getElem?.mp ht
  exact ⟨k, t, fault, hk, rfl⟩

/-- A token that is refused is refused whatever comes after it. -/
theorem run_of_refused {front rest : List Located} (hended : Ended (t :: rest))
    (hlater : ∀ x ∈ rest, t.position < x.position)
    (h : (readProgram limit).run (front ++ t :: rest) = .error (fault.error t))
    (other : List Located) :
    (readProgram limit).run (front ++ t :: other) = .error (fault.error t) := by
  have hforetells := @foretells_readProgram ⟨t, rest, other⟩ _ _ limit (.shared front hended)
  unfold Foretells at hforetells
  rw [h] at hforetells
  rcases hforetells with ⟨_, hother, herror⟩ | hstops
  · obtain rfl := Option.mem_some_iff.mp hother
    exact herror
  · obtain ⟨x, hx, fault', heq⟩ := hstops (fault.isSyntax t)
    exact absurd (SyntaxFault.position_eq heq) (Nat.ne_of_lt (hlater x hx))

/-- In another text that begins with the same tokens the same one is refused. -/
theorem refused_of_same_front (htokens : tokenize text = .ok tokens) (ht : tokens[k]? = some t)
    (h : (readProgram limit).run tokens = .error (fault.error t))
    (htokens' : tokenize text' = .ok tokens')
    (hsame : (tokens'.take (k + 1)).map Located.token =
      (tokens.take (k + 1)).map Located.token) :
    ∃ t', tokens'[k]? = some t' ∧ t'.token = t.token ∧
      (readProgram limit).run tokens' = .error (fault.error t') := by
  obtain ⟨hk, ht⟩ := List.getElem?_eq_some_iff.mp ht
  have hlength := congrArg List.length hsame
  rw [List.length_map, List.length_map, List.length_take, List.length_take] at hlength
  have hk' : k < tokens'.length := by omega
  obtain ⟨t', ht'⟩ : ∃ t', tokens'[k] = t' := ⟨_, rfl⟩
  rw [List.take_succ_eq_append_getElem hk, List.take_succ_eq_append_getElem hk', ht, ht',
    List.map_append, List.map_append] at hsame
  obtain ⟨hfront, hlast⟩ := List.append_inj' hsame rfl
  have htoken : t'.token = t.token := (List.cons.inj hlast).1
  have hsplit : tokens = tokens.take k ++ t :: tokens.drop (k + 1) := by
    rw [← ht, ← List.drop_eq_getElem_cons hk, List.take_append_drop]
  have hsplit' : tokens' = tokens'.take k ++ t' :: tokens'.drop (k + 1) := by
    rw [← ht', ← List.drop_eq_getElem_cons hk', List.take_append_drop]
  have hincreasing := tokenize_pairwise htokens
  have hended := ended_of_tokenize htokens
  rw [hsplit] at h hincreasing hended
  obtain ⟨-, hrest, hearlier⟩ := List.pairwise_append.mp hincreasing
  -- the tokens that come after it in the other text, at an offset that is not its own
  let other := (tokens'.drop (k + 1)).map fun x => (⟨x.token, t.position + 1⟩ : Located)
  have herror := run_of_refused (hended.of_append (List.cons_ne_nil _ _))
    (List.pairwise_cons.mp hrest).1 h other
  have halike : List.Forall₂ (Located.Alike fun p' p => p = t.position → p' = t'.position)
      tokens' (tokens.take k ++ t :: other) := by
    rw [hsplit']
    refine List.rel_append (forall₂_alike hfront ?_) (.cons ⟨htoken, fun _ => rfl⟩
      (forall₂_alike ?_ ?_))
    · exact fun _ _ y hy heq => absurd heq (Nat.ne_of_lt (hearlier y hy t List.mem_cons_self))
    · rw [List.map_map]
      rfl
    · rintro _ _ y hy heq
      obtain ⟨x, -, rfl⟩ := List.mem_map.mp hy
      exact absurd heq (Nat.succ_ne_self _)
  obtain ⟨body, e, hends, -, -⟩ := tokenize_ends htokens'
  have hagree := @agree_readProgram _ _ _ limit (aligned_of_forall₂ halike hends)
  unfold Agree at hagree
  rw [herror] at hagree
  refine ⟨t', List.getElem?_eq_some_iff.mpr ⟨hk', ht'⟩, htoken, ?_⟩
  generalize (readProgram limit).run tokens' = outcome at hagree ⊢
  cases hagree with
  | error hsame =>
    obtain ⟨p, hp, rfl⟩ := SyntaxFault.error_of_alike hsame
    rw [hp rfl, ← htoken]

/-- No limits make a program of a text in which a token is refused under some. -/
theorem not_read_of_refused (hrefused : ∀ limits' : Limits,
    limits'.maxNesting = limits.maxNesting → text.utf8ByteSize ≤ limits'.maxInputBytes →
      ∃ t, ∃ fault : SyntaxFault, Program.read limits' text = .error (fault.error t))
    (limits' : Limits) (program : Program) : Program.read limits' text ≠ .ok program := by
  intro h
  have hsize := size_le_of_read h
  -- under limits that are as high as both it would be read as well
  let highest : Limits := ⟨limits'.maxInputBytes, max limits.maxNesting limits'.maxNesting⟩
  have hread : Program.read highest text = .ok program :=
    @read_of_lower limits' highest _ _ Nat.le.refl (Nat.le_max_right _ _) h
  let lower : Limits := ⟨limits'.maxInputBytes, limits.maxNesting⟩
  obtain ⟨t, fault, herror⟩ := hrefused lower rfl hsize
  obtain ⟨-, -, -, ⟨-, hlower⟩ | ⟨_, -, hlower⟩⟩ :=
    @read_of_read lower highest _ _ hsize (Nat.le_max_left _ _) hread
  · cases hlower.symm.trans herror
  · have hdeep := Except.error.inj (hlower.symm.trans herror)
    have hsyntax := hdeep ▸ fault.isSyntax t
    exact hsyntax

/-- **Syntax errors are final.** If a text is refused for a token, that is one of its tokens. Every
other text that begins with the same tokens, up to and including that one, is refused for that token
too, with the same error, so long as no more constructs may be nested; and under no limits is it a
program. -/
theorem Program.read_final (limits : Limits) (htokens : tokenize text = .ok tokens) :
    (∀ e : ReadError, e.IsSyntax → Program.read limits text = .error e →
      ∃ (k : Nat) (t : Located) (fault : SyntaxFault), tokens[k]? = some t ∧ e = fault.error t) ∧
    ∀ (k : Nat) (t : Located) (fault : SyntaxFault), tokens[k]? = some t →
      Program.read limits text = .error (fault.error t) →
      ∀ (text' : String) (tokens' : List Located), tokenize text' = .ok tokens' →
        (tokens'.take (k + 1)).map Located.token = (tokens.take (k + 1)).map Located.token →
        (∀ limits' : Limits, limits'.maxNesting = limits.maxNesting →
          text'.utf8ByteSize ≤ limits'.maxInputBytes →
          ∃ t', tokens'[k]? = some t' ∧ t'.token = t.token ∧
            Program.read limits' text' = .error (fault.error t')) ∧
        ∀ (limits' : Limits) (program : Program), Program.read limits' text' ≠ .ok program := by
  refine ⟨fun e he h => exists_refused htokens he h,
    fun k t fault ht h text' tokens' htokens' hsame => ?_⟩
  have hrun := run_of_read_error htokens (fault.isSyntax t) h
  have hrefused : ∀ limits' : Limits, limits'.maxNesting = limits.maxNesting →
      text'.utf8ByteSize ≤ limits'.maxInputBytes →
      ∃ t', tokens'[k]? = some t' ∧ t'.token = t.token ∧
        Program.read limits' text' = .error (fault.error t') := by
    intro limits' hnesting hsize
    obtain ⟨t', ht', htoken, hrun'⟩ := refused_of_same_front htokens ht hrun htokens' hsame
    refine ⟨t', ht', htoken, ?_⟩
    rw [read_eq_of_tokenize hsize htokens', hnesting, hrun']
    rfl
  refine ⟨hrefused, @not_read_of_refused limits text' fun limits' hnesting hsize => ?_⟩
  obtain ⟨t', -, -, herror⟩ := hrefused limits' hnesting hsize
  exact ⟨t', fault, herror⟩

end Texts

/-- A rule without effects. -/
def effectlessText : String := "RULES \x7b a(x) := \x7d"

/-- A text that begins with the same tokens, and in which an effect comes too late. -/
def belatedText : String := "RULES\x7ba(x):=\x7d b(x) \x7d"

/-- Both are refused for the brace that stands in the place of an effect. -/
theorem effectless_final :
    Program.read ⟨100, 1⟩ effectlessText = .error (.unexpectedToken .actionName "\x7d" 16) ∧
      Program.read ⟨100, 1⟩ belatedText = .error (.unexpectedToken .actionName "\x7d" 12) ∧
      ∀ (limits : Limits) (program : Program), Program.read limits belatedText ≠ .ok program := by
  have htokens : tokenize effectlessText = .ok [⟨.rulesWord, 0⟩, ⟨.openBrace, 6⟩, ⟨.ident "a", 8⟩,
      ⟨.openParen, 9⟩, ⟨.ident "x", 10⟩, ⟨.closeParen, 11⟩, ⟨.causes, 13⟩, ⟨.closeBrace, 16⟩,
      ⟨.endOfInput, 17⟩] := by decide +kernel
  have htokens' : tokenize belatedText = .ok [⟨.rulesWord, 0⟩, ⟨.openBrace, 5⟩, ⟨.ident "a", 6⟩,
      ⟨.openParen, 7⟩, ⟨.ident "x", 8⟩, ⟨.closeParen, 9⟩, ⟨.causes, 10⟩, ⟨.closeBrace, 12⟩,
      ⟨.ident "b", 14⟩, ⟨.openParen, 15⟩, ⟨.ident "x", 16⟩, ⟨.closeParen, 17⟩, ⟨.closeBrace, 19⟩,
      ⟨.endOfInput, 20⟩] := by decide +kernel
  have hread : Program.read ⟨100, 1⟩ effectlessText =
      .error (.unexpectedToken .actionName "\x7d" 16) := by decide +kernel
  obtain ⟨hrefused, hnever⟩ := (Program.read_final ⟨100, 1⟩ htokens).2 7
    ⟨.closeBrace, 16⟩ (.unexpected .actionName) rfl hread belatedText _ htokens' rfl
  obtain ⟨t', ht', -, hread'⟩ := hrefused ⟨100, 1⟩ rfl (by decide +kernel)
  obtain rfl := Option.some.inj ht'
  exact ⟨hread, hread', hnever⟩

end CausalRules
