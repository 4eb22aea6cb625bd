import CausalRules.Proofs.Grammar.Soundness
import CausalRules.Proofs.Nesting
import CausalRules.Proofs.Rule

/-!
# Limits only refuse

Two readings of the same tokens, of which one may open less at the same time than the other, take
the same steps until the first stops at an opening that is too deep for it. So they are compared
step by step, and nothing but the limit makes a difference.

- `Opened`: the tokens that were taken open what is counted in the value.
- `Filters`: what a reader with a lower limit makes of tokens, given what one with a higher limit
  makes of them. There is one rule for each step of a reader, and then one lemma for each reader.
- `Stops`: a reader that stops where the other goes on, which is what happens at a limit of none.
-/

namespace CausalRules

namespace Reader

variable {α β : Type}

/-- The tokens that were taken from the front open as much as is counted, and the value and the
depths of what was opened are as they should be. -/
structure Opened (previous : Token) (Q : α → List Nat → Prop) (s : List Located) (a : α)
    (taken rest : List Located) (depths : List Nat) : Prop where
  front : s = taken ++ rest
  value : Q a depths
  length : depths.length = (openingsAfter previous taken).length

/-- The outcome under a lower limit, given the one under a higher limit: where that is a value, the
first opening that is too deep is refused if there is one; where it is an error, it is the same, or
an opening before it is refused. -/
inductive Filtered (limit depth : Nat) (previous : Token) (Q : α → List Nat → Prop)
    (s : List Located) :
    Except ReadError (α × List Located) → Except ReadError (α × List Located) → Prop
  | same {a : α} {taken rest : List Located} {depths : List Nat}
    (hopened : Opened previous Q s a taken rest depths)
    (hnone : firstBeyond depth depths (openingsAfter previous taken) = none) :
    Filtered limit depth previous Q s (.ok (a, rest)) (.ok (a, rest))
  | beyond {a : α} {taken rest : List Located} {depths : List Nat} {position : Nat}
    (hopened : Opened previous Q s a taken rest depths)
    (hsome : firstBeyond depth depths (openingsAfter previous taken) = some position) :
    Filtered limit depth previous Q s (.error (.nestingTooDeep limit position)) (.ok (a, rest))
  | error (e : ReadError) : Filtered limit depth previous Q s (.error e) (.error e)
  | before (e : ReadError) (position : Nat) :
    Filtered limit depth previous Q s (.error (.nestingTooDeep limit position)) (.error e)

section Filtered

variable {limit depth position : Nat} {previous token : Token} {Q Q' : α → List Nat → Prop}
  {R : β → List Nat → Prop} {s taken rest : List Located} {a : α} {depths : List Nat}
  {x x' : Except ReadError (α × List Located)} {y y' : Except ReadError (β × List Located)}

theorem Filtered.mono (h : Filtered limit depth previous Q s x x')
    (himp : ∀ a depths, Q a depths → Q' a depths) : Filtered limit depth previous Q' s x x' := by
  cases h with
  | same hopened hnone => exact .same ⟨hopened.front, himp _ _ hopened.value, hopened.length⟩ hnone
  | beyond hopened hsome =>
    exact .beyond ⟨hopened.front, himp _ _ hopened.value, hopened.length⟩ hsome
  | error e => exact .error e
  | before e position => exact .before e position

/-- What was opened before the last part was taken, and in it. -/
theorem Opened.append {b : β} {taken' rest' : List Located} {more : List Nat}
    (h : Opened previous Q s a taken rest depths)
    (h' : Opened (lastToken previous taken) (fun b more => R b (depths ++ more)) rest b taken' rest'
      more) :
    Opened previous R s b (taken ++ taken') rest' (depths ++ more) := by
  refine ⟨?_, h'.value, ?_⟩
  · rw [h.front, h'.front, List.append_assoc]
  · rw [openingsAfter_append, List.length_append, List.length_append, h.length, h'.length]

theorem firstBeyond_taken {taken' : List Located} {more : List Nat}
    (h : Opened previous Q s a taken rest depths) :
    firstBeyond depth (depths ++ more) (openingsAfter previous (taken ++ taken')) =
      (firstBeyond depth depths (openingsAfter previous taken)).or
        (firstBeyond depth more (openingsAfter (lastToken previous taken) taken')) := by
  rw [openingsAfter_append, firstBeyond_append h.length]

/-- Tokens that open nothing that is too deep, and what follows them. -/
theorem Filtered.after (h : Opened previous Q s a taken rest depths)
    (hnone : firstBeyond depth depths (openingsAfter previous taken) = none)
    (hrest : Filtered limit depth (lastToken previous taken) (fun b more => R b (depths ++ more))
      rest y y') : Filtered limit depth previous R s y y' := by
  cases hrest with
  | same hopened hnone' =>
    refine .same (h.append hopened) ?_
    rw [firstBeyond_taken h, hnone, hnone']
    rfl
  | beyond hopened hsome =>
    refine .beyond (h.append hopened) ?_
    rw [firstBeyond_taken h, hnone, hsome]
    rfl
  | error e => exact .error e
  | before e position => exact .before e position

/-- Tokens that open something that is too deep: what follows them makes no difference. -/
theorem Filtered.stopped (h : Opened previous Q s a taken rest depths)
    (hsome : firstBeyond depth depths (openingsAfter previous taken) = some position)
    (hrest : Filtered limit depth (lastToken previous taken) (fun b more => R b (depths ++ more))
      rest y y') :
    Filtered limit depth previous R s (.error (.nestingTooDeep limit position)) y' := by
  have hbeyond : ∀ {taken' more}, firstBeyond depth (depths ++ more)
      (openingsAfter previous (taken ++ taken')) = some position := by
    intro taken' more
    rw [firstBeyond_taken h, hsome]
    rfl
  cases hrest with
  | same hopened => exact .beyond (h.append hopened) hbeyond
  | beyond hopened => exact .beyond (h.append hopened) hbeyond
  | error e => exact .before e position
  | before e => exact .before e position

end Filtered

/-- Two readers of the same tokens, which come after a given one: in the first at most `depth`
constructs may be open at the same time, in the second at least as many. -/
def Filters (limit depth : Nat) (previous : Token) (Q : α → List Nat → Prop) (r r' : Reader α)
    (s : List Located) : Prop :=
  Filtered limit depth previous Q s (r.run s) (r'.run s)

/-- The first reader stops at an opening, unless both fail before it. -/
def Stops (limit position : Nat) (r r' : Reader α) (s : List Located) : Prop :=
  r.run s = .error (.nestingTooDeep limit position) ∨
    ∃ e, r.run s = .error e ∧ r'.run s = .error e

section Steps

variable {limit depth position : Nat} {previous token : Token} {Q : α → List Nat → Prop}
  {R : β → List Nat → Prop} {r r' : Reader α} {s rest : List Located}

/-! ## Values and errors -/

theorem filters_pure {a : α} (h : Q a []) : Filters limit depth previous Q (pure a) (pure a) s :=
  have hopened : Opened previous Q s a [] s [] := ⟨rfl, h, rfl⟩
  .same hopened rfl

theorem filters_throw {e : ReadError} : Filters limit depth previous Q (throw e) (throw e) s :=
  .error e

theorem filters_unexpected {expected : Expected} :
    Filters limit depth previous Q (unexpected expected) (unexpected expected) s :=
  .error _

theorem filters_lift {x : Except ReadError α} (h : ∀ a, x = .ok a → Q a []) :
    Filters limit depth previous Q (liftM x) (liftM x) s := by
  cases x with
  | ok a => exact filters_pure (h a rfl)
  | error e => exact filters_throw

theorem filters_mono {Q' : α → List Nat → Prop} (h : Filters limit depth previous Q r r' s)
    (himp : ∀ a depths, Q a depths → Q' a depths) : Filters limit depth previous Q' r r' s :=
  Filtered.mono h himp

/-- A reader without limits, on tokens that open nothing. -/
theorem filters_quiet (h : ∀ a rest, Returns r s a rest →
      ∃ taken, s = taken ++ rest ∧ openingsAfter previous taken = []) :
    Filters limit depth previous (fun _ depths => depths = []) r r s := by
  unfold Filters
  cases hr : r.run s with
  | error e => exact .error e
  | ok x =>
    obtain ⟨taken, hfront, hopenings⟩ := h x.1 x.2 hr
    have hopened : Opened previous (fun _ depths => depths = []) s x.1 taken x.2 [] :=
      ⟨hfront, rfl, by rw [hopenings]⟩
    exact .same hopened rfl

/-! ## Steps in order -/

variable {k k' : α → Reader β}

theorem filters_bind (h : Filters limit depth previous Q r r' s)
    (hk : ∀ a depths previous t, Q a depths →
      Filters limit depth previous (fun b more => R b (depths ++ more)) (k a) (k' a) t) :
    Filters limit depth previous R (r >>= k) (r' >>= k') s := by
  have hrun : ∀ (r : Reader α) (k : α → Reader β),
      (r >>= k).run s = r.run s >>= fun x => (k x.1).run x.2 := fun _ _ => rfl
  unfold Filters at h ⊢
  rw [hrun, hrun]
  generalize r.run s = x at h ⊢
  generalize r'.run s = x' at h ⊢
  cases h with
  | @same a taken rest depths hopened hnone =>
    exact .after hopened hnone (hk a depths _ rest hopened.value)
  | @beyond a taken rest depths position hopened hsome =>
    exact .stopped hopened hsome (hk a depths _ rest hopened.value)
  | error e => exact .error e
  | before e position => exact .before e position

theorem filters_map {f : α → β} (h : Filters limit depth previous Q r r' s)
    (hf : ∀ a depths, Q a depths → R (f a) depths) :
    Filters limit depth previous R (f <$> r) (f <$> r') s := by
  rw [map_eq_pure_bind, map_eq_pure_bind]
  refine filters_bind h fun a depths _ _ ha => filters_pure ?_
  rw [List.append_nil]
  exact hf a depths ha

/-- The tokens left may be handed on. -/
theorem filters_get {k k' : List Located → Reader β}
    (h : Filters limit depth previous R (k s) (k' s) s) :
    Filters limit depth previous R (get >>= k) (get >>= k') s :=
  h

/-- A reader goes on with the first token left. -/
theorem filters_current {k k' : Located → Reader β}
    (hk : ∀ token p, ahead s = ⟨token, p⟩ →
      Filters limit depth previous R (k ⟨token, p⟩) (k' ⟨token, p⟩) s) :
    Filters limit depth previous R (current >>= k) (current >>= k') s :=
  hk _ _ rfl

/-! ## Tokens -/

section Tokens

variable {p : Nat} {k k' : Unit → Reader β}

theorem eq_cons_of_ahead (h : ahead s = ⟨token, p⟩) (hend : token ≠ .endOfInput) :
    s = ⟨token, p⟩ :: s.tail := by
  cases s with
  | nil => exact (hend (congrArg Located.token h).symm).elim
  | cons t s => exact congrArg (· :: s) h

theorem openingsAfter_cons_of_opens {taken : List Located} (h : token.opens previous = true) :
    openingsAfter previous (⟨token, p⟩ :: taken) = p :: openingsAfter token taken := by
  rw [openingsAfter, if_pos h]

/-- A token is passed over that opens nothing. -/
theorem filters_skip (hahead : ahead s = ⟨token, p⟩) (hend : token ≠ .endOfInput)
    (hopens : token.opens previous = false)
    (hk : Filters limit depth token R (k ()) (k' ()) s.tail) :
    Filters limit depth previous R (skip >>= k) (skip >>= k') s := by
  have hopenings : openingsAfter previous [⟨token, p⟩] = [] := by
    simp [openingsAfter, hopens]
  have hopened :
      Opened previous (fun (_ : Unit) depths => depths = []) s () [⟨token, p⟩] s.tail [] :=
    ⟨eq_cons_of_ahead hahead hend, rfl, by rw [hopenings]⟩
  exact .after hopened rfl hk

/-- A token that opens something, and what is opened inside it. -/
theorem Opened.enclose {b : β} {taken : List Located} {depths : List Nat}
    (hahead : ahead s = ⟨token, p⟩) (hend : token ≠ .endOfInput)
    (hopens : token.opens previous = true)
    (h : Opened token (fun b depths => R b (enclose depths)) s.tail b taken rest depths) :
    Opened previous R s b (⟨token, p⟩ :: taken) rest (CausalRules.enclose depths) := by
  refine ⟨?_, h.value, ?_⟩
  · rw [List.cons_append, ← h.front]
    exact eq_cons_of_ahead hahead hend
  · rw [openingsAfter_cons_of_opens hopens]
    simp [CausalRules.enclose, h.length]

/-- A token is passed over that opens something: what follows is inside it. -/
theorem filters_open (hahead : ahead s = ⟨token, p⟩) (hend : token ≠ .endOfInput)
    (hopens : token.opens previous = true)
    (hk : Filters limit depth token (fun b depths => R b (enclose depths)) (k ()) (k' ()) s.tail) :
    Filters limit (depth + 1) previous R (skip >>= k) (skip >>= k') s := by
  have hrun : ∀ k : Unit → Reader β, (skip >>= k).run s = (k ()).run s.tail := fun _ => rfl
  unfold Filters at hk ⊢
  rw [hrun, hrun]
  generalize (k ()).run s.tail = y at hk ⊢
  generalize (k' ()).run s.tail = y' at hk ⊢
  cases hk with
  | same hopened hnone =>
    refine .same (hopened.enclose hahead hend hopens) ?_
    rw [openingsAfter_cons_of_opens hopens, firstBeyond_enclose_succ, hnone]
  | beyond hopened hsome =>
    refine .beyond (hopened.enclose hahead hend hopens) ?_
    rw [openingsAfter_cons_of_opens hopens, firstBeyond_enclose_succ, hsome]
  | error e => exact .error e
  | before e position => exact .before e position

/-- A token is passed over that opens something, where nothing may be open. That the second reader
opens what it counts is known from what it makes of the same tokens itself. -/
theorem filters_open_zero (limit' depth' : Nat) (hahead : ahead s = ⟨token, p⟩)
    (hend : token ≠ .endOfInput) (hopens : token.opens previous = true)
    (hk : Filters limit' depth' token (fun b depths => R b (enclose depths)) (k' ()) (k' ()) s.tail)
    (hstops : Stops limit p (k ()) (k' ()) s.tail) :
    Filters limit 0 previous R (skip >>= k) (skip >>= k') s := by
  have hrun : ∀ k : Unit → Reader β, (skip >>= k).run s = (k ()).run s.tail := fun _ => rfl
  have hopened : ∀ b rest, (k' ()).run s.tail = .ok (b, rest) → ∃ taken depths,
      Opened token (fun b depths => R b (enclose depths)) s.tail b taken rest depths := by
    intro b rest hok
    unfold Filters at hk
    rw [hok] at hk
    cases hk with
    | same hopened => exact ⟨_, _, hopened⟩
  unfold Filters
  rw [hrun, hrun]
  rcases hstops with hstop | ⟨e, he, he'⟩
  · -- what was just opened is too deep, and the first that is
    rw [hstop]
    cases hok : (k' ()).run s.tail with
    | error e => exact .before e p
    | ok x =>
      obtain ⟨taken, depths, hopened⟩ := hopened x.1 x.2 hok
      refine .beyond (hopened.enclose hahead hend hopens) ?_
      rw [openingsAfter_cons_of_opens hopens, firstBeyond_enclose_zero]
  · rw [he, he']
    exact .error e

/-- A token is passed over if it stands first. -/
theorem filters_accept {k k' : Bool → Reader β}
    (htrue : ∀ p, ahead s = ⟨token, p⟩ →
      Filters limit depth previous R (skip >>= fun _ => k true) (skip >>= fun _ => k' true) s)
    (hfalse : (ahead s).token ≠ token → Filters limit depth previous R (k false) (k' false) s) :
    Filters limit depth previous R (accept token >>= k) (accept token >>= k') s := by
  by_cases htoken : (ahead s).token = token
  · have hrun : ∀ k : Bool → Reader β,
        (accept token >>= k).run s = (skip >>= fun _ => k true).run s := by
      intro k
      have haccept : (accept token).run s = .ok (true, s.tail) :=
        returns_accept.mpr ⟨(decide_eq_true htoken).symm, rfl⟩
      show ((accept token).run s >>= fun x => (k x.1).run x.2) = _
      rw [haccept]
      rfl
    unfold Filters
    rw [hrun, hrun]
    exact htrue (ahead s).position (htoken ▸ rfl)
  · have hrun : ∀ k : Bool → Reader β, (accept token >>= k).run s = (k false).run s := by
      intro k
      have haccept : (accept token).run s = .ok (false, s) :=
        returns_accept.mpr ⟨(decide_eq_false htoken).symm, rfl⟩
      show ((accept token).run s >>= fun x => (k x.1).run x.2) = _
      rw [haccept]
      rfl
    unfold Filters
    rw [hrun, hrun]
    exact hfalse htoken

/-- A token must stand first that opens nothing. -/
theorem filters_expect {expected : Expected} (hend : token ≠ .endOfInput)
    (hopens : token.opens previous = false)
    (hk : ∀ t, Filters limit depth token R (k ()) (k' ()) t) :
    Filters limit depth previous R (expect token expected >>= k) (expect token expected >>= k')
      s := by
  have hexpect : ∀ k : Unit → Reader β, expect token expected >>= k =
      accept token >>= fun taken => (unless taken do unexpected expected : Reader Unit) >>= k := by
    intro k
    rw [expect, bind_assoc]
  rw [hexpect, hexpect]
  refine filters_accept (fun p hahead => ?_) fun _ => ?_
  · exact filters_skip hahead hend hopens (hk _)
  · exact .error _

end Tokens

theorem stops_bind {k k' : α → Reader β} (hk : ∀ a t, Stops limit position (k a) (k' a) t) :
    Stops limit position (r >>= k) (r >>= k') s := by
  have hrun : ∀ k : α → Reader β, (r >>= k).run s = r.run s >>= fun x => (k x.1).run x.2 :=
    fun _ => rfl
  unfold Stops
  rw [hrun, hrun]
  cases r.run s with
  | error e => exact .inr ⟨e, rfl, rfl⟩
  | ok x => exact hk x.1 x.2

/-! ## Items -/

section Items

variable {f : α → List Nat} (hitem : ∀ previous s,
  Filters limit depth previous (fun a depths => f a = depths) r r' s)

include hitem

theorem filters_moreItems (hend : token ≠ .endOfInput)
    (hopens : ∀ previous, token.opens previous = false) {bound : List Located} {found : List α} :
    Filters limit depth previous
      (fun as depths => ∃ more, as = found.reverse ++ more ∧ more.flatMap f = depths)
      (moreItems token r bound found) (moreItems token r' bound found) s := by
  induction bound generalizing found previous s with
  | nil => exact filters_pure ⟨[], (List.append_nil _).symm, rfl⟩
  | cons _ bound ih =>
    refine filters_accept (fun p hahead => ?_) fun _ => ?_
    · refine filters_skip hahead hend (hopens _) ?_
      refine filters_bind (hitem _ _) ?_
      rintro next _ previous t rfl
      refine filters_mono ih ?_
      rintro _ _ ⟨more, rfl, rfl⟩
      exact ⟨next :: more, by simp, List.flatMap_cons⟩
    · exact filters_pure ⟨[], (List.append_nil _).symm, rfl⟩

theorem filters_separated (hend : token ≠ .endOfInput)
    (hopens : ∀ previous, token.opens previous = false) :
    Filters limit depth previous (fun as depths => as.flatMap f = depths) (separated token r)
      (separated token r') s := by
  refine filters_bind (hitem _ _) ?_
  rintro first _ previous t rfl
  refine filters_get (filters_mono (filters_moreItems hitem hend hopens) ?_)
  rintro _ _ ⟨more, rfl, rfl⟩
  exact List.flatMap_cons

end Items

end Steps

end Reader

open Reader

variable {limit limit' depth depth' : Nat} {previous : Token} {s : List Located}

/-! ## Arguments -/

theorem SpellsNumber.openingsAfter_eq {n : Number} (h : SpellsNumber s n) (previous : Token) :
    openingsAfter previous s = [] := by
  induction h generalizing previous with
  | whole | decimal | point => simp [openingsAfter, Token.opens]
  | negative _ ih => simp [openingsAfter, Token.opens, ih]

theorem filters_readNumber :
    Filters limit depth previous (fun _ depths => depths = []) readNumber readNumber s := by
  refine filters_quiet fun n rest h => ?_
  obtain ⟨used, hused, hspells⟩ := took_of_readNumber h
  exact ⟨used, hused, hspells.openingsAfter_eq previous⟩

theorem filters_readLiteral :
    Filters limit depth previous (fun arg depths => arg.depths = depths) readLiteral readLiteral
      s := by
  have hnumber : Filters limit depth previous (fun _ depths => depths = [])
      (Number.text <$> readNumber) (Number.text <$> readNumber) s :=
    filters_map filters_readNumber fun _ _ => id
  have htext : Filters limit depth previous (fun _ depths => depths = []) readLiteralText
      readLiteralText s := by
    refine filters_current fun token p hahead => ?_
    cases token with
    | ident name => exact filters_skip hahead nofun rfl (filters_pure rfl)
    | digits | dot | minus => exact hnumber
    | _ => exact filters_unexpected
  refine filters_bind htext ?_
  rintro text _ previous t rfl
  exact filters_expect nofun rfl fun _ => filters_pure rfl

theorem filters_readPlainArg :
    Filters limit depth previous (fun arg depths => arg.depths = depths) readPlainArg readPlainArg
      s := by
  have hnumber : Filters limit depth previous (fun arg depths => arg.depths = depths)
      (Arg.number <$> readNumber) (Arg.number <$> readNumber) s := by
    refine filters_map filters_readNumber ?_
    rintro n _ rfl
    rfl
  refine filters_current fun token p hahead => ?_
  cases token with
  | digits | dot | minus => exact hnumber
  | ident name => exact filters_skip hahead nofun rfl (filters_pure rfl)
  | python code => exact filters_skip hahead nofun rfl (filters_pure rfl)
  | continuation suffix =>
    dsimp only
    cases continuationOffset suffix with
    | ok offset => exact filters_skip hahead nofun rfl (filters_pure rfl)
    | error fault => exact filters_throw
  | _ => exact filters_unexpected

theorem filters_readArgs {arg arg' : Reader Arg} {closing : Token} {expected : Expected}
    (hend : closing ≠ .endOfInput) (hopens : ∀ previous, closing.opens previous = false)
    (harg : ∀ previous s,
      Filters limit depth previous (fun arg depths => arg.depths = depths) arg arg' s) :
    Filters limit depth previous (fun args depths => argsDepths args = depths)
      (readArgs arg closing expected) (readArgs arg' closing expected) s := by
  refine filters_bind (filters_separated (f := fun arg => arg.2.depths) (fun previous s => ?_)
    nofun fun _ => rfl) ?_
  · refine filters_current fun token p _ => filters_bind (harg previous s) ?_
    rintro arg _ previous t rfl
    exact filters_pure (List.append_nil _).symm
  · rintro args _ previous t rfl
    refine filters_expect hend (hopens _) fun t => ?_
    refine filters_bind (filters_lift (Q := fun _ depths => depths = []) fun _ _ => rfl) ?_
    rintro _ _ previous t rfl
    refine filters_pure ?_
    rw [argsDepths_eq_flatMap, List.flatMap_map]
    simp

/-- What is read after the word of a state. -/
theorem filters_stateArgs {arg arg' : Reader Arg}
    (harg : ∀ previous s,
      Filters limit depth previous (fun arg depths => arg.depths = depths) arg arg' s) :
    Filters limit depth .stateWord (fun arg depths => arg.depths = enclose depths)
      (expect .openParen .stateOpening >>= fun _ =>
        Arg.state <$> readArgs arg .closeParen .stateClosing)
      (expect .openParen .stateOpening >>= fun _ =>
        Arg.state <$> readArgs arg' .closeParen .stateClosing) s := by
  refine filters_expect nofun rfl fun t => ?_
  refine filters_map (filters_readArgs nofun (fun _ => rfl) harg) ?_
  rintro args _ rfl
  rfl

/-- Only the arguments of a state are read differently. -/
theorem filters_readArgWith {stateArgs stateArgs' : Nat → Reader (List Arg)}
    (hstate : ∀ p, ahead s = ⟨.stateWord, p⟩ →
      Filters limit depth previous (fun arg depths => arg.depths = depths)
        (skip >>= fun _ => expect .openParen .stateOpening >>= fun _ => Arg.state <$> stateArgs p)
        (skip >>= fun _ => expect .openParen .stateOpening >>= fun _ => Arg.state <$> stateArgs' p)
        s) :
    Filters limit depth previous (fun arg depths => arg.depths = depths) (readArgWith stateArgs)
      (readArgWith stateArgs') s := by
  refine filters_current fun token p hahead => ?_
  cases token with
  | quote => exact filters_skip hahead nofun rfl filters_readLiteral
  | stateWord => exact hstate p hahead
  | _ => exact filters_readPlainArg

theorem filters_readArg (h : depth ≤ depth') :
    Filters limit depth previous (fun arg depths => arg.depths = depths) (readArg limit depth)
      (readArg limit' depth') s := by
  -- on the larger number: where the smaller one is zero, the other reader is compared with itself
  induction depth' generalizing limit limit' depth previous s with
  | zero =>
    obtain rfl := Nat.le_zero.mp h
    refine filters_readArgWith fun p hahead => ?_
    refine filters_open_zero limit' 0 hahead nofun rfl ?_ ?_
    · exact filters_expect nofun rfl fun _ => .error _
    · exact stops_bind fun _ _ => .inl rfl
  | succ depth' ih =>
    cases depth with
    | zero =>
      refine filters_readArgWith fun p hahead => ?_
      refine filters_open_zero limit' depth' hahead nofun rfl ?_ ?_
      · exact filters_stateArgs fun _ _ => ih (Nat.le_refl _)
      · exact stops_bind fun _ _ => .inl rfl
    | succ depth =>
      refine filters_readArgWith fun p hahead => ?_
      exact filters_open hahead nofun rfl
        (filters_stateArgs fun _ _ => ih (Nat.le_of_succ_le_succ h))

theorem filters_readAction (h : limit ≤ limit') :
    Filters limit limit previous (fun action depths => action.depths = depths) (readAction limit)
      (readAction limit') s := by
  refine filters_current fun token p hahead => ?_
  cases token with
  | ident name =>
    refine filters_skip hahead nofun rfl (filters_expect nofun rfl fun t => ?_)
    refine filters_accept (fun q hahead => ?_) fun _ => ?_
    · exact filters_skip hahead nofun rfl (filters_pure rfl)
    · refine filters_bind (filters_readArgs nofun (fun _ => rfl) fun _ _ => filters_readArg h) ?_
      rintro args _ previous t rfl
      exact filters_pure (List.append_nil _).symm
  | _ => exact filters_unexpected

/-! ## Conditions -/

theorem filters_readCallName {expected : Expected} (hcalled : previous.isCalled = true) :
    Filters limit depth previous (fun _ depths => depths = []) (readCallName expected)
      (readCallName expected) s := by
  refine filters_expect nofun (by simp [Token.opens, hcalled]) fun t => ?_
  refine filters_current fun token p hahead => ?_
  cases token with
  | ident name =>
    exact filters_skip hahead nofun rfl (filters_expect nofun rfl fun _ => filters_pure rfl)
  | _ => exact filters_unexpected

theorem filters_readListItems {arg arg' : Reader Arg}
    (harg : ∀ previous s,
      Filters limit depth previous (fun arg depths => arg.depths = depths) arg arg' s) :
    Filters limit depth previous (fun items depths => argsDepths items = depths)
      (readListItems arg) (readListItems arg') s := by
  refine filters_accept (fun p hahead => ?_) fun _ => ?_
  · exact filters_skip hahead nofun rfl (filters_pure rfl)
  · exact filters_readArgs nofun (fun _ => rfl) harg

/-- What is read after the bracket of a list. -/
theorem filters_listItems {arg arg' : Reader Arg}
    (harg : ∀ previous s,
      Filters limit depth previous (fun arg depths => arg.depths = depths) arg arg' s) :
    Filters limit depth .openBracket (fun operand depths => operand.depths = enclose depths)
      (Operand.list <$> readListItems arg) (Operand.list <$> readListItems arg') s := by
  refine filters_map (filters_readListItems harg) ?_
  rintro items _ rfl
  rfl

/-- What begins no other operand is read as an argument. -/
theorem filters_readValue (h : depth ≤ depth') (p : Nat) :
    Filters limit depth previous (fun operand depths => operand.depths = depths)
      (readArg limit depth >>= fun arg => do
        if arg.continuation?.isSome then throw (.invalidContinuation .outsideList p)
        return Operand.value arg)
      (readArg limit' depth' >>= fun arg => do
        if arg.continuation?.isSome then throw (.invalidContinuation .outsideList p)
        return Operand.value arg) s := by
  refine filters_bind (filters_readArg h) ?_
  rintro arg _ previous t rfl
  split
  · exact filters_throw
  · exact filters_pure (List.append_nil _).symm

theorem filters_readOperand (h : depth ≤ depth') :
    Filters limit depth previous (fun operand depths => operand.depths = depths)
      (readOperand limit depth) (readOperand limit' depth') s := by
  refine filters_current fun token p hahead => ?_
  cases token with
  | allWord =>
    refine filters_skip hahead nofun rfl (filters_map (filters_readCallName rfl) ?_)
    rintro name _ rfl
    rfl
  | typeWord =>
    refine filters_skip hahead nofun rfl (filters_map (filters_readCallName rfl) ?_)
    rintro name _ rfl
    rfl
  | openBracket =>
    cases depth' with
    | zero =>
      obtain rfl := Nat.le_zero.mp h
      exact filters_open_zero limit' 0 hahead nofun rfl (.error _) (.inl rfl)
    | succ depth' =>
      cases depth with
      | zero =>
        exact filters_open_zero limit' depth' hahead nofun rfl
          (filters_listItems fun _ _ => filters_readArg (Nat.le_refl _)) (.inl rfl)
      | succ depth =>
        exact filters_open hahead nofun rfl
          (filters_listItems fun _ _ => filters_readArg (Nat.le_of_succ_le_succ h))
  | _ => exact filters_readValue h p

theorem filters_readPredicate (h : depth ≤ depth') :
    Filters limit depth previous (fun test depths => test.depths = depths)
      (readPredicate limit depth) (readPredicate limit' depth') s := by
  refine filters_current fun token p hahead => ?_
  refine filters_bind (filters_readOperand h) ?_
  rintro left _ previous t rfl
  refine filters_current fun token q hahead => ?_
  dsimp only
  cases hop : Comparison.ofToken? token with
  | none => exact filters_pure (by simp [Predicate.depths, Predicate.operands])
  | some op =>
    obtain rfl := Comparison.ofToken?_eq_some_iff.mp hop
    refine filters_skip hahead ?_ ?_ ?_
    · cases op <;> exact nofun
    · cases op <;> rfl
    · refine filters_bind (filters_readOperand h) ?_
      rintro right _ previous t rfl
      exact filters_pure (by simp [Predicate.depths, Predicate.operands])

/-- The depths of a chain, whose parts before the last are given from right to left. -/
theorem depths_nestRight (last : Condition) (before : List (Condition × Connective)) :
    Condition.depths (nestRight last before) =
      before.reverse.flatMap (fun part => Condition.depths part.1) ++ Condition.depths last := by
  unfold nestRight
  induction before generalizing last with
  | nil => simp
  | cons part before ih =>
    rw [List.foldl_cons, ih]
    simp [Condition.depths]

section Chain

variable {item item' : Reader Condition} (hitem : ∀ previous s, previous.isCalled = false →
  Filters limit depth previous (fun c depths => Condition.depths c = depths) item item' s)

include hitem

theorem filters_moreChain {bound : List Located} {last : Condition}
    {before : List (Condition × Connective)} :
    Filters limit depth previous
      (fun c depths => Condition.depths c = Condition.depths (nestRight last before) ++ depths)
      (moreChain item bound last before) (moreChain item' bound last before) s := by
  induction bound generalizing last before previous s with
  | nil => exact filters_pure (List.append_nil _).symm
  | cons _ bound ih =>
    refine filters_current fun token p hahead => ?_
    dsimp only
    cases hop : Connective.ofToken? token with
    | none => exact filters_pure (List.append_nil _).symm
    | some op =>
      obtain rfl := Connective.ofToken?_eq_some_iff.mp hop
      refine filters_skip hahead ?_ ?_ ?_
      · cases op <;> exact nofun
      · cases op <;> rfl
      · refine filters_bind (hitem _ _ (by cases op <;> rfl)) ?_
        rintro next _ previous t rfl
        refine filters_mono ih fun c depths hdepths => ?_
        rw [hdepths, depths_nestRight, depths_nestRight]
        simp

theorem filters_readChain (hprevious : previous.isCalled = false) :
    Filters limit depth previous (fun c depths => Condition.depths c = depths) (readChain item)
      (readChain item') s := by
  refine filters_bind (hitem _ _ hprevious) ?_
  rintro first _ previous t rfl
  exact filters_get (filters_mono (filters_moreChain hitem) fun _ _ h => h)

end Chain

/-- What is read after the parenthesis of a group. -/
theorem filters_groupInside {inside inside' : Reader Condition}
    (hinside : ∀ s, Filters limit depth .openParen (fun c depths => Condition.depths c = depths)
      inside inside' s) :
    Filters limit depth .openParen (fun c depths => Condition.depths c = enclose depths)
      (inside >>= fun inner => expect .closeParen .groupClosing >>= fun _ =>
        pure (Formula.group inner))
      (inside' >>= fun inner => expect .closeParen .groupClosing >>= fun _ =>
        pure (Formula.group inner)) s := by
  refine filters_bind (hinside s) ?_
  rintro inner _ previous t rfl
  refine filters_expect nofun rfl fun _ => filters_pure ?_
  rw [List.append_nil]
  rfl

/-- Only the inside of a group is read differently. -/
theorem filters_readItem (h : depth ≤ depth') {inside inside' : Nat → Reader Condition}
    (hgroup : ∀ p, ahead s = ⟨.openParen, p⟩ →
      Filters limit depth previous (fun c depths => Condition.depths c = depths)
        (skip >>= fun _ => inside p >>= fun inner => expect .closeParen .groupClosing >>= fun _ =>
          pure (Formula.group inner))
        (skip >>= fun _ => inside' p >>= fun inner => expect .closeParen .groupClosing >>= fun _ =>
          pure (Formula.group inner)) s) :
    Filters limit depth previous (fun c depths => Condition.depths c = depths)
      (readItem limit depth inside) (readItem limit' depth' inside') s := by
  refine filters_current fun token p hahead => ?_
  refine filters_accept (fun q hahead' => ?_) fun _ => ?_
  · obtain rfl : p = q := (Located.mk.inj (hahead.symm.trans hahead')).2
    exact hgroup p hahead'
  · refine filters_bind (filters_readPredicate h) ?_
    rintro test _ previous t rfl
    exact filters_pure (List.append_nil _).symm

theorem filters_readCondition (h : depth ≤ depth') (hprevious : previous.isCalled = false) :
    Filters limit depth previous (fun c depths => Condition.depths c = depths)
      (readCondition limit depth) (readCondition limit' depth') s := by
  have hopens : ∀ {previous : Token}, previous.isCalled = false →
      Token.openParen.opens previous = true := fun h => by simp [Token.opens, h]
  induction depth' generalizing limit limit' depth previous s with
  | zero =>
    obtain rfl := Nat.le_zero.mp h
    refine filters_readChain (fun previous s hprevious => filters_readItem h fun p hahead => ?_)
      hprevious
    exact filters_open_zero limit' 0 hahead nofun (hopens hprevious)
      (.error _) (.inl rfl)
  | succ depth' ih =>
    cases depth with
    | zero =>
      refine filters_readChain (fun previous s hprevious => filters_readItem h fun p hahead => ?_)
        hprevious
      exact filters_open_zero limit' depth' hahead nofun (hopens hprevious)
        (filters_groupInside fun _ => ih (Nat.le_refl _) rfl) (.inl rfl)
    | succ depth =>
      refine filters_readChain (fun previous s hprevious => filters_readItem h fun p hahead => ?_)
        hprevious
      exact filters_open hahead nofun (hopens hprevious)
        (filters_groupInside fun _ => ih (Nat.le_of_succ_le_succ h) rfl)

/-! ## Rules -/

theorem filters_readGuard (h : limit ≤ limit') :
    Filters limit limit previous (fun c depths => c.elim [] Condition.depths = depths)
      (readGuard limit) (readGuard limit') s := by
  refine filters_accept (fun p hahead => ?_) fun _ => ?_
  · refine filters_skip hahead nofun rfl (filters_expect nofun rfl fun t => ?_)
    refine filters_bind (filters_readCondition h rfl) ?_
    rintro c _ previous t rfl
    refine filters_expect nofun rfl fun t => filters_expect nofun rfl fun t => filters_pure ?_
    exact (List.append_nil _).symm
  · exact filters_pure rfl

theorem filters_readRule (h : limit ≤ limit') :
    Filters limit limit previous (fun rule depths => rule.depths = depths) (readRule limit)
      (readRule limit') s := by
  refine filters_current fun token p _ => ?_
  refine filters_bind (filters_readGuard h) ?_
  rintro condition _ previous t rfl
  refine filters_bind (filters_readAction h) ?_
  rintro intention _ previous t rfl
  refine filters_expect nofun rfl fun t => ?_
  refine filters_bind (filters_separated (fun _ _ => filters_readAction h) nofun fun _ => rfl) ?_
  rintro effects _ previous t rfl
  refine filters_pure ?_
  rw [List.append_nil]
  rfl

theorem filters_moreRules (h : limit ≤ limit') {bound : List Located} {found : List Rule} :
    Filters limit limit previous
      (fun rules depths =>
        ∃ more, rules = found.reverse ++ more ∧ more.flatMap Rule.depths = depths)
      (moreRules limit bound found) (moreRules limit' bound found) s := by
  have hdone : ∀ {previous s} {found : List Rule}, Filters limit limit previous
      (fun rules depths =>
        ∃ more, rules = found.reverse ++ more ∧ more.flatMap Rule.depths = depths)
      (pure found.reverse) (pure found.reverse) s :=
    filters_pure ⟨[], (List.append_nil _).symm, rfl⟩
  induction bound generalizing found previous s with
  | nil => exact hdone
  | cons _ bound ih =>
    refine filters_accept (fun p hahead => ?_) fun _ => hdone
    refine filters_skip hahead nofun rfl (filters_current fun token q _ => ?_)
    dsimp only
    split
    · exact hdone
    · refine filters_bind (filters_readRule h) ?_
      rintro rule _ previous t rfl
      refine filters_mono ih ?_
      rintro _ _ ⟨more, rfl, rfl⟩
      exact ⟨rule :: more, by simp, List.flatMap_cons⟩

theorem filters_readRules (h : limit ≤ limit') :
    Filters limit limit previous (fun rules depths => rules.flatMap Rule.depths = depths)
      (readRules limit) (readRules limit') s := by
  refine filters_expect nofun rfl fun t => filters_expect nofun rfl fun t => ?_
  refine filters_current fun token p _ => ?_
  dsimp only
  split
  · exact .error _
  · refine filters_bind (filters_readRule h) ?_
    rintro first _ previous t rfl
    refine filters_get (filters_bind (filters_moreRules h) ?_)
    rintro _ _ previous t ⟨more, rfl, rfl⟩
    refine filters_expect nofun rfl fun t => filters_pure ?_
    rw [List.append_nil]
    exact List.flatMap_cons

theorem filters_readProgram (h : limit ≤ limit') :
    Filters limit limit previous (fun program depths => program.depths = depths)
      (readProgram limit) (readProgram limit') s := by
  refine filters_bind (filters_readRules h) ?_
  rintro rules _ previous t rfl
  refine filters_current fun token p _ => ?_
  dsimp only
  split
  · exact filters_pure (List.append_nil _).symm
  · exact filters_throw

/-! ## Texts -/

section Texts

variable {limits limits' : Limits} {text : String} {tokens : List Located} {program : Program}

/-- After a program that was read nothing opens. -/
theorem openings_of_readProgram {taken rest : List Located} (htokens : tokenize text = .ok tokens)
    (h : Returns (readProgram limit) tokens program rest) (hfront : tokens = taken ++ rest) :
    openings tokens = openingsAfter .endOfInput taken := by
  have hahead : (ahead rest).token = .endOfInput := by
    obtain ⟨rules, m, -, hend⟩ := returns_bind.mp h
    have hif := returns_current_bind.mp hend
    split at hif
    · rename_i hend
      obtain ⟨-, rfl⟩ := returns_pure.mp hif
      exact hend
    · exact (not_returns_throw hif).elim
  have hrest : openingsAfter (lastToken .endOfInput taken) rest = [] := by
    obtain ⟨body, e, rfl, hbody, -⟩ := tokenize_ends htokens
    cases rest with
    | nil => rfl
    | cons t rest =>
      obtain rfl | ⟨init, last, rfl⟩ := List.eq_nil_or_concat rest
      · obtain ⟨token, p⟩ := t
        obtain rfl : token = .endOfInput := hahead
        rfl
      · -- the end of the input would stand before the last token
        rw [List.concat_eq_append, ← List.cons_append, ← List.append_assoc] at hfront
        obtain ⟨rfl, -⟩ := List.append_inj' hfront rfl
        exact (hbody t (by simp) hahead).elim
  rw [openings, hfront, openingsAfter_append, hrest, List.append_nil]

theorem read_eq_of_tokenize (hsize : text.utf8ByteSize ≤ limits.maxInputBytes)
    (htokens : tokenize text = .ok tokens) :
    Program.read limits text = ((readProgram limits.maxNesting).run tokens).map Prod.fst := by
  rw [Program.read, if_neg (Nat.not_lt.mpr hsize), htokens]
  rfl

theorem filtered_readProgram (h : limit ≤ limit') (tokens : List Located) :
    Filtered limit limit .endOfInput (fun program depths => program.depths = depths) tokens
      ((readProgram limit).run tokens) ((readProgram limit').run tokens) :=
  filters_readProgram h

/-- What is read under higher limits is read under lower ones, up to the first opening that is too
deep. -/
theorem read_of_read (hsize : text.utf8ByteSize ≤ limits.maxInputBytes)
    (hnesting : limits.maxNesting ≤ limits'.maxNesting)
    (h : Program.read limits' text = .ok program) : ∃ tokens, tokenize text = .ok tokens ∧
    program.depths.length = (openings tokens).length ∧
    ((firstBeyond limits.maxNesting program.depths (openings tokens) = none ∧
        Program.read limits text = .ok program) ∨
      ∃ position,
        firstBeyond limits.maxNesting program.depths (openings tokens) = some position ∧
        Program.read limits text = .error (.nestingTooDeep limits.maxNesting position)) := by
  unfold Program.read at h
  split at h
  · cases h
  · obtain ⟨tokens, htokens, hrun⟩ := bind_eq_ok.mp h
    obtain ⟨rest, hreturns⟩ := returns_of_run' hrun
    have hfiltered := filtered_readProgram hnesting tokens
    rw [show (readProgram limits'.maxNesting).run tokens = _ from hreturns] at hfiltered
    refine ⟨tokens, htokens, ?_⟩
    rw [read_eq_of_tokenize hsize htokens]
    generalize (readProgram limits.maxNesting).run tokens = x at hfiltered ⊢
    -- the higher limit gave a value, so the lower one gives it too or stops before it
    cases hfiltered with
    | same hopened hnone =>
      obtain rfl := hopened.value
      rw [openings_of_readProgram htokens hreturns hopened.front]
      exact ⟨hopened.length, .inl ⟨hnone, rfl⟩⟩
    | beyond hopened hsome =>
      obtain rfl := hopened.value
      rw [openings_of_readProgram htokens hreturns hopened.front]
      exact ⟨hopened.length, .inr ⟨_, hsome, rfl⟩⟩

/-- What is refused under higher limits is refused under lower ones. -/
theorem read_of_read_error (hsize : text.utf8ByteSize ≤ limits.maxInputBytes)
    (hbytes : limits.maxInputBytes ≤ limits'.maxInputBytes)
    (hnesting : limits.maxNesting ≤ limits'.maxNesting) {e : ReadError}
    (h : Program.read limits' text = .error e) :
    Program.read limits text = .error e ∨ ∃ position,
      Program.read limits text = .error (.nestingTooDeep limits.maxNesting position) := by
  cases htokens : tokenize text with
  | error e' =>
    have hread : ∀ {limits : Limits}, text.utf8ByteSize ≤ limits.maxInputBytes →
        Program.read limits text = .error e' := by
      intro limits hsize
      rw [Program.read, if_neg (Nat.not_lt.mpr hsize), htokens]
      rfl
    obtain rfl := Except.error.inj (h.symm.trans (hread (Nat.le_trans hsize hbytes)))
    exact .inl (hread hsize)
  | ok tokens =>
    rw [read_eq_of_tokenize (Nat.le_trans hsize hbytes) htokens] at h
    rw [read_eq_of_tokenize hsize htokens]
    have hfiltered := filtered_readProgram hnesting tokens
    generalize (readProgram limits.maxNesting).run tokens = x at hfiltered ⊢
    generalize (readProgram limits'.maxNesting).run tokens = x' at hfiltered h
    cases hfiltered with
    | same | beyond => cases h
    | error e' => exact .inl h
    | before e' position => exact .inr ⟨position, rfl⟩

/-- Reading fails because the text is too large or because something is nested too deeply. -/
def ReadError.IsLimit : ReadError → Prop
  | .inputTooLarge .. | .nestingTooDeep .. => True
  | _ => False

theorem size_le_of_read (h : Program.read limits text = .ok program) :
    text.utf8ByteSize ≤ limits.maxInputBytes := by
  unfold Program.read at h
  split at h
  · cases h
  · rename_i hsize
    exact Nat.le_of_not_lt hsize

theorem read_of_large (h : limits.maxInputBytes < text.utf8ByteSize) : Program.read limits text =
    .error (.inputTooLarge limits.maxInputBytes text.utf8ByteSize) := by
  rw [Program.read, if_pos h]

/-- What is read under limits is read under higher ones, as the same program. -/
theorem read_of_lower (hbytes : limits.maxInputBytes ≤ limits'.maxInputBytes)
    (hnesting : limits.maxNesting ≤ limits'.maxNesting)
    (h : Program.read limits text = .ok program) : Program.read limits' text = .ok program := by
  have hsize := size_le_of_read h
  cases h' : Program.read limits' text with
  | ok program' =>
    obtain ⟨-, -, -, ⟨-, hread⟩ | ⟨_, -, hread⟩⟩ := read_of_read hsize hnesting h'
    · exact hread.symm.trans h
    · cases hread.symm.trans h
  | error e =>
    rcases read_of_read_error hsize hbytes hnesting h' with hread | ⟨_, hread⟩
    · cases hread.symm.trans h
    · cases hread.symm.trans h

/-- Under lower limits a program is read exactly if its text is small enough and it nests no deeper
than they allow. -/
theorem read_iff_of_read (hnesting : limits.maxNesting ≤ limits'.maxNesting)
    (h : Program.read limits' text = .ok program) :
    Program.read limits text = .ok program ↔
      text.utf8ByteSize ≤ limits.maxInputBytes ∧ program.nesting ≤ limits.maxNesting := by
  constructor
  · intro hread
    have hsize := size_le_of_read hread
    obtain ⟨tokens, -, hlength, ⟨hnone, -⟩ | ⟨_, -, hread'⟩⟩ := read_of_read hsize hnesting h
    · exact ⟨hsize, Program.nesting_le_iff.mpr ((firstBeyond_eq_none_iff hlength).mp hnone)⟩
    · cases hread.symm.trans hread'
  · rintro ⟨hsize, hdepth⟩
    obtain ⟨tokens, -, hlength, ⟨-, hread⟩ | ⟨_, hsome, -⟩⟩ := read_of_read hsize hnesting h
    · exact hread
    · rw [(firstBeyond_eq_none_iff hlength).mpr (Program.nesting_le_iff.mp hdepth)] at hsome
      cases hsome

/-- A program that nests deeper is refused at the first construct that opens too deep. -/
theorem read_of_deep (hnesting : limits.maxNesting ≤ limits'.maxNesting)
    (h : Program.read limits' text = .ok program)
    (hsize : text.utf8ByteSize ≤ limits.maxInputBytes)
    (hdeep : limits.maxNesting < program.nesting) :
    ∃ tokens position, tokenize text = .ok tokens ∧
      program.depths.length = (openings tokens).length ∧
      (program.depths.zip (openings tokens)).find? (limits.maxNesting < ·.1) =
        some (limits.maxNesting + 1, position) ∧
      Program.read limits text = .error (.nestingTooDeep limits.maxNesting position) := by
  obtain ⟨tokens, htokens, hlength, ⟨hnone, -⟩ | ⟨position, hsome, hread⟩⟩ :=
    read_of_read hsize hnesting h
  · have hdepth := Program.nesting_le_iff.mpr ((firstBeyond_eq_none_iff hlength).mp hnone)
    exact absurd hdepth (Nat.not_le_of_lt hdeep)
  · exact ⟨tokens, position, htokens, hlength,
      find?_zip_of_firstBeyond program.climbs hlength hsome, hread⟩

/-- **Limits only refuse.** What is read under limits is read under higher ones too, as the same
program. Under lower limits it is read exactly if it is small enough and nests no deeper than they
allow; otherwise it is refused as too large, or at the first construct that opens too deep. Other
errors are the same, unless a limit comes first. -/
theorem read_limits (hbytes : limits.maxInputBytes ≤ limits'.maxInputBytes)
    (hnesting : limits.maxNesting ≤ limits'.maxNesting) (text : String) :
    (∀ program, Program.read limits text = .ok program →
      Program.read limits' text = .ok program) ∧
    (∀ program, Program.read limits' text = .ok program →
      (Program.read limits text = .ok program ↔
        text.utf8ByteSize ≤ limits.maxInputBytes ∧ program.nesting ≤ limits.maxNesting) ∧
      (limits.maxInputBytes < text.utf8ByteSize → Program.read limits text =
        .error (.inputTooLarge limits.maxInputBytes text.utf8ByteSize)) ∧
      (text.utf8ByteSize ≤ limits.maxInputBytes → limits.maxNesting < program.nesting →
        ∃ tokens position, tokenize text = .ok tokens ∧
          program.depths.length = (openings tokens).length ∧
          (program.depths.zip (openings tokens)).find? (limits.maxNesting < ·.1) =
            some (limits.maxNesting + 1, position) ∧
          Program.read limits text = .error (.nestingTooDeep limits.maxNesting position) ∧
          (ReadError.nestingTooDeep limits.maxNesting position).message =
            "input nesting exceeds limit: depth " ++ toString (limits.maxNesting + 1) ++ " (max " ++
              toString limits.maxNesting ++ ") at " ++ toString position)) ∧
    (∀ e, Program.read limits' text = .error e → ¬e.IsLimit →
      Program.read limits text = .error e ∨
        ∃ e', Program.read limits text = .error e' ∧ e'.IsLimit) := by
  refine ⟨fun program => read_of_lower hbytes hnesting,
    fun program h => ⟨read_iff_of_read hnesting h, read_of_large, fun hsize hdeep => ?_⟩,
    fun e h _ => ?_⟩
  · obtain ⟨tokens, position, htokens, hlength, hfirst, hread⟩ :=
      read_of_deep hnesting h hsize hdeep
    exact ⟨tokens, position, htokens, hlength, hfirst, hread, rfl⟩
  · by_cases hsize : text.utf8ByteSize ≤ limits.maxInputBytes
    · refine (read_of_read_error hsize hbytes hnesting h).imp_right ?_
      rintro ⟨position, hread⟩
      exact ⟨_, hread, trivial⟩
    · exact .inr ⟨_, read_of_large (Nat.lt_of_not_le hsize), trivial⟩

end Texts

/-- A rule with a state in a list in a group, and another state. -/
def nestedText : String := "RULES\x7bif((x=[STATE(x)])):a(x):=b(STATE(x))\x7d"

/-- Three constructs are open at the same time in the rule, so it is refused at the third if only
two may be. A text that ends too early is refused for that under both limits. -/
theorem nested_limits : ∃ program,
    (Program.read ⟨60, 3⟩ nestedText = .ok program ∧
      Program.read ⟨60, 4⟩ nestedText = .ok program) ∧
    program.depths = [1, 2, 3, 1] ∧
    (∃ tokens, tokenize nestedText = .ok tokens ∧
      (program.depths.zip (openings tokens)).find? (2 < ·.1) = some (3, 13) ∧
      Program.read ⟨60, 2⟩ nestedText = .error (.nestingTooDeep 2 13)) ∧
    Program.read ⟨10, 3⟩ nestedText = .error (.inputTooLarge 10 43) ∧
    Program.read ⟨60, 2⟩ "RULES" = .error (.unexpectedToken .openBrace "end of input" 5) := by
  obtain ⟨program, hread, hdepths⟩ : ∃ program, Program.read ⟨60, 3⟩ nestedText = .ok program ∧
      program.depths = [1, 2, 3, 1] := map_eq_ok.mp (by decide +kernel)
  have hnesting : program.nesting = 3 := by
    rw [Program.nesting, hdepths]
    rfl
  have htwo : Program.read ⟨60, 2⟩ nestedText = .error (.nestingTooDeep 2 13) := by
    decide +kernel
  have hbroken : Program.read ⟨60, 4⟩ "RULES" =
      .error (.unexpectedToken .openBrace "end of input" 5) := by decide +kernel
  have hhigher := @read_limits ⟨60, 3⟩ ⟨60, 4⟩ (by decide) (by decide) nestedText
  obtain ⟨-, -, hdeep⟩ := (@read_limits ⟨60, 2⟩ ⟨60, 3⟩ (by decide) (by decide) nestedText).2.1
    program hread
  obtain ⟨-, hlarge, -⟩ := (@read_limits ⟨10, 3⟩ ⟨60, 3⟩ (by decide) (by decide) nestedText).2.1
    program hread
  have hsame := (@read_limits ⟨60, 2⟩ ⟨60, 4⟩ (by decide) (by decide) "RULES").2.2 _ hbroken id
  obtain ⟨tokens, position, htokens, -, hfirst, hread', -⟩ := hdeep (by decide)
    (hnesting ▸ Nat.lt_succ_self 2)
  obtain rfl : 13 = position := by
    simpa using htwo.symm.trans hread'
  refine ⟨program, ⟨hread, hhigher.1 program hread⟩, hdepths, ⟨tokens, htokens, hfirst, htwo⟩,
    hlarge (by decide), ?_⟩
  rcases hsame with hsame | ⟨e, he, hlimit⟩
  · exact hsame
  · have hfound : Program.read ⟨60, 2⟩ "RULES" =
        .error (.unexpectedToken .openBrace "end of input" 5) := by decide +kernel
    obtain rfl := Except.error.inj (he.symm.trans hfound)
    exact hlimit.elim

end CausalRules
