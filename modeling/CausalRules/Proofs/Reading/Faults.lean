import CausalRules.Proofs.Reading.Gaps
import CausalRules.Proofs.Reading.Predicates

/-!
# Where a text is refused

A text is refused at a character that no token begins with, or at a token. Each error tells which, and
the offset in it is taken from there.

- `Token.Unread`: what no token can be read from, with the error that says so.
- `tokenize_fault`: a text without tokens is tokens and gaps up to what cannot be read.
- `ReadError.Blames`: what a list of tokens may be refused for. A continuation that is refused is one
  of the tokens.
- `Within`: a reader fails for what its tokens may be refused for, with one rule for each step of a
  reader and then one lemma for each reader.
-/

namespace CausalRules

/-! ## Characters -/

namespace Token

/-- Characters that begin with no token, and the error that this is. -/
inductive Unread (position : Nat) : List Char → ReadError → Prop
  | sign (expected : Expected) (c : Char) (rest : List Char) :
    Unread position (c :: rest) (.unexpectedToken expected c.toString position)
  | opening (rest : List Char) : Unread position ("PYTHON".toList ++ rest)
      (.unexpectedToken .pythonOpening (String.ofList (rest.take 2)) (position + 6))
  | unterminated {body : List Char}
      (hbody : ∀ code rest, '#' ∉ code → body ≠ code ++ '#' :: ')' :: rest) :
    Unread position ("PYTHON(#".toList ++ body) (.unterminatedPython position)
  | character (c : Char) (rest : List Char) :
    Unread position (c :: rest) (.unexpectedCharacter c position)

variable {position : Nat} {c : Char} {cs : List Char} {e : ReadError}

theorem ne_of_not_mem_code {code : List Char} (h : '#' ∉ code) : ∀ d ∈ code, (d != '#') = true := by
  intro d hd
  rw [bne_iff_ne]
  rintro rfl
  exact h hd

/-- Code with no `#` in it is found again in front of its end. -/
theorem takeWhile_code {code rest : List Char} (h : '#' ∉ code) :
    (code ++ '#' :: rest).takeWhile (· != '#') = code := by
  rw [List.takeWhile_append_of_pos (ne_of_not_mem_code h)]
  exact List.append_nil code

theorem dropWhile_code {code rest : List Char} (h : '#' ∉ code) :
    (code ++ '#' :: rest).dropWhile (· != '#') = '#' :: rest := by
  rw [List.dropWhile_append_of_pos (ne_of_not_mem_code h)]
  rfl

theorem unread_of_readPython {after : List Char} (h : readPython position after = .error e) :
    Unread position ("PYTHON".toList ++ after) e := by
  unfold readPython at h
  split at h
  · rename_i body
    split at h
    · cases h
    · rename_i hopen
      cases h
      refine .unterminated fun code rest hcode hbody => ?_
      exact hopen rest (hbody ▸ dropWhile_code hcode)
  · cases h
    exact .opening after

theorem unread_of_readWord (h : readWord position c cs = .error e) :
    Unread position (c :: cs) e := by
  unfold readWord at h
  dsimp only at h
  split at h
  · rename_i hpython
    have hword := List.takeWhile_append_dropWhile (p := isWordChar) (l := cs)
    have htext : c :: cs = "PYTHON".toList ++ cs.dropWhile isWordChar := by
      rw [← hword, ← List.cons_append, hpython, hword]
      rfl
    rw [htext]
    exact unread_of_readPython h
  · cases h

/-- Where no token can be read, the error tells why. -/
theorem unread_of_read (h : read position c cs = .error e) : Unread position (c :: cs) e := by
  unfold read loneSign at h
  split at h
  case h_25 =>
    split at h
    · cases h
    · split at h
      · exact unread_of_readWord h
      · cases h
        exact .character c cs
  all_goals
    cases h
  all_goals exact .sign _ _ _

end Token

/-- Scanning passes over tokens and gaps until it fails. -/
theorem scanFrom_fault {found : List Located} {position : Nat} {text : List Char} {e : ReadError}
    (h : scanFrom found position text = .error e) :
    e = .emptyInput ∨ ∃ before rest tokens, text = before.toList ++ rest ∧
      Spread position before tokens ∧ Token.Unread (position + before.utf8ByteSize) rest e := by
  fun_induction scanFrom found position text with
  | case1 =>
    cases h
    exact .inl rfl
  | case2 => cases h
  | case3 found position c rest hc ih =>
    refine (ih h).imp_right ?_
    rintro ⟨before, after, tokens, rfl, hspread, hunread⟩
    refine ⟨String.singleton c ++ before, after, tokens, ?_, hspread.cons hc, ?_⟩
    · rw [String.toList_append, String.toList_singleton]
      rfl
    · rwa [String.utf8ByteSize_append, utf8ByteSize_of_isLayout hc, ← Nat.add_assoc]
  | case4 found position c rest _ error hread =>
    cases h
    exact .inr ⟨"", c :: rest, _, rfl, Spread.ends isGap_empty, Token.unread_of_read hread⟩
  | case5 found position c rest _ token after hread _ ih =>
    refine (ih h).imp_right ?_
    rintro ⟨before, later, tokens, rfl, hspread, hunread⟩
    obtain ⟨htext, hend⟩ := Token.written_of_read hread
    refine ⟨token.text ++ before, later, ⟨token, position⟩ :: tokens, ?_, ?_, ?_⟩
    · rw [Token.text_of_read hread, String.toList_append, List.append_assoc]
    · have htoken := @Spread.token position "" _ _ _ isGap_empty hend htext hspread
      rwa [String.empty_append] at htoken
    · rwa [String.utf8ByteSize_append, ← Nat.add_assoc]

/-- A text without tokens is nothing but a gap, or it is tokens and gaps up to what cannot be
read. -/
theorem tokenize_fault {text : String} {e : ReadError} (h : tokenize text = .error e) :
    e = .emptyInput ∨ ∃ before after tokens, text = before ++ after ∧ Spread 0 before tokens ∧
      Token.Unread before.utf8ByteSize after.toList e := by
  refine (scanFrom_fault h).imp_right ?_
  rintro ⟨before, rest, tokens, htext, hspread, hunread⟩
  rw [Nat.zero_add] at hunread
  refine ⟨before, String.ofList rest, tokens, String.toList_inj.mp ?_, hspread, ?_⟩
  · rw [htext, String.toList_append, String.toList_ofList]
  · rwa [String.toList_ofList]

/-! ## Tokens -/

/-- What a list of tokens may be refused for. Only a text without tokens is refused for a character or
for code that does not end. -/
def ReadError.Blames (tokens : List Located) : ReadError → Prop
  | .invalidContinuation _ position => ∃ suffix, ⟨.continuation suffix, position⟩ ∈ tokens
  | .nestingTooDeep .. | .unexpectedToken .. | .trailingInput _ => True
  | .emptyInput | .inputTooLarge .. | .unexpectedCharacter .. | .unterminatedPython _ => False

namespace Reader

variable {tokens s : List Located} {α β : Type} {P : α → Prop} {Q : β → Prop}

variable (tokens) in
/-- A reader returns what has a property and leaves some of the tokens, or it refuses them for what
they may be refused for. -/
def Within (P : α → Prop) (r : Reader α) (s : List Located) : Prop :=
  match r.run s with
  | .ok (a, rest) => P a ∧ rest ⊆ tokens
  | .error e => e.Blames tokens

theorem mem_of_ahead {t : Located} (h : ahead s = t) (hend : t.token ≠ .endOfInput) : t ∈ s := by
  cases s with
  | nil => exact (hend (h ▸ rfl)).elim
  | cons first rest => exact h ▸ List.mem_cons_self ..

section Steps

variable {r : Reader α} {k : α → Reader β}

theorem within_pure {a : α} (ha : P a) (h : s ⊆ tokens) : Within tokens P (pure a) s :=
  ⟨ha, h⟩

theorem within_throw {e : ReadError} (he : e.Blames tokens) : Within tokens P (throw e) s :=
  he

theorem within_bind (h : Within tokens P r s)
    (hk : ∀ a t, P a → t ⊆ tokens → Within tokens Q (k a) t) :
    Within tokens Q (r >>= k) s := by
  have hrun : (r >>= k).run s = r.run s >>= fun x => (k x.1).run x.2 := rfl
  unfold Within at h ⊢
  rw [hrun]
  cases hr : r.run s with
  | error e =>
    rw [hr] at h
    exact h
  | ok x =>
    rw [hr] at h
    exact hk x.1 x.2 h.1 h.2

theorem within_mono {P' : α → Prop} (h : Within tokens P r s) (himp : ∀ a, P a → P' a) :
    Within tokens P' r s := by
  unfold Within at h ⊢
  split at h
  · exact ⟨himp _ h.1, h.2⟩
  · exact h

theorem within_map {f : α → β} (h : Within tokens P r s) (hf : ∀ a, P a → Q (f a)) :
    Within tokens Q (f <$> r) s := by
  rw [map_eq_pure_bind]
  exact within_bind h fun a t ha ht => within_pure (hf a ha) ht

theorem within_lift {x : Except ReadError α} (hok : ∀ a, x = .ok a → P a)
    (herror : ∀ e, x = .error e → e.Blames tokens) (h : s ⊆ tokens) :
    Within tokens P (liftM x) s := by
  cases x with
  | ok a => exact ⟨hok a rfl, h⟩
  | error e => exact herror e rfl

/-- The tokens left may be handed on. -/
theorem within_get {k : List Located → Reader β} (h : Within tokens Q (k s) s) :
    Within tokens Q (get >>= k) s :=
  h

/-- A reader goes on with the first token left. -/
theorem within_current {k : Located → Reader β}
    (hk : ∀ token p, ahead s = ⟨token, p⟩ → Within tokens Q (k ⟨token, p⟩) s) :
    Within tokens Q (current >>= k) s :=
  hk _ _ rfl

theorem within_skip (h : s ⊆ tokens) : Within tokens (fun _ => True) skip s :=
  ⟨trivial, fun _ ht => h (List.mem_of_mem_tail ht)⟩

/-- The first token is passed over, and a value is returned. -/
theorem within_take {a : α} (ha : P a) (h : s ⊆ tokens) :
    Within tokens P (skip >>= fun _ => pure a) s :=
  within_bind (within_skip h) fun _ _ _ ht => within_pure ha ht

theorem within_unexpected {expected : Expected} : Within tokens P (unexpected expected) s :=
  within_current fun _ _ _ => within_throw trivial

theorem within_accept {token : Token} (h : s ⊆ tokens) :
    Within tokens (fun _ => True) (accept token) s := by
  refine within_current fun first p _ => ?_
  dsimp only
  split
  · exact within_take trivial h
  · exact within_pure trivial h

theorem within_expect {token : Token} {expected : Expected} (h : s ⊆ tokens) :
    Within tokens (fun _ => True) (expect token expected) s := by
  refine within_bind (within_accept h) fun taken t _ ht => ?_
  cases taken with
  | true => exact within_pure trivial ht
  | false => exact within_unexpected

section Items

variable {separator : Token} (hitem : ∀ t, t ⊆ tokens → Within tokens P r t)

include hitem

theorem within_moreItems {bound : List Located} {found : List α} (hfound : ∀ a ∈ found, P a)
    (h : s ⊆ tokens) :
    Within tokens (fun items => ∀ a ∈ items, P a) (moreItems separator r bound found) s := by
  induction bound generalizing found s with
  | nil => exact within_pure (fun a ha => hfound a (List.mem_reverse.mp ha)) h
  | cons _ bound ih =>
    refine within_bind (within_accept h) fun taken t _ ht => ?_
    cases taken with
    | false => exact within_pure (fun a ha => hfound a (List.mem_reverse.mp ha)) ht
    | true =>
      exact within_bind (hitem t ht) fun _ _ ha hu =>
        ih (List.forall_mem_cons.mpr ⟨ha, hfound⟩) hu

theorem within_separated (h : s ⊆ tokens) :
    Within tokens (fun items => ∀ a ∈ items, P a) (separated separator r) s :=
  within_bind (hitem s h) fun _ _ ha ht =>
    within_get (within_moreItems hitem (List.forall_mem_cons.mpr ⟨ha, nofun⟩) ht)

end Items

end Steps

end Reader

open Reader

variable {tokens s : List Located} {limit depth : Nat}

/-! ### Arguments -/

theorem within_readWhole (h : s ⊆ tokens) : Within tokens (fun _ => True) readWhole s := by
  refine within_current fun token p _ => ?_
  cases token with
  | digits => exact within_take trivial h
  | dot => exact within_pure trivial h
  | _ => exact within_unexpected

theorem within_readFraction (h : s ⊆ tokens) : Within tokens (fun _ => True) readFraction s := by
  refine within_bind (within_accept h) fun taken t _ ht => ?_
  cases taken with
  | false => exact within_pure trivial ht
  | true =>
    refine within_current fun token p _ => ?_
    cases token with
    | digits => exact within_take trivial ht
    | _ => exact within_unexpected

theorem within_readNumber (h : s ⊆ tokens) : Within tokens (fun _ => True) readNumber s :=
  within_bind (within_accept h) fun _ _ _ h =>
    within_bind (within_readWhole h) fun _ _ _ h =>
      within_bind (within_readFraction h) fun _ _ _ h => within_pure trivial h

/-- A continuation is read from the token that stands for one. -/
def FromMarker (t : Located) (arg : Arg) : Prop :=
  arg.continuation?.isSome → ∃ suffix, t.token = .continuation suffix

theorem within_readLiteral (h : s ⊆ tokens) :
    Within tokens (fun arg => arg.continuation? = none) readLiteral s := by
  have hnumber := within_map (Q := fun _ : String => True) (f := Number.text)
    (within_readNumber h) fun _ _ => trivial
  have htext : Within tokens (fun _ => True) readLiteralText s := by
    refine within_current fun token p _ => ?_
    cases token with
    | ident => exact within_take trivial h
    | digits | dot | minus => exact hnumber
    | _ => exact within_unexpected
  exact within_bind htext fun _ _ _ h =>
    within_bind (within_expect h) fun _ _ _ h => within_pure rfl h

theorem within_readPlainArg (h : s ⊆ tokens) :
    Within tokens (FromMarker (ahead s)) readPlainArg s := by
  refine within_current fun token p hahead => ?_
  have hnumber := within_map (Q := FromMarker (ahead s)) (f := Arg.number) (within_readNumber h)
    fun _ _ => nofun
  cases token with
  | digits | dot | minus => exact hnumber
  | ident | python => exact within_take nofun h
  | continuation suffix =>
    dsimp only
    split
    · exact within_take (fun _ => ⟨suffix, congrArg Located.token hahead⟩) h
    · exact within_throw ⟨suffix, h (mem_of_ahead hahead nofun)⟩
  | _ => exact within_unexpected

/-- The arguments with the offsets of their first tokens, where a continuation is one token. -/
def Marked (tokens : List Located) (x : Nat × Arg) : Prop :=
  x.2.continuation?.isSome → ∃ suffix, ⟨.continuation suffix, x.1⟩ ∈ tokens

theorem blames_of_checkContinuation {before : Nat} {args : List (Nat × Arg)} {e : ReadError}
    (hargs : ∀ x ∈ args, Marked tokens x) (h : checkContinuation before args = .error e) :
    e.Blames tokens := by
  fun_induction checkContinuation before args with
  | case1 => cases h
  | case2 before position offset rest =>
    cases h
    exact hargs _ (List.mem_cons_self ..) rfl
  | case3 before position offset rest =>
    cases h
    exact hargs _ (List.mem_cons_self ..) rfl
  | case4 => cases h
  | case5 before _ rest _ ih => exact ih (List.forall_mem_cons.mp hargs).2 h

theorem within_readArgs {arg : Reader Arg} {closing : Token} {expected : Expected}
    (harg : ∀ t, t ⊆ tokens → Within tokens (FromMarker (ahead t)) arg t) (h : s ⊆ tokens) :
    Within tokens (fun _ => True) (readArgs arg closing expected) s := by
  refine within_bind (P := fun args => ∀ x ∈ args, Marked tokens x)
    (within_separated (fun t ht => ?_) h) fun args t hargs ht => ?_
  · refine within_current fun token p hahead => within_bind (harg t ht) fun a _ ha hu => ?_
    refine within_pure (fun hsome => ?_) hu
    obtain ⟨suffix, rfl⟩ : ∃ suffix, token = .continuation suffix := by
      rw [hahead] at ha
      exact ha hsome
    exact ⟨suffix, ht (mem_of_ahead hahead nofun)⟩
  · refine within_bind (within_expect ht) fun _ u _ hu => ?_
    exact within_bind (within_lift (fun _ _ => trivial)
      (fun _ => blames_of_checkContinuation hargs) hu) fun _ _ _ hv => within_pure trivial hv

theorem within_readArgWith {stateArgs : Nat → Reader (List Arg)}
    (hargs : ∀ p t, t ⊆ tokens → Within tokens (fun _ => True) (stateArgs p) t) (h : s ⊆ tokens) :
    Within tokens (FromMarker (ahead s)) (readArgWith stateArgs) s := by
  refine within_current fun token p _ => ?_
  cases token with
  | quote =>
    exact within_bind (within_skip h) fun _ _ _ ht =>
      within_mono (within_readLiteral ht) fun arg harg hsome => by simp [harg] at hsome
  | stateWord =>
    exact within_bind (within_skip h) fun _ _ _ ht =>
      within_bind (within_expect ht) fun _ u _ hu =>
        within_map (hargs p u hu) fun _ _ => nofun
  | _ => exact within_readPlainArg h

theorem within_readArg (h : s ⊆ tokens) :
    Within tokens (FromMarker (ahead s)) (readArg limit depth) s := by
  induction depth generalizing s with
  | zero => exact within_readArgWith (fun _ _ _ => within_throw trivial) h
  | succ depth ih => exact within_readArgWith (fun _ _ => within_readArgs fun _ => ih) h

theorem within_readAction (h : s ⊆ tokens) :
    Within tokens (fun _ => True) (readAction limit) s := by
  refine within_current fun token p _ => ?_
  cases token with
  | ident =>
    refine within_bind (within_skip h) fun _ _ _ ht => ?_
    refine within_bind (within_expect ht) fun _ _ _ hu => ?_
    refine within_bind (within_accept hu) fun taken v _ hv => ?_
    cases taken with
    | true => exact within_pure trivial hv
    | false =>
      exact within_bind (within_readArgs (fun _ => within_readArg) hv) fun _ _ _ hw =>
        within_pure trivial hw
  | _ => exact within_unexpected

/-! ### Conditions -/

theorem within_readCallName {expected : Expected} (h : s ⊆ tokens) :
    Within tokens (fun _ => True) (readCallName expected) s := by
  refine within_bind (within_expect h) fun _ t _ ht => ?_
  refine within_current fun token p _ => ?_
  cases token with
  | ident =>
    exact within_bind (within_skip ht) fun _ _ _ hu =>
      within_bind (within_expect hu) fun _ _ _ hv => within_pure trivial hv
  | _ => exact within_unexpected

theorem within_readOperand (h : s ⊆ tokens) :
    Within tokens (fun _ => True) (readOperand limit depth) s := by
  refine within_current fun token p hahead => ?_
  -- what no other operand begins with is read as an argument
  have hvalue : Within tokens (fun _ => True)
      (readArg limit depth >>= fun arg => do
        if arg.continuation?.isSome then throw (.invalidContinuation .outsideList p)
        return Operand.value arg) s := by
    refine within_bind (within_readArg h) fun arg t harg ht => ?_
    split
    · rename_i hsome
      obtain ⟨suffix, rfl⟩ : ∃ suffix, token = .continuation suffix := by
        rw [hahead] at harg
        exact harg hsome
      exact within_throw ⟨suffix, h (mem_of_ahead hahead nofun)⟩
    · exact within_pure trivial ht
  cases token with
  | allWord | typeWord =>
    exact within_bind (within_skip h) fun _ _ _ ht =>
      within_map (within_readCallName ht) fun _ _ => trivial
  | openBracket =>
    refine within_bind (within_skip h) fun _ t _ ht => ?_
    cases depth with
    | zero => exact within_throw trivial
    | succ depth =>
      refine within_map (P := fun _ => True) ?_ fun _ _ => trivial
      refine within_bind (within_accept ht) fun taken u _ hu => ?_
      cases taken with
      | true => exact within_pure trivial hu
      | false => exact within_readArgs (fun _ => within_readArg) hu
  | _ => exact hvalue

theorem within_readPredicate (h : s ⊆ tokens) :
    Within tokens (fun _ => True) (readPredicate limit depth) s := by
  refine within_current fun _ p _ => within_bind (within_readOperand h) fun left t _ ht => ?_
  refine within_current fun token _ _ => ?_
  dsimp only
  split
  · exact within_bind (within_skip ht) fun _ _ _ hu =>
      within_bind (within_readOperand hu) fun _ _ _ hv => within_pure trivial hv
  · exact within_pure trivial ht

section Chain

variable {item : Reader Condition}
  (hitem : ∀ t, t ⊆ tokens → Within tokens (fun _ => True) item t)

include hitem

theorem within_moreChain {bound : List Located} {last : Condition}
    {before : List (Condition × Connective)} (h : s ⊆ tokens) :
    Within tokens (fun _ => True) (moreChain item bound last before) s := by
  induction bound generalizing last before s with
  | nil => exact within_pure trivial h
  | cons _ bound ih =>
    refine within_current fun token _ _ => ?_
    dsimp only
    split
    · exact within_bind (within_skip h) fun _ t _ ht =>
        within_bind (hitem t ht) fun _ _ _ hu => ih hu
    · exact within_pure trivial h

theorem within_readChain (h : s ⊆ tokens) :
    Within tokens (fun _ => True) (readChain item) s :=
  within_bind (hitem s h) fun _ _ _ ht => within_get (within_moreChain hitem ht)

end Chain

theorem within_readItem {inside : Nat → Reader Condition}
    (hinside : ∀ p t, t ⊆ tokens → Within tokens (fun _ => True) (inside p) t) (h : s ⊆ tokens) :
    Within tokens (fun _ => True) (readItem limit depth inside) s := by
  refine within_current fun _ p _ => within_bind (within_accept h) fun taken t _ ht => ?_
  cases taken with
  | true =>
    exact within_bind (hinside p t ht) fun _ _ _ hu =>
      within_bind (within_expect hu) fun _ _ _ hv => within_pure trivial hv
  | false =>
    exact within_bind (within_readPredicate ht) fun _ _ _ hu => within_pure trivial hu

theorem within_readCondition (h : s ⊆ tokens) :
    Within tokens (fun _ => True) (readCondition limit depth) s := by
  induction depth generalizing s with
  | zero =>
    exact within_readChain (fun _ => within_readItem fun _ _ _ => within_throw trivial) h
  | succ depth ih => exact within_readChain (fun _ => within_readItem fun _ _ => ih) h

/-! ### Rules -/

theorem within_readGuard (h : s ⊆ tokens) :
    Within tokens (fun _ => True) (readGuard limit) s := by
  refine within_bind (within_accept h) fun taken t _ ht => ?_
  cases taken with
  | false => exact within_pure trivial ht
  | true =>
    exact within_bind (within_expect ht) fun _ _ _ h =>
      within_bind (within_readCondition h) fun _ _ _ h =>
        within_bind (within_expect h) fun _ _ _ h =>
          within_bind (within_expect h) fun _ _ _ h => within_pure trivial h

theorem within_readRule (h : s ⊆ tokens) : Within tokens (fun _ => True) (readRule limit) s :=
  within_current fun _ _ _ =>
    within_bind (within_readGuard h) fun _ _ _ h =>
      within_bind (within_readAction h) fun _ _ _ h =>
        within_bind (within_expect h) fun _ _ _ h =>
          within_bind (within_separated (fun _ => within_readAction) h) fun _ _ _ h =>
            within_pure trivial h

theorem within_moreRules {bound : List Located} {found : List Rule} (h : s ⊆ tokens) :
    Within tokens (fun _ => True) (moreRules limit bound found) s := by
  induction bound generalizing found s with
  | nil => exact within_pure trivial h
  | cons _ bound ih =>
    refine within_bind (within_accept h) fun taken t _ ht => ?_
    cases taken with
    | false => exact within_pure trivial ht
    | true =>
      refine within_current fun token _ _ => ?_
      dsimp only
      split
      · exact within_pure trivial ht
      · exact within_bind (within_readRule ht) fun _ _ _ hu => ih hu

theorem within_readProgram (h : s ⊆ tokens) :
    Within tokens (fun _ => True) (readProgram limit) s := by
  have hrules : Within tokens (fun _ => True) (readRules limit) s := by
    refine within_bind (within_expect h) fun _ _ _ h => within_bind (within_expect h) fun _ t _ ht => ?_
    refine within_current fun token _ _ => ?_
    dsimp only
    split
    · exact within_bind (P := fun _ => False) within_unexpected fun _ _ hfalse => hfalse.elim
    · exact within_bind (within_readRule ht) fun _ _ _ h =>
        within_get (within_bind (within_moreRules h) fun _ _ _ h =>
          within_bind (within_expect h) fun _ _ _ h => within_pure trivial h)
  refine within_bind hrules fun _ t _ ht => within_current fun token _ _ => ?_
  dsimp only
  split
  · exact within_pure trivial ht
  · exact within_throw trivial

/-- A text that has tokens is refused for them. -/
theorem Program.blames_of_read {limits : Limits} {text : String} {e : ReadError}
    (htokens : tokenize text = .ok tokens) (hsize : text.utf8ByteSize ≤ limits.maxInputBytes)
    (h : Program.read limits text = .error e) : e.Blames tokens := by
  rw [Program.read, if_neg (Nat.not_lt.mpr hsize), htokens] at h
  have hwithin := @within_readProgram tokens tokens limits.maxNesting (List.Subset.refl _)
  unfold Within at hwithin
  cases hrun : (readProgram limits.maxNesting).run tokens with
  | error e' =>
    rw [hrun] at hwithin
    obtain rfl : e' = e := by
      change ((readProgram limits.maxNesting).run tokens >>= fun x => pure x.1) = .error e at h
      rw [hrun] at h
      exact Except.error.inj h
    exact hwithin
  | ok x =>
    change ((readProgram limits.maxNesting).run tokens >>= fun x => pure x.1) = .error e at h
    rw [hrun] at h
    cases h

end CausalRules
