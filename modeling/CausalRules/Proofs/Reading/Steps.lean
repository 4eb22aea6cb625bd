import CausalRules.Reader

/-!
# What a reader returns

A reader that succeeds on a list of tokens returns a value and leaves the tokens that it did not
take. `Returns` is that relation; for each step of a reader there is one lemma that says when it
holds, so that a reader is taken apart without unfolding the monad.

- `Returns`: a reader, given tokens, returns a value and leaves the rest.
- `Passed`: at least one token was taken from the front.
- `separated_returns`: what holds of every item of a list that was read.
-/

namespace CausalRules.Reader

variable {α β : Type}

/-- A reader, given tokens, returns a value and leaves the rest of the tokens. -/
def Returns (r : Reader α) (s : List Located) (a : α) (rest : List Located) : Prop :=
  r.run s = .ok (a, rest)

/-- The first token left. -/
def ahead (s : List Located) : Located :=
  s.headD ⟨.endOfInput, 0⟩

section Steps

variable {r : Reader α} {f : α → Reader β} {s rest : List Located} {a : α} {b : β}

theorem returns_bind :
    Returns (r >>= f) s b rest ↔ ∃ a m, Returns r s a m ∧ Returns (f a) m b rest := by
  show (r.run s >>= fun p => (f p.1).run p.2) = _ ↔ _
  constructor
  · intro h
    cases hr : r.run s with
    | error e =>
      rw [hr] at h
      cases h
    | ok p =>
      rw [hr] at h
      exact ⟨p.1, p.2, hr, h⟩
  · rintro ⟨a, m, hr, hf⟩
    rw [show r.run s = .ok (a, m) from hr]
    exact hf

theorem returns_pure {c : α} : Returns (pure a : Reader α) s c rest ↔ c = a ∧ rest = s := by
  constructor
  · intro h
    obtain ⟨rfl, rfl⟩ := Prod.mk.inj (Except.ok.inj h)
    exact ⟨rfl, rfl⟩
  · rintro ⟨rfl, rfl⟩
    rfl

theorem returns_map {g : α → β} :
    Returns (g <$> r) s b rest ↔ ∃ a, Returns r s a rest ∧ b = g a := by
  rw [map_eq_pure_bind, returns_bind]
  constructor
  · rintro ⟨a, m, hr, hg⟩
    obtain ⟨rfl, rfl⟩ := returns_pure.mp hg
    exact ⟨a, hr, rfl⟩
  · rintro ⟨a, hr, rfl⟩
    exact ⟨a, rest, hr, returns_pure.mpr ⟨rfl, rfl⟩⟩

theorem not_returns_throw {e : ReadError} : ¬ Returns (throw e : Reader α) s a rest := by
  intro h
  cases h

theorem returns_lift {x : Except ReadError α} :
    Returns (liftM x : Reader α) s a rest ↔ x = .ok a ∧ rest = s := by
  cases x with
  | error e =>
    constructor
    · intro h
      cases h
    · rintro ⟨h, -⟩
      cases h
  | ok c =>
    constructor
    · intro h
      obtain ⟨rfl, rfl⟩ := Prod.mk.inj (Except.ok.inj h)
      exact ⟨rfl, rfl⟩
    · rintro ⟨h, rfl⟩
      obtain rfl := Except.ok.inj h
      rfl

theorem returns_get {t : List Located} :
    Returns (get : Reader (List Located)) s t rest ↔ t = s ∧ rest = s := by
  constructor
  · intro h
    obtain ⟨rfl, rfl⟩ := Prod.mk.inj (Except.ok.inj h)
    exact ⟨rfl, rfl⟩
  · rintro ⟨rfl, rfl⟩
    rfl

theorem returns_current {t : Located} : Returns current s t rest ↔ t = ahead s ∧ rest = s := by
  constructor
  · intro h
    obtain ⟨rfl, rfl⟩ := Prod.mk.inj (Except.ok.inj h)
    exact ⟨rfl, rfl⟩
  · rintro ⟨rfl, rfl⟩
    rfl

/-- A reader that looks at the first token goes on with it. -/
theorem returns_current_bind {k : Located → Reader β} :
    Returns (current >>= k) s b rest ↔ Returns (k (ahead s)) s b rest :=
  Iff.rfl

/-- A reader that asks for the tokens left goes on with them. -/
theorem returns_get_bind {k : List Located → Reader β} :
    Returns (get >>= k) s b rest ↔ Returns (k s) s b rest :=
  Iff.rfl

theorem returns_skip {u : Unit} : Returns skip s u rest ↔ rest = s.tail := by
  constructor
  · intro h
    exact (Prod.mk.inj (Except.ok.inj h)).2.symm
  · rintro rfl
    rfl

theorem not_returns_unexpected {expected : Expected} :
    ¬ Returns (unexpected expected : Reader α) s a rest := by
  intro h
  cases h

/-- A reader whose last tokens do not matter. -/
theorem returns_of_run' (h : r.run' s = .ok a) : ∃ rest, Returns r s a rest := by
  cases hr : r.run s with
  | error e =>
    rw [StateT.run', show r s = .error e from hr] at h
    cases h
  | ok p =>
    rw [StateT.run', show r s = .ok p from hr] at h
    obtain rfl := Except.ok.inj h
    exact ⟨p.2, hr⟩

theorem run'_of_returns (h : Returns r s a rest) : r.run' s = .ok a := by
  rw [StateT.run', show r s = .ok (a, rest) from h]
  rfl

/-- A token is accepted exactly when it stands first. -/
theorem returns_accept {token : Token} {taken : Bool} :
    Returns (accept token) s taken rest ↔
      taken = decide ((ahead s).token = token) ∧ rest = if taken then s.tail else s := by
  rw [accept, returns_bind]
  constructor
  · rintro ⟨t, m, hcurrent, hif⟩
    obtain ⟨rfl, rfl⟩ := returns_current.mp hcurrent
    split at hif
    · rename_i htoken
      obtain ⟨u, m, hskip, hpure⟩ := returns_bind.mp hif
      obtain ⟨rfl, rfl⟩ := returns_pure.mp hpure
      exact ⟨(decide_eq_true htoken).symm, returns_skip.mp hskip⟩
    · rename_i htoken
      obtain ⟨rfl, rfl⟩ := returns_pure.mp hif
      exact ⟨(decide_eq_false htoken).symm, rfl⟩
  · rintro ⟨rfl, rfl⟩
    refine ⟨ahead s, s, returns_current.mpr ⟨rfl, rfl⟩, ?_⟩
    by_cases htoken : (ahead s).token = token
    · simp only [htoken, if_true, decide_true]
      exact returns_bind.mpr
        ⟨(), s.tail, returns_skip.mpr rfl, returns_pure.mpr ⟨rfl, rfl⟩⟩
    · simp only [htoken, if_false, decide_false]
      exact returns_pure.mpr ⟨rfl, rfl⟩

/-- An expected token stands first. -/
theorem returns_expect {token : Token} {expected : Expected} {u : Unit}
    (h : Returns (expect token expected) s u rest) : (ahead s).token = token ∧ rest = s.tail := by
  obtain ⟨taken, m, haccept, hunless⟩ := returns_bind.mp h
  obtain ⟨htaken, rfl⟩ := returns_accept.mp haccept
  cases taken with
  | true => exact ⟨of_decide_eq_true htaken.symm, (returns_pure.mp hunless).2⟩
  | false => exact (not_returns_unexpected hunless).elim

end Steps

/-! ## Progress -/

/-- At least one token was taken from the front. -/
def Passed (s rest : List Located) : Prop :=
  s ≠ [] ∧ rest <:+ s.tail

section Progress

variable {s m rest : List Located}

theorem Passed.suffix (h : Passed s rest) : rest <:+ s :=
  h.2.trans (List.tail_suffix s)

theorem Passed.trans (h : Passed s m) (hrest : rest <:+ m) : Passed s rest :=
  ⟨h.1, hrest.trans h.2⟩

theorem Passed.of_suffix (hm : m <:+ s) (h : Passed m rest) : Passed s rest := by
  obtain ⟨before, rfl⟩ := hm
  cases before with
  | nil => exact h
  | cons t before =>
    exact ⟨List.cons_ne_nil _ _, h.suffix.trans (List.suffix_append before m)⟩

/-- A token other than the end of the input is one of the tokens left. -/
theorem passed_tail {token : Token} (h : (ahead s).token = token) (hend : token ≠ .endOfInput) :
    Passed s s.tail := by
  cases s with
  | nil => exact (hend h.symm).elim
  | cons t s => exact ⟨List.cons_ne_nil _ _, List.suffix_rfl⟩

/-- Accepting takes one token or none. -/
theorem suffix_of_accept {token : Token} {taken : Bool} (h : Returns (accept token) s taken rest) :
    rest <:+ s := by
  obtain ⟨-, rfl⟩ := returns_accept.mp h
  split
  · exact List.tail_suffix s
  · exact List.suffix_rfl

/-- An accepted token was passed. -/
theorem passed_of_accept {token : Token} (h : Returns (accept token) s true rest)
    (hend : token ≠ .endOfInput) : Passed s rest := by
  obtain ⟨htoken, rfl⟩ := returns_accept.mp h
  exact passed_tail (of_decide_eq_true htoken.symm) hend

theorem passed_of_expect {token : Token} {expected : Expected} {u : Unit}
    (h : Returns (expect token expected) s u rest) (hend : token ≠ .endOfInput) :
    Passed s rest := by
  obtain ⟨htoken, rfl⟩ := returns_expect h
  exact passed_tail htoken hend

end Progress

/-! ## Lists of items -/

section Items

variable {P : α → Prop} {separator : Token} {item : Reader α}

/-- If every item that is read satisfies `P`, so do those read after separators. -/
theorem moreItems_returns
    (hitem : ∀ {s a rest}, Returns item s a rest → P a ∧ Passed s rest) :
    ∀ (bound : List Located) {found as : List α} {s rest : List Located},
      Returns (moreItems separator item bound found) s as rest → (∀ a ∈ found, P a) →
        (∀ a ∈ as, P a) ∧ rest <:+ s
  | [], found, as, s, rest, h, hfound => by
    obtain ⟨rfl, rfl⟩ := returns_pure.mp h
    exact ⟨fun a ha => hfound a (List.mem_reverse.mp ha), List.suffix_rfl⟩
  | _ :: bound, found, as, s, rest, h, hfound => by
    obtain ⟨taken, m, haccept, hif⟩ := returns_bind.mp h
    have hm := suffix_of_accept haccept
    cases taken with
    | false =>
      obtain ⟨rfl, rfl⟩ := returns_pure.mp hif
      exact ⟨fun a ha => hfound a (List.mem_reverse.mp ha), hm⟩
    | true =>
      -- one more item is found, so the invariant is that all items found so far satisfy `P`
      obtain ⟨next, m₁, hnext, hmore⟩ := returns_bind.mp hif
      obtain ⟨hP, hpassed⟩ := hitem hnext
      obtain ⟨has, hrest⟩ := moreItems_returns hitem bound hmore fun a ha => by
        rcases List.mem_cons.mp ha with rfl | ha
        · exact hP
        · exact hfound a ha
      exact ⟨has, hrest.trans (hpassed.suffix.trans hm)⟩

/-- If every item that is read satisfies `P`, so do all items between separators. -/
theorem separated_returns
    (hitem : ∀ {s a rest}, Returns item s a rest → P a ∧ Passed s rest)
    {as : List α} {s rest : List Located} (h : Returns (separated separator item) s as rest) :
    (∀ a ∈ as, P a) ∧ Passed s rest := by
  obtain ⟨first, m, hfirst, hget⟩ := returns_bind.mp h
  obtain ⟨bound, m₁, hbound, hmore⟩ := returns_bind.mp hget
  obtain ⟨-, rfl⟩ := returns_get.mp hbound
  obtain ⟨hP, hpassed⟩ := hitem hfirst
  obtain ⟨has, hrest⟩ := moreItems_returns hitem bound hmore fun a ha => by
    rw [List.mem_singleton.mp ha]
    exact hP
  exact ⟨has, hpassed.trans hrest⟩

end Items

end CausalRules.Reader
