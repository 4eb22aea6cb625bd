import Mathlib.Data.List.Forall2

/-!
# Steps that may fail, along a list

A script is built from lists of arguments, rules and effects by steps that may fail. When such a
traversal succeeds, its results correspond to the elements one by one.

- `bind_eq_ok`, `map_eq_ok`: when a composed step succeeds; `exists_bind_pure_eq_ok` and
  `exists_bind_bind_pure_eq_ok` when what it gives may be unknown.
- `mapM_eq_ok_iff`, `mapM_eq_some_iff`: the results of a traversal; `exists_mapM_eq_ok_iff` says when
  there are any, and `mapM_eq_error_iff` which failure a traversal has otherwise.
- `lookup_of_named`, `lookup_of_keyed`, `mem_of_lookup`: what an association list holds for a key.
-/

namespace CausalRules

variable {α β γ ε : Type}

theorem bind_eq_ok {x : Except ε α} {f : α → Except ε β} {b : β} :
    x >>= f = .ok b ↔ ∃ a, x = .ok a ∧ f a = .ok b := by
  cases x with
  | error e =>
    constructor
    · intro h
      cases h
    · rintro ⟨a, h, -⟩
      cases h
  | ok a =>
    constructor
    · intro h
      exact ⟨a, rfl, h⟩
    · rintro ⟨a', h, hf⟩
      obtain rfl := Except.ok.inj h
      exact hf

theorem map_eq_ok {x : Except ε α} {f : α → β} {b : β} :
    f <$> x = .ok b ↔ ∃ a, x = .ok a ∧ f a = b := by
  rw [map_eq_pure_bind, bind_eq_ok]
  constructor
  · rintro ⟨a, hx, hb⟩
    exact ⟨a, hx, Except.ok.inj hb⟩
  · rintro ⟨a, hx, rfl⟩
    exact ⟨a, hx, rfl⟩

theorem pure_eq_ok {a b : α} : (pure a : Except ε α) = .ok b ↔ a = b :=
  ⟨Except.ok.inj, congrArg _⟩

theorem exists_bind_eq_ok {x : Except ε α} {f : α → Except ε β} :
    (∃ b, x >>= f = .ok b) ↔ ∃ a, x = .ok a ∧ ∃ b, f a = .ok b := by
  simp only [bind_eq_ok]
  rw [exists_comm]
  simp only [exists_and_left]

theorem exists_map_eq_ok {x : Except ε α} {f : α → β} :
    (∃ b, f <$> x = .ok b) ↔ ∃ a, x = .ok a := by
  simp only [map_eq_ok]
  rw [exists_comm]
  simp only [exists_and_left, exists_eq', and_true]

/-- A result made from another one is there when that one is. -/
theorem exists_bind_pure_eq_ok {x : Except ε α} {f : α → β} :
    (∃ b, (x >>= fun a => pure (f a)) = .ok b) ↔ ∃ a, x = .ok a := by
  rw [← map_eq_pure_bind]
  exact exists_map_eq_ok

/-- A result made from two others is there when both are. -/
theorem exists_bind_bind_pure_eq_ok {x : Except ε α} {y : Except ε β} {f : α → β → γ} :
    (∃ c, (x >>= fun a => y >>= fun b => pure (f a b)) = .ok c) ↔
      (∃ a, x = .ok a) ∧ ∃ b, y = .ok b := by
  rw [exists_bind_eq_ok]
  simp only [exists_bind_pure_eq_ok, exists_and_right]

theorem exists_of_isOk {x : Except ε α} (h : x.isOk = true) : ∃ a, x = .ok a := by
  cases x with
  | error => cases h
  | ok a => exact ⟨a, rfl⟩

theorem exists_of_any_toOption {x : Except ε α} {p : α → Bool} (h : x.toOption.any p = true) :
    ∃ a, x = .ok a ∧ p a = true := by
  cases x with
  | error => cases h
  | ok a => exact ⟨a, rfl, h⟩

/-- A traversal succeeds when every step does. -/
theorem mapM_eq_ok_iff {f : α → Except ε β} {as : List α} {bs : List β} :
    as.mapM f = .ok bs ↔ List.Forall₂ (fun a b => f a = .ok b) as bs := by
  induction as generalizing bs with
  | nil =>
    rw [List.mapM_nil, pure_eq_ok, List.forall₂_nil_left_iff]
    exact eq_comm
  | cons a as ih =>
    rw [List.mapM_cons, bind_eq_ok]
    constructor
    · rintro ⟨b, hb, h⟩
      obtain ⟨bs', hbs', h⟩ := bind_eq_ok.mp h
      obtain rfl := pure_eq_ok.mp h
      exact .cons hb (ih.mp hbs')
    · intro h
      cases h with
      | cons hb hbs => exact ⟨_, hb, bind_eq_ok.mpr ⟨_, ih.mpr hbs, rfl⟩⟩

/-- A traversal succeeds when every step does; the results may be unknown. -/
theorem exists_mapM_eq_ok_iff {f : α → Except ε β} {as : List α} :
    (∃ bs, as.mapM f = .ok bs) ↔ ∀ a ∈ as, ∃ b, f a = .ok b := by
  induction as with
  | nil => exact ⟨fun _ => List.forall_mem_nil _, fun _ => ⟨[], rfl⟩⟩
  | cons a as ih =>
    rw [List.mapM_cons, exists_bind_bind_pure_eq_ok, List.forall_mem_cons, ih]

/-- A traversal fails like the first step that does. -/
theorem mapM_eq_error_iff {f : α → Except ε β} {as : List α} {e : ε} :
    as.mapM f = .error e ↔ ∃ before a after, as = before ++ a :: after ∧
      (∀ b ∈ before, ∃ r, f b = .ok r) ∧ f a = .error e := by
  induction as with
  | nil =>
    constructor
    · intro h
      cases h
    · rintro ⟨before, a, after, h, -⟩
      simp at h
  | cons a as ih =>
    rw [List.mapM_cons]
    cases hfirst : f a with
    | error e' =>
      constructor
      · rintro ⟨⟩
        exact ⟨[], a, as, rfl, List.forall_mem_nil _, hfirst⟩
      · rintro ⟨before, b, after, hsplit, hbefore, hb⟩
        -- no step before the failure fails, so the failure is that of the first step
        cases before with
        | nil =>
          obtain ⟨rfl, -⟩ := List.cons.inj hsplit
          obtain rfl := Except.error.inj (hfirst.symm.trans hb)
          rfl
        | cons c before =>
          obtain ⟨rfl, -⟩ := List.cons.inj hsplit
          obtain ⟨r, hr⟩ := hbefore a List.mem_cons_self
          rw [hfirst] at hr
          cases hr
    | ok r =>
      have hrest : (do let bs ← as.mapM f; return r :: bs) = .error e ↔ as.mapM f = .error e := by
        cases as.mapM f with
        | error e' => exact ⟨congrArg _ ∘ Except.error.inj, congrArg _ ∘ Except.error.inj⟩
        | ok bs => exact ⟨nofun, nofun⟩
      show (do let bs ← as.mapM f; return r :: bs) = .error e ↔ _
      rw [hrest, ih]
      constructor
      · rintro ⟨before, b, after, rfl, hbefore, hb⟩
        exact ⟨a :: before, b, after, rfl, List.forall_mem_cons.mpr ⟨⟨r, hfirst⟩, hbefore⟩, hb⟩
      · rintro ⟨before, b, after, hsplit, hbefore, hb⟩
        cases before with
        | nil =>
          obtain ⟨rfl, -⟩ := List.cons.inj hsplit
          rw [hfirst] at hb
          cases hb
        | cons c before =>
          obtain ⟨-, rfl⟩ := List.cons.inj hsplit
          exact ⟨before, b, after, rfl, (List.forall_mem_cons.mp hbefore).2, hb⟩

/-- A traversal has a value when every element has one. -/
theorem mapM_eq_some_iff {f : α → Option β} {as : List α} {bs : List β} :
    as.mapM f = some bs ↔ List.Forall₂ (fun a b => f a = some b) as bs := by
  induction as generalizing bs with
  | nil =>
    rw [List.mapM_nil, List.forall₂_nil_left_iff]
    exact Option.some_inj.trans eq_comm
  | cons a as ih =>
    rw [List.mapM_cons]
    constructor
    · intro h
      obtain ⟨b, hb, h⟩ := Option.bind_eq_some_iff.mp h
      obtain ⟨bs', hbs', h⟩ := Option.bind_eq_some_iff.mp h
      obtain rfl := Option.some.inj h
      exact .cons hb (ih.mp hbs')
    · intro h
      cases h with
      | cons hb hbs =>
        exact Option.bind_eq_some_iff.mpr
          ⟨_, hb, Option.bind_eq_some_iff.mpr ⟨_, ih.mpr hbs, rfl⟩⟩

theorem mapM_cons_eq_some {f : α → Option β} {a : α} {as : List α} {b : β} {bs : List β}
    (hb : f a = some b) (hbs : as.mapM f = some bs) : (a :: as).mapM f = some (b :: bs) :=
  mapM_eq_some_iff.mpr (.cons hb (mapM_eq_some_iff.mp hbs))

/-- A traversal has a value when every element has one; the values may be unknown. -/
theorem exists_mapM_eq_some_iff {f : α → Option β} {as : List α} :
    (∃ bs, as.mapM f = some bs) ↔ ∀ a ∈ as, ∃ b, f a = some b := by
  induction as with
  | nil => exact ⟨fun _ => nofun, fun _ => ⟨[], rfl⟩⟩
  | cons a as ih =>
    rw [List.forall_mem_cons, ← ih]
    constructor
    · rintro ⟨bs, h⟩
      cases mapM_eq_some_iff.mp h with
      | cons hb hbs => exact ⟨⟨_, hb⟩, _, mapM_eq_some_iff.mpr hbs⟩
    · rintro ⟨⟨b, hb⟩, bs, hbs⟩
      exact ⟨b :: bs, mapM_cons_eq_some hb hbs⟩

/-- Every element of a list has its result in a traversal of it. -/
theorem exists_of_forall₂ {R : α → β → Prop} {as : List α} {bs : List β}
    (h : List.Forall₂ R as bs) {a : α} (ha : a ∈ as) : ∃ b ∈ bs, R a b := by
  induction h with
  | nil => cases ha
  | cons hr _ ih =>
    rcases List.mem_cons.mp ha with rfl | ha
    · exact ⟨_, List.mem_cons_self .., hr⟩
    · obtain ⟨b, hb, hr⟩ := ih ha
      exact ⟨b, List.mem_cons_of_mem _ hb, hr⟩

/-- The element number `n` of a list has the result number `n` in a traversal of it. -/
theorem getElem?_of_forall₂ {R : α → β → Prop} {as : List α} {bs : List β}
    (h : List.Forall₂ R as bs) {n : Nat} {a : α} (ha : as[n]? = some a) :
    ∃ b, bs[n]? = some b ∧ R a b := by
  induction h generalizing n with
  | nil => cases ha
  | cons hr _ ih =>
    cases n with
    | zero =>
      obtain rfl := Option.some.inj ha
      exact ⟨_, rfl, hr⟩
    | succ n => exact ih ha

/-- What related elements have in common, the lists have in common. -/
theorem map_eq_of_forall₂ {γ : Type} {S : α → β → Prop} {f : α → γ} {g : β → γ} {as : List α}
    {bs : List β} (h : List.Forall₂ S as bs) (hfg : ∀ a b, S a b → f a = g b) :
    as.map f = bs.map g := by
  induction h with
  | nil => rfl
  | cons hab _ ih => rw [List.map_cons, List.map_cons, hfg _ _ hab, ih]

/-- The results of two traversals of a list correspond to each other. -/
theorem forall₂_of_forall₂ {γ : Type} {R : α → β → Prop} {S : α → γ → Prop} {T : β → γ → Prop}
    {as : List α} {bs : List β} {cs : List γ} (h : List.Forall₂ R as bs)
    (h' : List.Forall₂ S as cs) (himp : ∀ a ∈ as, ∀ b c, R a b → S a c → T b c) :
    List.Forall₂ T bs cs := by
  induction h generalizing cs with
  | nil =>
    cases h'
    exact .nil
  | cons hr _ ih =>
    cases h' with
    | cons hs hss =>
      refine .cons (himp _ (List.mem_cons_self ..) _ _ hr hs) (ih hss ?_)
      exact fun a ha => himp a (List.mem_cons_of_mem _ ha)

/-- Results that are kept by name are found again, when elements of one name have one result. -/
theorem lookup_of_named {γ : Type} [BEq α] [LawfulBEq α] {g : γ → α} {f : γ → Option β}
    {items : List γ} {pairs : List (α × β)}
    (h : List.Forall₂ (fun i pair => (g i, ·) <$> f i = some pair) items pairs) {i : γ}
    (hi : i ∈ items) (hname : ∀ j ∈ items, g j = g i → f j = f i) :
    pairs.lookup (g i) = f i := by
  induction h with
  | nil => cases hi
  | @cons j pair items pairs hpair _ ih =>
    obtain ⟨b, hb, rfl⟩ := Option.map_eq_some_iff.mp hpair
    rw [List.lookup_cons]
    by_cases heq : g i = g j
    · -- what later elements of this name have is the same, so the first one may be taken
      rw [heq, beq_self_eq_true, ← hname j (List.mem_cons_self ..) heq.symm, hb]
    · rw [beq_false_of_ne heq]
      have hrest : i ∈ items := by
        rcases List.mem_cons.mp hi with rfl | hi
        · exact absurd rfl heq
        · exact hi
      exact ih hrest fun j hj => hname j (List.mem_cons_of_mem _ hj)

/-- Results kept with what they are the results of are found again. -/
theorem lookup_of_keyed [BEq α] [LawfulBEq α] {f : α → Option β} {keys : List α}
    {pairs : List (α × β)} (h : List.Forall₂ (fun k pair => (k, ·) <$> f k = some pair) keys pairs)
    {k : α} (hk : k ∈ keys) : pairs.lookup k = f k :=
  lookup_of_named (g := id) h hk fun _ _ heq => congrArg f heq

/-- What an association list holds for a key is in it. -/
theorem mem_of_lookup [BEq α] [LawfulBEq α] {l : List (α × β)} {k : α} {b : β}
    (h : l.lookup k = some b) : (k, b) ∈ l := by
  obtain ⟨before, after, rfl, -⟩ := List.lookup_eq_some_iff.mp h
  exact List.mem_append_right _ (List.mem_cons_self ..)

end CausalRules
