import CausalRules.Proofs.Pruning

/-!
# Chains without or

A chain of which every connective is `and` can be true only if each test that stands in it, outside
of all groups, was asked for and found true. That remains so when some tests have been left out.

- `Formula.top`: the tests of a chain that stand in no group.
- `Formula.holds_of_value?`: in a true chain without `or` they are true.
- `Formula.holds_of_filterMap`: the same for those that remain of a chain.
-/

namespace CausalRules.Formula

variable {α β γ : Type}

/-- The tests of a chain that stand in no group. -/
def top : Formula α → List α
  | atom test => [test]
  | group _ => []
  | chain left _ right => left.top ++ right.top

theorem mem_atoms_of_mem_top {f : Formula α} {a : α} (h : a ∈ f.top) : a ∈ f.atoms := by
  induction f with
  | atom => exact h
  | group => cases h
  | chain left op right ihl ihr =>
    rcases List.mem_append.mp h with h | h
    · exact List.mem_append_left _ (ihl h)
    · exact List.mem_append_right _ (ihr h)

theorem chainHasOr_of_not_isChain {f : Formula α} (h : f.isChain = false) :
    f.chainHasOr = false := by
  cases f with
  | atom | group => rfl
  | chain => cases h

/-- Every connective of a chain without `or` is `and`, up to its end. -/
theorem chainHasOr_right {left right : Formula α} {op : Connective}
    (h : (chain left op right).chainHasOr = false) : right.chainHasOr = false := by
  rw [chainHasOr, Bool.or_eq_false_iff] at h
  exact h.2

/-! ## True chains -/

section Value

variable {holds? : α → Option Bool}

/-- An operand is skipped when the chain has failed before, and replaces its progress otherwise. -/
theorem advance?_operand {p q : Progress} (hp : p.settled = false) {result : Option Progress}
    (h : (if p.decided then some p else result) = some q) :
    p.running = false ∧ q = p ∨ p.running = true ∧ result = some q := by
  rw [Progress.decided, hp, Bool.false_or] at h
  cases hrunning : p.running with
  | false =>
    rw [hrunning] at h
    exact .inl ⟨rfl, (Option.some.inj h).symm⟩
  | true =>
    rw [hrunning] at h
    exact .inr ⟨rfl, h⟩

theorem operand_of_running {p : Progress} (hp : p.settled = false) (hrunning : p.running = true)
    (b : Bool) : p.operand b = ⟨false, b⟩ := by
  rw [Progress.operand, Progress.decided, hp, hrunning]
  rfl

/-- A chain without `or` settles nothing. If it is still running at its end, it was running before,
and each of its tests was found true. -/
theorem advance?_conjunction {f : Formula α} (hnested : f.RightNested)
    (hor : f.chainHasOr = false) {p q : Progress} (h : f.advance? holds? p = some q)
    (hp : p.settled = false) :
    q.settled = false ∧
      (q.running = true → p.running = true ∧ ∀ a ∈ f.top, holds? a = some true) := by
  induction f generalizing p q with
  | atom a =>
    obtain ⟨hfailed, rfl⟩ | ⟨hrunning, h⟩ := advance?_operand hp h
    · exact ⟨hp, fun hq => absurd (hq.symm.trans hfailed) nofun⟩
    · obtain ⟨b, hb, rfl⟩ := Option.map_eq_some_iff.mp h
      rw [operand_of_running hp hrunning]
      refine ⟨rfl, fun hq => ⟨hrunning, fun a' ha' => ?_⟩⟩
      rw [List.mem_singleton.mp ha', hb]
      exact congrArg some hq
  | group inner =>
    obtain ⟨hfailed, rfl⟩ | ⟨hrunning, h⟩ := advance?_operand hp h
    · exact ⟨hp, fun hq => absurd (hq.symm.trans hfailed) nofun⟩
    · obtain ⟨r, -, h⟩ := Option.bind_eq_some_iff.mp h
      rw [← Option.some.inj h, operand_of_running hp hrunning]
      exact ⟨rfl, fun _ => ⟨hrunning, nofun⟩⟩
  | chain left op right ihl ihr =>
    obtain ⟨hleft, hnl, hnr⟩ := hnested
    obtain rfl := eq_and_of_chainHasOr hor
    obtain ⟨r, hl, hr⟩ := Option.bind_eq_some_iff.mp h
    obtain ⟨hr', hleft⟩ := ihl hnl (chainHasOr_of_not_isChain hleft) hl hp
    obtain ⟨hq', hright⟩ := ihr hnr (chainHasOr_right hor) hr hr'
    refine ⟨hq', fun hq => ?_⟩
    -- the right part was running at its start, which is where the left part ended
    obtain ⟨hrunning, hright⟩ := hright hq
    obtain ⟨hrunning, hleft⟩ := hleft hrunning
    refine ⟨hrunning, fun a ha => ?_⟩
    rcases List.mem_append.mp ha with ha | ha
    · exact hleft a ha
    · exact hright a ha

/-- **In a true chain without `or` each test outside of groups is true.** -/
theorem holds_of_value? {f : Formula α} (hnested : f.RightNested) (hor : f.chainHasOr = false)
    (h : f.value? holds? = some true) : ∀ a ∈ f.top, holds? a = some true := by
  obtain ⟨q, hq, hvalue⟩ := Option.map_eq_some_iff.mp h
  obtain ⟨hsettled, hrunning⟩ := advance?_conjunction hnested hor hq rfl
  rw [Progress.value, hsettled, Bool.false_or] at hvalue
  exact (hrunning hvalue).2

end Value

/-- A formula over other tests is computed like the formula itself. -/
theorem advance?_map (holds? : β → Option Bool) (f : α → β) (g : Formula α) (p : Progress) :
    (g.map f).advance? holds? p = g.advance? (holds? ∘ f) p := by
  induction g generalizing p with
  | atom a => rfl
  | group inner ih => rw [map, advance?, advance?, ih]
  | chain left op right ihl ihr =>
    rw [map, advance?, advance?, ihl]
    exact congrArg _ (funext fun q => ihr _)

theorem value?_map (holds? : β → Option Bool) (f : α → β) (g : Formula α) :
    (g.map f).value? holds? = g.value? (holds? ∘ f) :=
  congrArg _ (advance?_map holds? f g .start)

/-! ## Chains of which tests were left out -/

section Rest

variable {keep : α → Option β}

theorem filterMap_chain_eq_some {left right : Formula α} {op : Connective} {g : Formula β}
    (h : (chain left op right).filterMap keep = some g) :
    (∃ l r, left.filterMap keep = some l ∧ right.filterMap keep = some r ∧ g = chain l op r) ∨
      left.filterMap keep = some g ∨ right.filterMap keep = some g := by
  rw [filterMap] at h
  split at h
  · rename_i l r hl hr
    exact .inl ⟨l, r, hl, hr, (Option.some.inj h).symm⟩
  · rename_i hl hr
    exact .inr (.inl (hl.trans h))
  · rename_i hl hr
    exact .inr (.inr (hr.trans h))
  · cases h

theorem isChain_of_filterMap {f : Formula α} (hf : f.isChain = false) {g : Formula β}
    (h : f.filterMap keep = some g) : g.isChain = false := by
  cases f with
  | atom a =>
    obtain ⟨b, -, rfl⟩ := Option.map_eq_some_iff.mp h
    rfl
  | group inner =>
    obtain ⟨i, -, rfl⟩ := Option.map_eq_some_iff.mp h
    rfl
  | chain => cases hf

theorem rightNested_of_filterMap {f : Formula α} (hf : f.RightNested) {g : Formula β}
    (h : f.filterMap keep = some g) : g.RightNested := by
  induction f generalizing g with
  | atom a =>
    obtain ⟨b, -, rfl⟩ := Option.map_eq_some_iff.mp h
    trivial
  | group inner ih =>
    obtain ⟨i, hi, rfl⟩ := Option.map_eq_some_iff.mp h
    have hinner : i.RightNested := ih hf hi
    exact hinner
  | chain left op right ihl ihr =>
    obtain ⟨hleft, hnl, hnr⟩ := hf
    obtain ⟨l, r, hl, hr, rfl⟩ | hl | hr := filterMap_chain_eq_some h
    · exact ⟨isChain_of_filterMap hleft hl, ihl hnl hl, ihr hnr hr⟩
    · exact ihl hnl hl
    · exact ihr hnr hr

theorem chainHasOr_of_filterMap {f : Formula α} (hf : f.RightNested)
    (hor : f.chainHasOr = false) {g : Formula β} (h : f.filterMap keep = some g) :
    g.chainHasOr = false := by
  induction f generalizing g with
  | atom | group => exact chainHasOr_of_not_isChain (isChain_of_filterMap rfl h)
  | chain left op right _ ihr =>
    obtain ⟨hleft, -, hnr⟩ := hf
    obtain ⟨l, r, hl, hr, rfl⟩ | hl | hr := filterMap_chain_eq_some h
    · rw [chainHasOr, eq_and_of_chainHasOr hor, ihr hnr (chainHasOr_right hor) hr]
      rfl
    · exact chainHasOr_of_not_isChain (isChain_of_filterMap hleft hl)
    · exact ihr hnr (chainHasOr_right hor) hr

/-- A test that is kept stays outside of groups. -/
theorem exists_filterMap_of_mem_top {f : Formula α} {a : α} (ha : a ∈ f.top) {b : β}
    (hb : keep a = some b) : ∃ g, f.filterMap keep = some g ∧ b ∈ g.top := by
  induction f with
  | atom a' =>
    obtain rfl := List.mem_singleton.mp ha
    exact ⟨atom b, by rw [filterMap, hb]; rfl, List.mem_singleton_self b⟩
  | group => cases ha
  | chain left op right ihl ihr =>
    rw [filterMap]
    rcases List.mem_append.mp ha with ha | ha
    · obtain ⟨l, hl, hmem⟩ := ihl ha
      rw [hl]
      cases right.filterMap keep with
      | none => exact ⟨l, rfl, hmem⟩
      | some r => exact ⟨chain l op r, rfl, List.mem_append_left _ hmem⟩
    · obtain ⟨r, hr, hmem⟩ := ihr ha
      rw [hr]
      cases left.filterMap keep with
      | none => exact ⟨r, rfl, hmem⟩
      | some l => exact ⟨chain l op r, rfl, List.mem_append_right _ hmem⟩

/-- **If what remains of a chain without `or` is true, so is each test that remains outside of
groups.** -/
theorem holds_of_filterMap {f : Formula α} (hnested : f.RightNested) (hor : f.chainHasOr = false)
    {holds? : β → Option Bool} {a : α} (ha : a ∈ f.top) {b : β} (hb : keep a = some b)
    (h : ∀ g, f.filterMap keep = some g → g.value? holds? = some true) :
    holds? b = some true := by
  obtain ⟨g, hg, hmem⟩ := exists_filterMap_of_mem_top ha hb
  exact holds_of_value? (rightNested_of_filterMap hnested hg)
    (chainHasOr_of_filterMap hnested hor hg) (h g hg) b hmem

end Rest

end CausalRules.Formula
