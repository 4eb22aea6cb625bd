import CausalRules.Proofs.Pruning
import CausalRules.Proofs.Reading.Predicates
import CausalRules.Proofs.Reading.Tokens

/-!
# Conditions that were read

What may be relied on for the condition of a rule that was read from a text:

- its chains nest to the right;
- in each of its lists a continuation stands last and reaches back over arguments that are there;
- its predicates stand at increasing offsets, so no two of them share one.

Offsets are followed through the readers by `Marks`: the offsets noted while some tokens were taken
are offsets of these tokens, in order. `Program.wellRead_of_read` puts the three together.
-/

namespace CausalRules

open Reader

/-! ## Noted offsets -/

/-- The offsets noted while tokens were taken are offsets of these tokens, in order. -/
def Marks (noted : List Nat) (s rest : List Located) : Prop :=
  ∃ used, s = used ++ rest ∧ noted.Sublist (used.map Located.position)

section Marks

variable {noted noted' : List Nat} {s m rest : List Located}

theorem Marks.suffix (h : Marks noted s rest) : rest <:+ s := by
  obtain ⟨used, rfl, -⟩ := h
  exact List.suffix_append used rest

theorem marks_nil (h : rest <:+ s) : Marks [] s rest := by
  obtain ⟨used, rfl⟩ := h
  exact ⟨used, rfl, List.nil_sublist _⟩

/-- The offset of the first token that is taken may be noted. -/
theorem marks_ahead (h : Passed s rest) : Marks [(ahead s).position] s rest := by
  cases s with
  | nil => exact (h.1 rfl).elim
  | cons t s =>
    obtain ⟨used, rfl⟩ := h.2
    exact ⟨t :: used, rfl, List.singleton_sublist.mpr (List.mem_cons_self ..)⟩

theorem Marks.append (h : Marks noted s m) (h' : Marks noted' m rest) :
    Marks (noted ++ noted') s rest := by
  obtain ⟨used, rfl, hnoted⟩ := h
  obtain ⟨used', rfl, hnoted'⟩ := h'
  refine ⟨used ++ used', (List.append_assoc ..).symm, ?_⟩
  rw [List.map_append]
  exact hnoted.append hnoted'

theorem Marks.trans_suffix (h : Marks noted s m) (hrest : rest <:+ m) : Marks noted s rest := by
  simpa using h.append (marks_nil hrest)

theorem Marks.of_suffix (hm : m <:+ s) (h : Marks noted m rest) : Marks noted s rest :=
  (marks_nil hm).append h

/-- Offsets noted among tokens with increasing offsets increase. -/
theorem Marks.pairwise (h : Marks noted s rest)
    (hs : s.Pairwise (·.position < ·.position)) : noted.Pairwise (· < ·) := by
  obtain ⟨used, rfl, hnoted⟩ := h
  exact (List.pairwise_map.mpr (List.pairwise_append.mp hs).1).sublist hnoted

end Marks

/-! ## Chains -/

/-- What reading a condition, which takes `s` down to `rest`, makes sure of. -/
structure Condition.ReadFrom (c : Condition) (s rest : List Located) : Prop where
  nested : c.RightNested
  fits : ∀ p ∈ c.atoms, p.Fits
  marks : Marks (c.atoms.map Predicate.position) s rest

/-- What reading a test or a group makes sure of. -/
def Condition.PartFrom (c : Condition) (s rest : List Located) : Prop :=
  c.ReadFrom s rest ∧ c.isChain = false

/-- A chain is made of parts, the last of which is not followed by a connective. -/
theorem Condition.ReadFrom.chain {left right : Condition} {op : Connective}
    {s m m₁ rest : List Located} (hleft : left.PartFrom s m) (hm : m₁ <:+ m)
    (hright : right.ReadFrom m₁ rest) : Condition.ReadFrom (.chain left op right) s rest where
  nested := ⟨hleft.2, hleft.1.nested, hright.nested⟩
  fits := by
    intro p hp
    rcases List.mem_append.mp hp with hp | hp
    · exact hleft.1.fits p hp
    · exact hright.fits p hp
  marks := by
    rw [Formula.atoms, List.map_append]
    exact (hleft.1.marks.trans_suffix hm).append hright.marks

/-- The parts of a chain before its last one, from right to left, were read from `s` down to `m`. -/
inductive PartsFrom (s : List Located) : List (Condition × Connective) → List Located → Prop
  | nil : PartsFrom s [] s
  | cons {part : Condition} {op : Connective} {before : List (Condition × Connective)}
      {m m₁ m₂ : List Located} (parts : PartsFrom s before m) (last : part.PartFrom m m₁)
      (connective : m₂ <:+ m₁) : PartsFrom s ((part, op) :: before) m₂

/-- Joining parts with what follows them gives a condition that was read from the first of them
on. -/
theorem PartsFrom.nestRight {s m rest : List Located} {before : List (Condition × Connective)}
    (h : PartsFrom s before m) {last : Condition} (hlast : last.ReadFrom m rest) :
    (nestRight last before).ReadFrom s rest := by
  induction h generalizing last with
  | nil => exact hlast
  | cons _ hpart hconnective ih => exact ih (.chain hpart hconnective hlast)

section Chains

variable {item : Reader Condition} {s rest : List Located} {c : Condition}

/-- Reading on from a part of a chain. -/
theorem readFrom_of_moreChain
    (hitem : ∀ {s c rest}, Returns item s c rest → c.PartFrom s rest) :
    ∀ (bound : List Located) {last c : Condition} {before : List (Condition × Connective)}
      {s m m₁ rest : List Located}, PartsFrom s before m → last.PartFrom m m₁ →
      Returns (moreChain item bound last before) m₁ c rest → c.ReadFrom s rest
  | [], last, c, before, s, m, m₁, rest, hparts, hlast, h => by
    obtain ⟨rfl, rfl⟩ := returns_pure.mp h
    exact hparts.nestRight hlast.1
  | _ :: bound, last, c, before, s, m, m₁, rest, hparts, hlast, h => by
    obtain ⟨here, m₂, hcurrent, h⟩ := returns_bind.mp h
    obtain ⟨rfl, rfl⟩ := returns_current.mp hcurrent
    split at h
    · -- a connective follows, so `last` joins the parts and the next one becomes the last
      obtain ⟨u, m₃, hskip, h⟩ := returns_bind.mp h
      obtain rfl := returns_skip.mp hskip
      obtain ⟨next, m₃, hnext, h⟩ := returns_bind.mp h
      exact readFrom_of_moreChain hitem bound (hparts.cons hlast (List.tail_suffix _))
        (hitem hnext) h
    · obtain ⟨rfl, rfl⟩ := returns_pure.mp h
      exact hparts.nestRight hlast.1

theorem readFrom_of_readChain
    (hitem : ∀ {s c rest}, Returns item s c rest → c.PartFrom s rest)
    (h : Returns (readChain item) s c rest) : c.ReadFrom s rest := by
  obtain ⟨first, m, hfirst, hget⟩ := returns_bind.mp h
  obtain ⟨bound, m₁, hbound, hmore⟩ := returns_bind.mp hget
  obtain ⟨-, rfl⟩ := returns_get.mp hbound
  exact readFrom_of_moreChain hitem bound .nil (hitem hfirst) hmore

/-- A part is a group, whose inside was read, or a predicate. -/
theorem partFrom_of_readItem {limit depth : Nat} {inside : Nat → Reader Condition}
    (hinside : ∀ {position s c rest}, Returns (inside position) s c rest → c.ReadFrom s rest)
    (h : Returns (readItem limit depth inside) s c rest) : c.PartFrom s rest := by
  obtain ⟨here, m, hcurrent, h⟩ := returns_bind.mp h
  obtain ⟨rfl, rfl⟩ := returns_current.mp hcurrent
  obtain ⟨taken, m₁, haccept, h⟩ := returns_bind.mp h
  have hsuffix := suffix_of_accept haccept
  cases taken with
  | true =>
    obtain ⟨inner, m₂, hinner, h⟩ := returns_bind.mp h
    obtain ⟨u, m₃, hclose, hpure⟩ := returns_bind.mp h
    obtain ⟨rfl, rfl⟩ := returns_pure.mp hpure
    -- a group notes what was noted between its parentheses
    have hread := hinside hinner
    refine ⟨⟨hread.nested, hread.fits, ?_⟩, rfl⟩
    exact (hread.marks.trans_suffix (passed_of_expect hclose nofun).suffix).of_suffix hsuffix
  | false =>
    obtain ⟨p, m₂, hp, hpure⟩ := returns_bind.mp h
    obtain ⟨rfl, rfl⟩ := returns_pure.mp hpure
    obtain ⟨hposition, hpassed, hfits⟩ := fits_of_readPredicate hp
    refine ⟨⟨trivial, fun q hq => ?_, ?_⟩, rfl⟩
    · rw [List.mem_singleton.mp hq]
      exact hfits
    · -- a predicate notes the offset of its first token
      rw [Formula.atoms, List.map_singleton, hposition]
      exact (marks_ahead hpassed).of_suffix hsuffix

theorem readFrom_of_readCondition {limit : Nat} (depth : Nat) :
    ∀ {s c rest}, Returns (readCondition limit depth) s c rest → c.ReadFrom s rest := by
  induction depth with
  | zero =>
    -- no group may be opened at this depth
    intro s c rest h
    exact readFrom_of_readChain
      (partFrom_of_readItem fun h => (not_returns_throw h).elim) h
  | succ depth ih =>
    intro s c rest h
    exact readFrom_of_readChain (partFrom_of_readItem ih) h

end Chains

/-! ## Programs -/

/-- What holds of the condition of a rule that was read. -/
structure Condition.WellRead (c : Condition) : Prop where
  nested : c.RightNested
  fits : ∀ p ∈ c.atoms, p.Fits
  increasing : (c.atoms.map Predicate.position).Pairwise (· < ·)

/-- No two predicates of a condition that was read begin at the same offset. -/
theorem Condition.WellRead.nodup {c : Condition} (h : c.WellRead) :
    (c.atoms.map Predicate.position).Nodup :=
  h.increasing.imp Nat.ne_of_lt

section Rules

variable {limit : Nat} {s rest : List Located}

theorem passed_of_readAction {action : Action} (h : Returns (readAction limit) s action rest) :
    Passed s rest := by
  obtain ⟨here, m, hcurrent, h⟩ := returns_bind.mp h
  obtain ⟨rfl, rfl⟩ := returns_current.mp hcurrent
  split at h
  · rename_i name htoken
    obtain ⟨u, m₁, hskip, h⟩ := returns_bind.mp h
    obtain rfl := returns_skip.mp hskip
    obtain ⟨u, m₁, hopen, h⟩ := returns_bind.mp h
    obtain ⟨taken, m₂, haccept, hif⟩ := returns_bind.mp h
    refine (passed_tail htoken nofun).trans ?_
    have hsuffix := (suffix_of_accept haccept).trans (passed_of_expect hopen nofun).suffix
    cases taken with
    | true =>
      obtain ⟨-, rfl⟩ := returns_pure.mp hif
      exact hsuffix
    | false =>
      obtain ⟨args, m₃, hargs, hpure⟩ := returns_bind.mp hif
      obtain ⟨-, rfl⟩ := returns_pure.mp hpure
      exact (passed_of_readArgs (passed_of_readArg limit) hargs).1.suffix.trans hsuffix
  · exact (not_returns_unexpected h).elim

/-- A condition before a rule was read from the tokens that it takes. -/
theorem readFrom_of_readGuard {condition : Option Condition}
    (h : Returns (readGuard limit) s condition rest) :
    rest <:+ s ∧ ∀ c, condition = some c → ∃ m m₁, m <:+ s ∧ c.ReadFrom m m₁ := by
  obtain ⟨taken, m, haccept, hif⟩ := returns_bind.mp h
  have hsuffix := suffix_of_accept haccept
  cases taken with
  | true =>
    obtain ⟨u, m₁, hopen, h⟩ := returns_bind.mp hif
    obtain ⟨c, m₂, hc, h⟩ := returns_bind.mp h
    obtain ⟨u, m₃, hclose, h⟩ := returns_bind.mp h
    obtain ⟨u, m₄, hcolon, hpure⟩ := returns_bind.mp h
    obtain ⟨rfl, rfl⟩ := returns_pure.mp hpure
    have hread := readFrom_of_readCondition limit hc
    have hopen := (passed_of_expect hopen nofun).suffix.trans hsuffix
    have hcolon := (passed_of_expect hcolon nofun).suffix
    have hclose := (passed_of_expect hclose nofun).suffix
    refine ⟨((hcolon.trans hclose).trans hread.marks.suffix).trans hopen, ?_⟩
    intro c' hc'
    obtain rfl := Option.some.inj hc'
    exact ⟨m₁, m₂, hopen, hread⟩
  | false =>
    obtain ⟨rfl, rfl⟩ := returns_pure.mp hif
    exact ⟨hsuffix, by nofun⟩

/-- A rule whose condition, if it has one, was read from some of the given tokens. -/
def Rule.ReadWithin (s : List Located) (rule : Rule) : Prop :=
  ∀ c, rule.condition = some c → ∃ m m₁, m <:+ s ∧ c.ReadFrom m m₁

theorem Rule.ReadWithin.mono {m : List Located} {rule : Rule} (h : rule.ReadWithin m)
    (hm : m <:+ s) : rule.ReadWithin s := by
  intro c hc
  obtain ⟨n, n', hn, hread⟩ := h c hc
  exact ⟨n, n', hn.trans hm, hread⟩

theorem readWithin_of_readRule {rule : Rule} (h : Returns (readRule limit) s rule rest) :
    rest <:+ s ∧ rule.ReadWithin s := by
  obtain ⟨here, m, hcurrent, h⟩ := returns_bind.mp h
  obtain ⟨rfl, rfl⟩ := returns_current.mp hcurrent
  obtain ⟨condition, m₁, hguard, h⟩ := returns_bind.mp h
  obtain ⟨intention, m₂, hintention, h⟩ := returns_bind.mp h
  obtain ⟨u, m₃, hcauses, h⟩ := returns_bind.mp h
  obtain ⟨effects, m₄, heffects, hpure⟩ := returns_bind.mp h
  obtain ⟨rfl, rfl⟩ := returns_pure.mp hpure
  obtain ⟨hsuffix, hread⟩ := readFrom_of_readGuard hguard
  have hintention := (passed_of_readAction hintention).suffix
  have hcauses := (passed_of_expect hcauses nofun).suffix
  have heffects := separated_returns (P := fun _ => True)
    (fun h => ⟨trivial, passed_of_readAction h⟩) heffects
  exact ⟨((heffects.2.suffix.trans hcauses).trans hintention).trans hsuffix, hread⟩

theorem readWithin_of_moreRules :
    ∀ (bound : List Located) {s m rest : List Located} {found rules : List Rule}, m <:+ s →
      (∀ rule ∈ found, rule.ReadWithin s) → Returns (moreRules limit bound found) m rules rest →
      ∀ rule ∈ rules, rule.ReadWithin s
  | [], s, m, rest, found, rules, _, hfound, h => by
    obtain ⟨rfl, rfl⟩ := returns_pure.mp h
    exact fun rule hrule => hfound rule (List.mem_reverse.mp hrule)
  | _ :: bound, s, m, rest, found, rules, hm, hfound, h => by
    have hdone : ∀ rule ∈ found.reverse, rule.ReadWithin s :=
      fun rule hrule => hfound rule (List.mem_reverse.mp hrule)
    obtain ⟨taken, m₁, haccept, h⟩ := returns_bind.mp h
    have hm' := (suffix_of_accept haccept).trans hm
    cases taken with
    | false =>
      obtain ⟨rfl, rfl⟩ := returns_pure.mp h
      exact hdone
    | true =>
      obtain ⟨here, m₂, hcurrent, h⟩ := returns_bind.mp h
      obtain ⟨rfl, rfl⟩ := returns_current.mp hcurrent
      split at h
      · obtain ⟨rfl, rfl⟩ := returns_pure.mp h
        exact hdone
      · obtain ⟨rule, m₃, hrule, h⟩ := returns_bind.mp h
        obtain ⟨hsuffix, hread⟩ := readWithin_of_readRule hrule
        refine readWithin_of_moreRules bound (hsuffix.trans hm') (fun rule' hrule' => ?_) h
        rcases List.mem_cons.mp hrule' with rfl | hrule'
        · exact hread.mono hm'
        · exact hfound rule' hrule'

theorem readWithin_of_readRules {rules : List Rule} (h : Returns (readRules limit) s rules rest) :
    ∀ rule ∈ rules, rule.ReadWithin s := by
  obtain ⟨u, m, hword, h⟩ := returns_bind.mp h
  obtain ⟨u, m₁, hopen, h⟩ := returns_bind.mp h
  have hm₁ := (passed_of_expect hopen nofun).suffix.trans (passed_of_expect hword nofun).suffix
  obtain ⟨here, m₂, hcurrent, hif⟩ := returns_bind.mp h
  obtain ⟨rfl, rfl⟩ := returns_current.mp hcurrent
  split at hif
  · obtain ⟨u, m₃, hnone, -⟩ := returns_bind.mp hif
    exact (not_returns_unexpected hnone).elim
  · obtain ⟨first, m₃, hfirst, hget⟩ := returns_bind.mp hif
    obtain ⟨bound, m₄, hbound, hrest⟩ := returns_bind.mp hget
    obtain ⟨-, rfl⟩ := returns_get.mp hbound
    obtain ⟨found, m₅, hmore, hclose⟩ := returns_bind.mp hrest
    obtain ⟨u, m₆, -, hpure⟩ := returns_bind.mp hclose
    obtain ⟨rfl, -⟩ := returns_pure.mp hpure
    obtain ⟨hsuffix, hread⟩ := readWithin_of_readRule hfirst
    refine readWithin_of_moreRules bound (hsuffix.trans hm₁) (fun rule hrule => ?_) hmore
    rw [List.mem_singleton.mp hrule]
    exact hread.mono hm₁

end Rules

/-- The rules of a program are read from the tokens of its text. -/
theorem Program.returns_of_read {limits : Limits} {text : String} {program : Program}
    (h : Program.read limits text = .ok program) :
    ∃ tokens rest, tokenize text = .ok tokens ∧
      Returns (readRules limits.maxNesting) tokens program.rules rest := by
  unfold Program.read at h
  split at h
  · cases h
  · cases htokens : tokenize text with
    | error e =>
      rw [htokens] at h
      cases h
    | ok tokens =>
      rw [htokens] at h
      obtain ⟨rest, hprogram⟩ := returns_of_run' h
      obtain ⟨rules, m, hrules, hend⟩ := returns_bind.mp hprogram
      obtain ⟨here, m₁, -, hif⟩ := returns_bind.mp hend
      split at hif
      · obtain ⟨rfl, -⟩ := returns_pure.mp hif
        exact ⟨tokens, m, rfl, hrules⟩
      · exact (not_returns_throw hif).elim

/-- **The condition of a rule that was read from a text is well read.** -/
theorem Program.wellRead_of_read {limits : Limits} {text : String} {program : Program}
    (h : Program.read limits text = .ok program) {rule : Rule} (hrule : rule ∈ program.rules)
    {c : Condition} (hc : rule.condition = some c) : c.WellRead := by
  obtain ⟨tokens, rest, htokens, hrules⟩ := Program.returns_of_read h
  obtain ⟨m, m₁, ⟨before, rfl⟩, hread⟩ := readWithin_of_readRules hrules rule hrule c hc
  -- the condition took some of the last tokens, and among these offsets increase as well
  have hincreasing := (List.pairwise_append.mp (tokenize_pairwise htokens)).2.1
  exact ⟨hread.nested, hread.fits, hread.marks.pairwise hincreasing⟩

end CausalRules
